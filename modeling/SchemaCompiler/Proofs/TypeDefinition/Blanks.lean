import SchemaCompiler.Proofs.TypeDefinition.Parsing.Exactness

/-!
# Blanks in the texts of type definitions

Where blanks are not asked for, a parser looks for its tokens right behind one another, and so the
texts that it reads have no blanks outside strings. Values without a form of their own are read by a
routine of their own, which allows blanks in front of a value and inside it, asked for or not. So
the first holds of type definitions in which every value has a form. Asking for blanks never takes
anything away.
-/
namespace SchemaCompiler

namespace Json

/-- Up to the rest of a text, there are no blanks outside strings. -/
inductive Compact : List Char → List Char → Prop
  | refl (cs : List Char) : Compact cs cs
  | plain {c : Char} {cs rest : List Char} (hblank : isBlank c = false) (hquote : c ≠ '"')
      (h : Compact cs rest) : Compact (c :: cs) rest
  | string {cs s stop rest : List Char} (hs : Letters cs s stop) (h : Compact stop rest) :
      Compact ('"' :: cs) rest

theorem Compact.trans {cs stop rest : List Char} (h : Compact cs stop) (h' : Compact stop rest) :
    Compact cs rest := by
  induction h with
  | refl cs => exact h'
  | plain hblank hquote _ ih => exact .plain hblank hquote (ih h')
  | string hs _ ih => exact .string hs (ih h')

theorem consumes_compact : Consumes false Compact where
  trans := .trans
  blank _ h := by cases h
  solid cs hc := by
    obtain ⟨hblank, hquote⟩ : isBlank _ = false ∧ _ ≠ '"' := by simpa [isSolid] using hc
    exact .plain hblank hquote (.refl cs)
  string h := .string h (.refl _)

theorem IsText.compact {cs : List Char} {v : Json} (h : IsText false cs v) : Compact cs [] := by
  obtain ⟨start, stop, hb, hv, he⟩ := h
  cases he with
  | nil => exact hb.consumed consumes_compact (hv.consumed consumes_compact)
  | cons hws _ _ => cases hws

end Json

namespace TypeDefinition

open Json (Compact)

namespace Parser

/-- Of every type definition that is accepted. Where blanks are not asked for and every value has a
form of its own, a text that is parsed has no blanks outside strings. A text that is parsed where
blanks are not asked for is parsed where they are, to the same value and the same place. -/
theorem compact_of_parse {definition : Json} {schema : Schema}
    (hread : Schema.ofJson definition = .ok schema) (maxDepth : Nat) :
    ∃ p q, compile ⟨false, maxDepth⟩ definition = .ok p ∧
      compile ⟨true, maxDepth⟩ definition = .ok q ∧
      ∀ text : String, text.utf8ByteSize ≤ 2 ^ 53 → ∀ v place, p.parse text = .parsed v place →
        (schema.Typed → Compact text.toList []) ∧ q.parse text = .parsed v place := by
  have hschema := Schema.wellFormed_of_ofJson hread
  obtain ⟨p, hp, hparse⟩ : ∃ p, compile ⟨false, maxDepth⟩ definition = .ok p ∧ _ :=
    exists_compile hread hschema
  obtain ⟨q, hq, hparse'⟩ : ∃ q, compile ⟨true, maxDepth⟩ definition = .ok q ∧ _ :=
    exists_compile hread hschema
  refine ⟨p, q, hp, hq, fun text hsize v place hv => ?_⟩
  obtain ⟨hplace, rest, hscan⟩ := (hparse text hsize v place).1 hv
  have hlength : text.toList.length < Machine.roundLimit :=
    Nat.lt_of_le_of_lt (Nat.le_trans (Text.length_toList_le text) hsize) (by decide)
  cases maxDepth with
  | zero => cases hscan
  | succ calls =>
    refine ⟨fun htyped => ?_, (hparse' text hsize v place).2 ⟨hplace, [], ?_⟩⟩
    · obtain ⟨u, hu, -⟩ := Schema.isText_of_scan false (fun _ => htyped) hscan
      exact hu.compact
    · obtain ⟨u, hu, haccept⟩ := Schema.isText_of_scan true nofun hscan
      exact Schema.scan_of_isText (fun _ => rfl) hlength hu haccept

/-- The text of two sizes is parsed, whether blanks are asked for or not, and has none. -/
theorem compact_of_parse_twoSizes : ∃ p q, compile ⟨false, 3⟩ sizesDefinition = .ok p ∧
    compile ⟨true, 3⟩ sizesDefinition = .ok q ∧ ∃ v,
      p.parse "\x7b\"next\":\x7b\"size\":2\x7d,\"size\":1\x7d" = .parsed v 28 ∧
      q.parse "\x7b\"next\":\x7b\"size\":2\x7d,\"size\":1\x7d" = .parsed v 28 ∧
      Compact "\x7b\"next\":\x7b\"size\":2\x7d,\"size\":1\x7d".toList [] := by
  have htyped : sizesSchema.Typed := ⟨rfl, by simp [sizesSchema, Form.isTyped, Form.allTyped]⟩
  obtain ⟨p, q, hp, hq, hparse⟩ := compact_of_parse
    (show Schema.ofJson sizesDefinition = .ok sizesSchema from rfl) 3
  have htext : (compile ⟨false, 3⟩ sizesDefinition).toOption.map
      (·.parse "\x7b\"next\":\x7b\"size\":2\x7d,\"size\":1\x7d") = some (.parsed twoSizes 28) := by
    decide +kernel
  rw [hp] at htext
  have hv : p.parse _ = _ := Option.some.inj htext
  obtain ⟨hcompact, hv'⟩ := hparse _ (by decide) _ _ hv
  exact ⟨p, q, hp, hq, _, hv, hv', hcompact htyped⟩

/-- An array of any values is parsed with a blank in it, although blanks are not asked for. -/
theorem blank_of_empty : ∃ p v, compile ⟨false, 8⟩ (.object []) = .ok p ∧
    p.parse "[1, 2]" = .parsed v 6 ∧ ¬ Compact "[1, 2]".toList [] := by
  have hparsed : (compile ⟨false, 8⟩ (.object [])).toOption.map (·.parse "[1, 2]") =
      some (.parsed (.array [.ofNat 1, .ofNat 2]) 6) := by decide +kernel
  cases hp : compile ⟨false, 8⟩ (.object []) with
  | error e =>
    rw [hp] at hparsed
    cases hparsed
  | ok p =>
    rw [hp] at hparsed
    refine ⟨p, _, rfl, Option.some.inj hparsed, fun h => ?_⟩
    have hblank : ¬ Compact [' ', '2', ']'] [] := by
      rintro (_ | ⟨hc, -, -⟩)
      exact absurd hc (by decide)
    rcases h with _ | ⟨-, -, _ | ⟨-, -, _ | ⟨-, -, h⟩⟩⟩
    exact hblank h

end Parser
end TypeDefinition
end SchemaCompiler

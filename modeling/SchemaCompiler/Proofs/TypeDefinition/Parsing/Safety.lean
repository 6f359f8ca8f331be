import SchemaCompiler.Proofs.TypeDefinition.Parsing.Exactness

/-!
# Parsers run safely

Whatever a text is, the parser of a type definition comes to an end on it: it finds a value and stands
behind the text, or it complains about a place of the text, or its calls go too deep. There is no
other fault, so that no variable is read before it is set and no loop goes on for ever. And wherever
the program reads the text on the way, it reads at a place that is a variable or a number, and that is
not behind the end of the text.

Places are binary64 numbers, which are exact for texts of up to `2 ^ 53` bytes.
-/
namespace SchemaCompiler.TypeDefinition.Parser

open Machine

/-- The run of the parser of a type definition ends with a value, with a complaint or because calls
go too deep, and reads only at places of the text. -/
theorem parse_safe {options : Options} {definition : Json} {schema : Schema}
    (hread : Schema.ofJson definition = .ok schema) :
    ∃ p, compile options definition = .ok p ∧ ∀ text : String, text.utf8ByteSize ≤ 2 ^ 53 →
      ((∃ v, p.Finds text v) ∨ p.Rejects text ∨ p.TooDeep text) ∧
      ∀ x u, callLooks p.program roundLimit p.program.maxDepth p.entry [.string text] ⟨[], []⟩ x u →
        ∀ e, x.place? = some e → Marks text u e := by
  obtain ⟨p, hp, hreplies⟩ : ∃ p, compile options definition = .ok p ∧ _ :=
    exists_replies hread (Schema.wellFormed_of_ofJson hread)
  refine ⟨p, hp, fun text hsize => ?_⟩
  have hends := hreplies text hsize
  refine ⟨?_, hends.1⟩
  generalize schema.scan options.whitespace options.maxDepth text.toList = o at hends
  cases o with
  | none => exact .inr (ends_of_replies hends)
  | some y => exact .inl ⟨y.1, ends_of_replies hends⟩

/-- A size that is too large is complained about, in front of its digits. -/
theorem parse_safe_large : ∃ p, compile ⟨false, 3⟩ sizesDefinition = .ok p ∧
    p.Rejects "\x7b\"size\":300\x7d" ∧ ∃ message, p.parse "\x7b\"size\":300\x7d" = .failed message 8 := by
  obtain ⟨p, hp, hsafe⟩ : ∃ p, compile ⟨false, 3⟩ sizesDefinition = .ok p ∧ _ :=
    parse_safe (show Schema.ofJson sizesDefinition = .ok sizesSchema from rfl)
  have hfailed : (compile ⟨false, 3⟩ sizesDefinition).toOption.map
      (·.parse "\x7b\"size\":300\x7d") = some (.failed "expected uint8" 8) := by decide +kernel
  rw [hp] at hfailed
  have hplace : p.parse _ = _ := Option.some.inj hfailed
  obtain ⟨⟨v, -, hfinds⟩ | hrejects | ⟨limit, -, hdeep⟩, -⟩ :=
    hsafe "\x7b\"size\":300\x7d" (by decide)
  · rw [hplace] at hfinds
    cases hfinds
  · exact ⟨p, hp, hrejects, _, hplace⟩
  · rw [hplace] at hdeep
    exact absurd (ParseOutcome.failed.inj hdeep).2 (by decide)

end SchemaCompiler.TypeDefinition.Parser

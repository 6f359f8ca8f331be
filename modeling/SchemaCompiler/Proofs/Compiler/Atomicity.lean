import SchemaCompiler.Proofs.Compiler.Consistency

/-!
# Requests that fail

A request that fails while documents are taken up or schemas are compiled is as good as never made:
values, slots, functions, places, documents and what was compiled are those of before. The names and
numbers given on the way stay given. One thing more may stay: an anchor that an outer document may
override is remembered by its URI alone, and where that URI was known already, the failure does not
forget it.
-/
namespace SchemaCompiler.Compiler

variable {α : Type} {e : CompileError}

/-- The error that a request fails with while a document is taken up or a schema is compiled. What
comes after that, linking, changes nothing. -/
def setback? (c : Compiler) : Request → Option CompileError
  | .keyword d => errorOf (c.addKeyword d).1
  | .document schema uri => errorOf (c.addSchema schema uri).1
  | .schema schema => errorOf (c.compileEntry schema).1
  | .stored schema => errorOf (c.compileEntry schema).1
  | .uri uri => errorOf (undoing c.checkpoint (c.compileUri uri)).1
  | .format _ _ => none
  | .loading _ _ => none

theorem errorOf_eq_some {x : Except CompileError α} (h : errorOf x = some e) : x = .error e := by
  cases x with
  | error e' =>
    cases h
    rfl
  | ok a => cases h

variable {P : Descriptor → Prop} {c : Compiler}

theorem Restores.refl (c : Compiler) : Restores c c :=
  ⟨c.assembly.given, c.anonymous, [], le_rfl, Nat.le_refl _, nofun, by
    simp [marked, assembly, Assembly.given]⟩

theorem Settles.restores {Q : α → Compiler → Prop} {r : Result α}
    (h : Settles P c Q r) (he : r.1 = .error e) : Restores c r.2 := by
  rcases r with ⟨e' | a, c'⟩
  · exact h.1
  · cases he

theorem InOrder.restores_of_setback (hP : Admits P) (h : c.InOrder P) {request : Request}
    (he : c.setback? request = some e) :
    c.error? request = some e ∧ Restores c (c.serve request).2 := by
  cases request with
  | keyword d =>
    refine ⟨he, ?_⟩
    have herror := errorOf_eq_some he
    simp only [Compiler.serve]
    unfold Compiler.addKeyword at herror ⊢
    split at herror
    · cases herror
    · exact .refl c
  | format name f => cases he
  | document schema uri => exact ⟨he, (h.addSchema hP schema uri).restores (errorOf_eq_some he)⟩
  | schema schema =>
    have herror := errorOf_eq_some he
    have hrestores := (h.compileEntry hP schema).restores herror
    simp only [Compiler.serve, error?, Compiler.compile]
    generalize c.compileEntry schema = r at herror hrestores
    obtain ⟨result, c'⟩ := r
    cases herror
    exact ⟨rfl, hrestores⟩
  | uri uri =>
    have herror := errorOf_eq_some he
    have hrestores := (h.undoing_compileUri hP uri).restores herror
    simp only [Compiler.serve, error?, Compiler.getSchema]
    generalize undoing c.checkpoint _ = r at herror hrestores
    obtain ⟨result, c'⟩ := r
    cases herror
    exact ⟨rfl, hrestores⟩
  | stored schema =>
    have herror := errorOf_eq_some he
    have hrestores := (h.compileEntry hP schema).restores herror
    simp only [Compiler.serve, error?, Compiler.compileStored]
    generalize c.compileEntry schema = r at herror hrestores
    obtain ⟨result, c'⟩ := r
    cases herror
    exact ⟨rfl, hrestores⟩
  | loading store schema => cases he

/-- Whatever has been asked of a compiler: when a request fails while a document is taken up or a
schema is compiled, the compiler is afterwards what it was, but for the counts, which only grow, and
for anchors at URIs that were known before. -/
theorem failed_request_restores (o : Options) (requests : List Request)
    (hr : ∀ r ∈ requests, r.Lawful) (request : Request) (e : CompileError)
    (he : (after o requests).setback? request = some e) :
    (after o requests).error? request = some e ∧
      Restores (after o requests) ((after o requests).serve request).2 :=
  (inOrder_after admits_isPlain o fun r hmem => (hr r hmem).within).restores_of_setback
    admits_isPlain he

/-- Something that is no schema is not taken up. -/
theorem failed_request_restores_of_null :
    let requests : List Request := [.document (.bool true) (some "x:a")]
    ∃ e, (after .standard requests).error? (.document .null none) = some e ∧
      Restores (after .standard requests)
        ((after .standard requests).serve (.document .null none)).2 := by
  intro requests
  have hsome : ((after .standard requests).setback? (.document .null none)).isSome = true := by
    decide +kernel
  obtain ⟨e, he⟩ := Option.isSome_iff_exists.1 hsome
  exact ⟨e, failed_request_restores .standard requests (by simp [requests, Request.Lawful]) _ e he⟩

/-- A document that declares an anchor of a known URI open to outer documents, and another anchor
twice, is not taken up, but the anchor stays open. -/
theorem anchor_open_after_failure :
    let requests : List Request := [.document (.object [("$id", .string "x:a"),
      ("$anchor", .string "x")]) none]
    let document : Json := .object [("$id", .string "x:a"),
      ("$dynamicAnchor", .string "x"),
      ("$defs", .object [("1", .object [("$anchor", .string "y")]),
        ("2", .object [("$anchor", .string "y")])])]
    ((after .standard requests).setback? (.document document none)).isSome = true ∧
      (after .standard requests).session.resources.dynamic = [] ∧
      ((after .standard requests).serve (.document document none)).2.session.resources.dynamic =
        ["x:a#x"] := by
  decide +kernel

end SchemaCompiler.Compiler

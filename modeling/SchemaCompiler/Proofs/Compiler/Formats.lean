import SchemaCompiler.Proofs.Compiler.Consistency

/-!
# Formats that are set again

The test of a format is held by the compiler under the name of the format, and what is held stays
held. So the test that schemas ask is the one of the definition that was compiled first: a later
definition changes the types that the format is about, but not its test.
-/
namespace SchemaCompiler

open Assertion

/-- The test that is held for a format. -/
def Assembly.heldTest (a : Assembly Session) (name : String) : Option ValueScope.Entry :=
  a.library.scope.recognise (some (formatStem.text, .key ("format:" ++ name)))

/-- What is asked of a value by the test of a name, where a format says of which values. -/
def Format.asking (o : Occurrence) (name : String) (f : Format) (test : Name) : Plan :=
  let call := Expr.callName test [o.data]
  o.failIf (.all [.any (f.types.map fun t => .typeIs o.data t),
    (if f.isAsync then Expr.await call else call).negate]) [("format", .str name)]

theorem Format.recognition_descriptor (f : Format) (name : String) :
    (f.descriptor name).recognition = some (.key ("format:" ++ name)) := by
  unfold Format.descriptor
  cases f.test <;> rfl

/-- A value that is recognised is the one that is held. Any other is held from then on. -/
theorem ValueScope.value_eq (scope : ValueScope) (stem : Stem) {d : Descriptor} {r : Recognition}
    (hr : d.recognition = some r) :
    match scope.recognise (some (stem.text, r)) with
    | some e => scope.value stem d = (e.name, scope)
    | none => ∃ e, (scope.value stem d).1 = e.name ∧ e.live = d.live ∧
        (scope.value stem d).2.recognise (some (stem.text, r)) = some e := by
  simp only [value, hr, Option.map_some]
  cases he : scope.recognise (some _) with
  | some e => rfl
  | none =>
    have hnone : scope.entries.find? _ = none := he
    simp [recognise, fresh, hnone]

/-- A test that is held is asked whatever the definition says. Where none is held, the one of the
definition is asked, and held from then on. -/
theorem ran_planKnownFormat (o : Occurrence) (name : String) (f : Format) (a : Assembly Session) :
    match a.heldTest name with
    | some e => ran (planKnownFormat o name f) a = (.ok (f.asking o name e.name), a)
    | none => ∃ e b, ran (planKnownFormat o name f) a = (.ok (f.asking o name e.name), b) ∧
        e.live = (f.descriptor name).live ∧ b.heldTest name = some e := by
  have hran : ran (planKnownFormat o name f) a =
      (.ok (f.asking o name (a.library.scope.value formatStem _).1),
        { a with library := { a.library with
          scope := (a.library.scope.value formatStem _).2 } }) := rfl
  have hvalue := a.library.scope.value_eq formatStem (f.recognition_descriptor name)
  rw [hran]
  cases he : a.heldTest name with
  | some e =>
    rw [show a.library.scope.recognise _ = _ from he] at hvalue
    simp only [hvalue]
  | none =>
    rw [show a.library.scope.recognise _ = _ from he] at hvalue
    obtain ⟨e, hname, hlive, hheld⟩ := hvalue
    rw [hname]
    exact ⟨e, _, rfl, hlive, hheld⟩

namespace Compiler

variable {P : Descriptor → Prop} {c : Compiler}

/-- What keeps a compiler in order takes no value back. -/
def InOrder.holding (hP : Admits P) (c : Compiler) : Regime :=
  (InOrder.regime hP).keeping (fun c' => c.assembly.entries <+: c'.assembly.entries)
    (fun h hc => hc.trans h.entries)
    (fun ⟨_, _, _, _, _, _, h⟩ hc => by rw [h]; exact hc) id

theorem InOrder.entries_serve (hP : Admits P) (h : c.InOrder P) (r : Request) :
    c.assembly.entries <+: (c.serve r).2.assembly.entries := by
  have hkept : (InOrder.holding hP c).inv c := ⟨h, List.prefix_refl _⟩
  cases r with
  | keyword d =>
    simp only [Compiler.serve, Compiler.addKeyword]
    split <;> exact List.prefix_refl _
  | format name f => exact List.prefix_refl _
  | document schema uri => exact ((Regime.addSchema hkept schema uri).after hkept).1.2
  | schema schema => exact (Regime.compile hkept schema).1.2
  | uri uri => exact (Regime.getSchema hkept uri).1.2
  | stored schema =>
    have hentry := ((Regime.compileEntry hkept schema).after hkept).1.2
    simp only [Compiler.serve, Compiler.compileStored]
    rcases hc : c.compileEntry schema with ⟨e | ⟨entry, isAsync⟩, c'⟩ <;> rwa [hc] at hentry
  | loading store schema => exact (Regime.loadRounds store schema _ _ hkept).1.2

theorem entries_after (o : Options) {requests later : List Request}
    (hr : ∀ r ∈ requests ++ later, r.Lawful) :
    (after o requests).assembly.entries <+: (after o (requests ++ later)).assembly.entries := by
  induction later generalizing requests with
  | nil => simp
  | cons r later ih =>
    have horder := inOrder_after admits_isPlain o fun r hmem =>
      (hr r (List.mem_append_left _ hmem)).within
    have hstep : after o (requests ++ [r]) = ((after o requests).serve r).2 := by simp [after]
    have hlater := @ih (requests ++ [r]) (by simpa using hr)
    rw [hstep, List.append_assoc] at hlater
    exact (horder.entries_serve admits_isPlain r).trans hlater

/-- Whatever is asked of a compiler, and whatever a definition of a format says.

Where a test is held for the format, it is the one that is asked ever after, wherever what the
compiler holds is held.

Where none is held, the test of the definition is asked, and it is held. -/
theorem format_keeps_first_test (o : Options) (requests later : List Request)
    (hr : ∀ r ∈ requests ++ later, r.Lawful) (a : Assembly Session)
    (ha : (after o (requests ++ later)).assembly.entries <+: a.entries) (occurrence : Occurrence)
    (name : String) (f : Format) :
    (∀ e, (after o requests).assembly.heldTest name = some e → e ∈ a.entries ∧
      ran (planKnownFormat occurrence name f) a = (.ok (f.asking occurrence name e.name), a)) ∧
    (a.heldTest name = none → ∃ e b,
      ran (planKnownFormat occurrence name f) a = (.ok (f.asking occurrence name e.name), b) ∧
        e.live = (f.descriptor name).live ∧ b.heldTest name = some e) := by
  have hplan := ran_planKnownFormat occurrence name f a
  refine ⟨fun e he => ?_, fun h => by rwa [h] at hplan⟩
  have hheld : a.heldTest name = some e :=
    List.IsPrefix.find?_eq_some ((entries_after o hr).trans ha) he
  rw [hheld] at hplan
  exact ⟨List.mem_of_find?_eq_some hheld, hplan⟩

/-- The format of one text. -/
def letter (text : String) : Format := .ofPredicate fun v => decide (v = .string text)

/-- A format that is set again between two schemas. -/
theorem format_keeps_first_test_of_letters :
    let before : List Request :=
      [.format "f" (letter "a"), .schema (.object [("format", .string "f")])]
    let c := after .standard (before ++ [.format "f" (letter "b")])
    ∃ e : ValueScope.Entry, (after .standard before).assembly.heldTest "f" = some e ∧ ∀ occurrence,
      ran (planKnownFormat occurrence "f" (letter "b")) c.assembly =
        (.ok ((letter "b").asking occurrence "f" e.name), c.assembly) := by
  intro before c
  have hsome : ((after .standard before).assembly.heldTest "f").isSome = true := by
    rw [after, new_standard]
    decide +kernel
  obtain ⟨e, he⟩ := Option.isSome_iff_exists.1 hsome
  exact ⟨e, he, fun occurrence => ((format_keeps_first_test .standard before _
    (by simp [before, Request.Lawful]) c.assembly (List.prefix_refl _) occurrence "f" _).1 e he).2⟩

/-- A schema that was not compiled before accepts what the first definition of its format does. -/
theorem format_accepts_by_first_test :
    let c := after .standard [.format "f" (letter "a"), .schema (.object [("format", .string "f")]),
      .format "f" (letter "b")]
    ((c.serve (.schema (.object [("type", .string "string"), ("format", .string "f")]))).1.any
      fun v => v.isValid (.string "a") && !v.isValid (.string "b")) = true := by
  rw [after, new_standard]
  decide +kernel

end Compiler
end SchemaCompiler

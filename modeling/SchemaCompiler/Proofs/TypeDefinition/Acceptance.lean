import SchemaCompiler.Proofs.TypeDefinition.Recognition
import SchemaCompiler.Proofs.TypeDefinition.Transfer

/-!
# The texts that a type definition accepts

References are unfolded in the three ways of looking at a form alike: when a text is read, when a
value as written is taken, and when a value is asked to conform. So what holds between them for forms
holds for type definitions, by induction on the number of calls that a chain may have.
-/
namespace SchemaCompiler.TypeDefinition.Schema

open Json (IsText)

variable {call : String → Json → Option Json} {rest : List Char} {v : Json}

/-! ## Taking values of the forms of names -/

/-- Takes a value as one of the form of a name. `call` does so for forms that have references. -/
def admitRef (definitions : List (String × Form)) (call : String → Json → Option Json)
    (name : String) : Json → Option Json :=
  match Assoc.get? name definitions with
  | none => fun _ => none
  | some form => if form.hasRef then call name else form.accept fun _ _ => none

def admitCall (definitions : List (String × Form)) : Nat → String → Json → Option Json
  | 0, _ => fun _ => none
  | calls + 1, name =>
    match Assoc.get? name definitions with
    | none => fun _ => none
    | some form => form.accept (admitRef definitions (admitCall definitions calls))

section Definitions

variable {ws plain : Bool} {definitions : List (String × Form)}

theorem admitRef_null
    (hcall : ∀ name v, call name .null = some v → v = .null) (name : String) (v : Json)
    (h : admitRef definitions call name .null = some v) : v = .null := by
  cases hform : Assoc.get? name definitions with
  | none => simp [admitRef, hform] at h
  | some form =>
    cases href : form.hasRef with
    | true => exact hcall name v (by simpa [admitRef, hform, href] using h)
    | false =>
      simp only [admitRef, hform, href] at h
      exact Form.admit_null (fun _ _ hnone => by cases hnone) h

theorem admitCall_null (calls : Nat) (name : String) (v : Json)
    (h : admitCall definitions calls name .null = some v) : v = .null := by
  induction calls generalizing name v with
  | zero => cases h
  | succ calls ih =>
    cases hform : Assoc.get? name definitions with
    | none => simp [admitCall, hform] at h
    | some form =>
      simp only [admitCall, hform] at h
      exact Form.admit_null (admitRef_null ih) h

theorem recognizesRefs_none :
    Form.RecognizesRefs ws plain (fun _ => Scan.fails) fun _ _ => none where
  scans _ := .fails
  null _ _ h := by cases h

section Typed

variable (htyped : plain = false → ∀ d ∈ definitions, d.2.isTyped = true)

include htyped

theorem recognizes_ref {callScan : String → Scan Json}
    (hcall : ∀ name, Recognizes ws plain (callScan name) (call name)) (name : String) :
    Recognizes ws plain (scanRef ws definitions callScan name) (admitRef definitions call name) := by
  cases hform : Assoc.get? name definitions with
  | none => simpa only [scanRef, admitRef, hform] using Follows.fails
  | some form =>
    cases href : form.hasRef with
    | true => simpa [scanRef, admitRef, hform, href] using hcall name
    | false =>
      simpa [scanRef, admitRef, hform, href] using
        Form.recognizes recognizesRefs_none form fun hp =>
          htyped hp _ (Assoc.mem_of_get?_eq_some hform)

theorem recognizes_call (calls : Nat) (name : String) :
    Recognizes ws plain (scanCall ws definitions calls name) (admitCall definitions calls name) := by
  induction calls generalizing name with
  | zero => exact .fails
  | succ calls ih =>
    cases hform : Assoc.get? name definitions with
    | none => simpa only [scanCall, admitCall, hform] using Follows.fails
    | some form =>
      simpa only [scanCall, admitCall, hform] using
        Form.recognizes ⟨recognizes_ref htyped ih, admitRef_null (admitCall_null calls)⟩ form
          fun hp => htyped hp _ (Assoc.mem_of_get?_eq_some hform)

end Typed

theorem judges_none : Judges (fun _ => none) fun _ => False where
  sound h := by cases h
  complete _ h := h.elim

theorem judges_ref {known : String → Prop} (hforms : ∀ m ∈ definitions, m.2.WellFormed known) {calls : String → Json → Prop}
    (hcall : ∀ name, Judges (call name) (calls name)) (name : String) :
    Judges (admitRef definitions call name) (RefConforms Shallow definitions calls name) := by
  cases hform : Assoc.get? name definitions with
  | none =>
    have hrefuse : RefConforms Shallow definitions calls name = fun _ => False := by
      funext v
      simp [RefConforms, hform]
    rw [hrefuse]
    simpa only [admitRef, hform] using judges_none
  | some form =>
    have hmem := hforms _ (Assoc.mem_of_get?_eq_some hform)
    have hunfold : RefConforms Shallow definitions calls name =
        if form.hasRef then calls name else form.Conforms Shallow fun _ _ => False := by
      funext v
      simp only [RefConforms, hform, Option.some_inj, exists_eq_left']
      split <;> rfl
    rw [hunfold]
    cases href : form.hasRef with
    | true => simpa [admitRef, hform, href] using hcall name
    | false =>
      simpa [admitRef, hform, href] using
        (Form.judges (fun _ _ => judges_none) form hmem).1

theorem judges_call {known : String → Prop} (hforms : ∀ m ∈ definitions, m.2.WellFormed known)
    (calls : Nat) (name : String) :
    Judges (admitCall definitions calls name) (CallConforms Shallow definitions calls name) := by
  induction calls generalizing name with
  | zero => exact judges_none
  | succ calls ih =>
    cases hform : Assoc.get? name definitions with
    | none =>
      have hrefuse : CallConforms Shallow definitions (calls + 1) name = fun _ => False := by
        simp [CallConforms, hform]
      rw [hrefuse]
      simpa only [admitCall, hform] using judges_none
    | some form =>
      have hunfold : CallConforms Shallow definitions (calls + 1) name =
          form.Conforms Shallow (RefConforms Shallow definitions
            (CallConforms Shallow definitions calls)) := by
        simp [CallConforms, hform]
      rw [hunfold]
      simpa only [admitCall, hform] using (Form.judges (fun name _ => judges_ref hforms ih name) form
        (hforms _ (Assoc.mem_of_get?_eq_some hform))).1

end Definitions

/-! ## Texts -/

variable {schema : Schema} {ws ws' : Bool} {calls : Nat} {cs : List Char}

def accept (schema : Schema) (calls : Nat) : Json → Option Json :=
  schema.root.accept (admitRef schema.definitions (admitCall schema.definitions calls))

theorem judges (h : schema.WellFormed) (calls : Nat) :
    Judges (schema.accept calls) (schema.ConformsWithin Shallow calls) :=
  (Form.judges (fun name _ => judges_ref h.definitions (judges_call h.definitions calls) name)
    schema.root h.root).1

/-- Every value has a form of its own. -/
structure Typed (schema : Schema) : Prop where
  root : schema.root.isTyped = true
  definitions : ∀ d ∈ schema.definitions, d.2.isTyped = true

theorem recognizes (schema : Schema) (ws plain : Bool) (calls : Nat)
    (htyped : plain = false → schema.Typed) :
    Recognizes ws plain (schema.root.scan ws
      (scanRef ws schema.definitions (scanCall ws schema.definitions calls))) (schema.accept calls) :=
  have hdefinitions := fun hp => (htyped hp).definitions
  Form.recognizes ⟨recognizes_ref hdefinitions (recognizes_call hdefinitions calls),
    admitRef_null (admitCall_null calls)⟩ _ fun hp => (htyped hp).root

theorem scan_eq_some : schema.scan ws (calls + 1) cs = some (v, rest) ↔ rest = [] ∧ ∃ stop,
      schema.root.scan ws (scanRef ws schema.definitions (scanCall ws schema.definitions calls)) cs =
        some (v, stop) ∧ Scan.behind ws stop = [] := by
  simp only [scan, Scan.bind_apply, Scan.skip_apply, Scan.get_apply, Scan.check_apply,
    Option.bind_some, Option.bind_eq_some_iff]
  constructor
  · rintro ⟨⟨w, stop⟩, hw, _, hcheck, hend⟩
    cases hend
    split at hcheck
    · rename_i hempty
      rw [List.isEmpty_iff] at hempty
      cases hcheck
      exact ⟨hempty, stop, hw, hempty⟩
    · cases hcheck
  · rintro ⟨rfl, stop, hw, hempty⟩
    exact ⟨(v, stop), hw, ((), []), by simp [hempty], rfl⟩

/-- What is read is the text of a value that is taken. Where blanks are not allowed and every value
has a form of its own, there are none. -/
theorem isText_of_scan (plain : Bool) (htyped : plain = false → schema.Typed) (hscan : schema.scan ws (calls + 1) cs = some (v, rest)) :
    ∃ u, IsText (ws || plain) cs u ∧ schema.accept calls u = some v := by
  obtain ⟨-, stop, hroot, hempty⟩ := scan_eq_some.1 hscan
  obtain ⟨u, ⟨start, hb, hu⟩, haccept⟩ := (recognizes schema ws plain calls htyped).sound hroot
  have hend := Scan.blanks_behind ws plain stop
  rw [hempty] at hend
  exact ⟨u, ⟨start, stop, hb, hu, hend⟩, haccept⟩

theorem scan_of_isText (hws : ws' = true → ws = true) (hlength : cs.length < Machine.roundLimit)
    {u v : Json} (htext : IsText ws' cs u) (haccept : schema.accept calls u = some v) :
    schema.scan ws (calls + 1) cs = some (v, []) := by
  obtain ⟨start, stop, hb, hspells, hend⟩ := htext
  have hroot := (recognizes schema ws true calls nofun).complete hws ⟨start, hb, hspells⟩
    (hend.tokenEnd Json.tokenEnd_nil) hlength haccept
  exact scan_eq_some.2 ⟨rfl, stop, hroot, Scan.behind_eq hws hend Json.noBlank_nil⟩

end SchemaCompiler.TypeDefinition.Schema

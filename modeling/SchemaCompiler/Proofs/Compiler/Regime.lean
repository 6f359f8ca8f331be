import SchemaCompiler.Compiler.Basic

/-!
# What requests keep up

A request registers documents and compiles what a URI leads to, and both are undone when it fails. So
what these two steps keep up is kept up by every request. A `Regime` says of the steps what holds
between requests and in the middle of one, and what is left when one is undone.
-/
namespace SchemaCompiler.Compiler

/-- Something that the steps of a compiler keep up. -/
structure Regime where
  /-- What holds between two requests. -/
  inv : Compiler → Prop
  /-- What a compiler becomes while it is at work, be it in vain. -/
  work : Compiler → Compiler → Prop
  /-- What it becomes when its work is undone. -/
  undone : Compiler → Compiler → Prop
  /-- The errors that there may be. -/
  fails : CompileError → Prop
  /-- What holds of an entry function when it has been compiled. -/
  enters : Name × Bool → Compiler → Prop
  /-- What holds of the outcome of linking. -/
  gives : Except CompileError Validator → Compiler → Prop
  trans : ∀ {c c' c''}, work c c' → work c' c'' → work c c''
  undo : ∀ {c c'}, inv c → work c c' → undone c (rollback c.checkpoint c')
  restores : ∀ {c c'}, inv c → undone c c' → inv c'
  known : ∀ {c text entry}, inv c → Assoc.get? text c.compiled = some entry → enters entry c
  remember : ∀ {c entry} text, inv c → enters entry c →
    inv { c with compiled := Assoc.insert text entry c.compiled } ∧
      enters entry { c with compiled := Assoc.insert text entry c.compiled }
  register : ∀ {c} schema uri, inv c → inv (c.register schema uri).2 ∧
    work c (c.register schema uri).2 ∧ ∀ e, (c.register schema uri).1 = .error e → fails e
  compileUri : ∀ {c} uri, inv c →
    match c.compileUri uri with
    | (.ok entry, c') => inv c' ∧ work c c' ∧ enters entry c'
    | (.error e, c') => work c c' ∧ fails e
  link : ∀ {c entry isAsync}, inv c → enters (entry, isAsync) c → gives (c.link entry isAsync) c
  error : ∀ {c e}, fails e → gives (.error e) c
  unresolved : ∀ missing, fails (.unresolvedReference missing)

namespace Regime

/-- Along with what is kept up, something that no step takes back. -/
def keeping (R : Regime) (K : Compiler → Prop) (hwork : ∀ {c c'}, R.work c c' → K c → K c')
    (hundone : ∀ {c c'}, R.undone c c' → K c → K c')
    (hcompiled : ∀ {c compiled}, K c → K { c with compiled := compiled }) : Regime :=
  { R with
    inv := fun c => R.inv c ∧ K c
    undo := fun h => R.undo h.1
    restores := fun h hu => ⟨R.restores h.1 hu, hundone hu h.2⟩
    known := fun h => R.known h.1
    remember := fun text h he =>
      (R.remember text h.1 he).imp_left fun hr => ⟨hr, hcompiled h.2⟩
    register := fun schema uri h =>
      have hr := R.register schema uri h.1
      ⟨⟨hr.1, hwork hr.2.1 h.2⟩, hr.2⟩
    compileUri := fun {c} uri h => by
      have hu := R.compileUri uri h.1
      rcases hr : c.compileUri uri with ⟨e | entry, c'⟩ <;> rw [hr] at hu
      · exact hu
      · exact ⟨⟨hu.1, hwork hu.2.1 h.2⟩, hu.2⟩
    link := fun h => R.link h.1 }

variable {R : Regime} {α : Type} {c : Compiler} {Q : α → Compiler → Prop}

/-- An operation that leaves what is kept up, or fails and is undone. -/
def Settles (R : Regime) (c : Compiler) (Q : α → Compiler → Prop) : Result α → Prop
  | (.ok a, c') => R.inv c' ∧ Q a c'
  | (.error e, c') => R.undone c c' ∧ R.fails e

theorem Settles.after {r : Result α} (hr : R.Settles c Q r) (h : R.inv c) :
    R.inv r.2 ∧ ∀ e, r.1 = .error e → R.fails e := by
  rcases r with ⟨e | a, c'⟩
  · exact ⟨R.restores h hr.1, fun _ he => Except.error.inj he ▸ hr.2⟩
  · exact ⟨hr.1, nofun⟩

section

variable (h : R.inv c)

include h

theorem settles_undoing {r : Result α} (hr : match r with
      | (.ok a, c') => R.inv c' ∧ Q a c'
      | (.error e, c') => R.work c c' ∧ R.fails e) : R.Settles c Q (undoing c.checkpoint r) := by
  rcases r with ⟨e | a, c'⟩
  · exact ⟨R.undo h hr.1, hr.2⟩
  · exact hr

variable (schema : Json)

theorem addSchema (uri : Option String) :
    R.Settles c (fun _ _ => True) (c.addSchema schema uri) := by
  have hregister := R.register schema uri h
  refine settles_undoing h ?_
  rcases hr : c.register schema uri with ⟨e | document, c'⟩ <;> rw [hr] at hregister
  · exact ⟨hregister.2.1, hregister.2.2 e rfl⟩
  · exact ⟨hregister.1, trivial⟩

theorem undoing_compileUri (uri : String) :
    R.Settles c R.enters (undoing c.checkpoint (c.compileUri uri)) := by
  have huri := R.compileUri uri h
  refine settles_undoing h ?_
  rcases hr : c.compileUri uri with ⟨e | entry, c'⟩ <;> rw [hr] at huri
  · exact huri
  · exact ⟨huri.1, huri.2.2⟩

theorem compileEntry : R.Settles c R.enters (c.compileEntry schema) := by
  unfold Compiler.compileEntry
  dsimp only
  cases hknown : Assoc.get? schema.render c.compiled with
  | some known => exact ⟨h, R.known h hknown⟩
  | none =>
    have hregister := R.register schema none h
    rcases hr : c.register schema none with ⟨e | document, after⟩ <;> rw [hr] at hregister
    · exact ⟨R.undo h hregister.2.1, hregister.2.2 e rfl⟩
    · have huri := R.compileUri document hregister.1
      dsimp only
      rcases hu : after.compileUri document with ⟨e | entry, c'⟩ <;> rw [hu] at huri
      · exact ⟨R.undo h (R.trans hregister.2.1 huri.1), huri.2⟩
      · exact R.remember _ huri.1 huri.2.2

theorem linked {r : Result (Name × Bool)} (hr : R.Settles c R.enters r) :
    R.inv (Compiler.linked r).2 ∧ R.gives (Compiler.linked r).1 (Compiler.linked r).2 := by
  have hafter := (hr.after h).1
  rcases r with ⟨e | ⟨entry, isAsync⟩, c'⟩
  · exact ⟨hafter, R.error hr.2⟩
  · exact ⟨hafter, R.link hr.1 hr.2⟩

theorem compile : R.inv (c.compile schema).2 ∧ R.gives (c.compile schema).1 (c.compile schema).2 :=
  linked h (compileEntry h schema)

theorem getSchema (uri : String) :
    R.inv (c.getSchema uri).2 ∧ R.gives (c.getSchema uri).1 (c.getSchema uri).2 :=
  linked h (undoing_compileUri h uri)

end

theorem loadRounds (store : List (String × Json)) (schema : Json) (rounds : Nat)
    (asked : List String) (h : R.inv c) :
    R.inv (loadRounds store schema rounds asked c).1.2 ∧
      R.gives (loadRounds store schema rounds asked c).1.1
        (loadRounds store schema rounds asked c).1.2 := by
  induction rounds generalizing asked c with
  | zero => exact compile h schema
  | succ rounds ih =>
    have hcompile := compile h schema
    unfold Compiler.loadRounds
    split
    · rename_i missing c' hc
      rw [hc] at hcompile
      split
      · exact ⟨hcompile.1, R.error (R.unresolved missing)⟩
      · split
        · exact hcompile
        · rename_i document _
          have hadd := (addSchema hcompile.1 document (some missing.document)).after hcompile.1
          split <;> rename_i hadded <;> rw [hadded] at hadd
          · exact ⟨hadd.1, R.error (hadd.2 _ rfl)⟩
          · exact ih _ hadd.1
    · exact hcompile

end Regime
end SchemaCompiler.Compiler

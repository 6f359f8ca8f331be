import SchemaCompiler.Proofs.Machine.Quiet

/-!
# Computations with more values

An expression that has a value has the same one in a program with more values, and so have quiet
statements. Neither of them needs room for nested calls.
-/
namespace SchemaCompiler.Machine

/-- Where a computation comes to something, another one comes to the same; and it does not stop for
want of room for nested calls. -/
def Lifts {α : Type} (x y : Exec α) : Prop :=
  ∀ s, match ran x s with
    | (.ok a, t) => ran y s = (.ok a, t)
    | (.error e, _) => ¬ e.IsDeep

namespace Lifts

variable {α β : Type} {x y : Exec α} {f g : α → Exec β}

theorem pure (a : α) : Lifts (Pure.pure a) (Pure.pure a) := fun _ => rfl

theorem stop {e : Abort} (h : ¬ e.IsDeep) (y : Exec α) : Lifts (MonadExcept.throw e) y := fun _ => h

theorem bind (hx : Lifts x y) (hf : ∀ a, Lifts (f a) (g a)) : Lifts (x >>= f) (y >>= g) := by
  intro s
  have hs := hx s
  rw [ran_bind]
  rcases hr : ran x s with ⟨e | a, t⟩
  · rw [hr] at hs
    exact hs
  · rw [hr] at hs
    have ht := hf a t
    rw [follow_ok]
    rcases hr' : ran (f a) t with ⟨e | b, u⟩
    · rw [hr'] at ht
      exact ht
    · rw [hr'] at ht
      rw [ran_bind, hs, follow_ok, ht]

theorem related : Related fun _ => Lifts := ⟨pure, fun h => stop (by cases h <;> exact id) _, bind⟩

theorem setLocal (n : Name) (v : Json) : Lifts (Machine.setLocal n v) (Machine.setLocal n v) :=
  fun _ => rfl

end Lifts

variable {values values' : List (Name × LiveValue)}

def Sub (values values' : List (Name × LiveValue)) : Prop :=
  ∀ n v, Assoc.get? n values = some v → Assoc.get? n values' = some v

theorem Sub.refl (values : List (Name × LiveValue)) : Sub values values := fun _ _ => id

variable (h : Sub values values')

include h

theorem lifts_readName (n : Name) :
    Lifts (readName (silentEnv values) n) (readName (silentEnv values') n) := by
  intro s
  rw [ran_readName, ran_readName]
  cases Assoc.get? n s.locals with
  | some v => rfl
  | none =>
    cases hv : (silentEnv values).program.value? n with
    | none => exact id
    | some v =>
      rw [show (silentEnv values').program.value? n = some v from h n v hv]
      cases v with
      | json v => rfl
      | _ => exact id

theorem lifts_callName (n : Name) (args : List Json) :
    Lifts (callName (silentEnv values) n args) (callName (silentEnv values') n args) := by
  cases hv : (silentEnv values).program.value? n with
  | none =>
    rw [callName, hv]
    exact .stop id _
  | some v => exact Lifts.related.callName rfl (hv.trans (h n v hv).symm) fun _ _ => .stop id _

theorem lifts_eval (e : Expr) : Lifts (eval (silentEnv values) e) (eval (silentEnv values') e) :=
  Lifts.related.eval
    ⟨fun _ _ => trivial, fun _ => lifts_readName h _, fun _ _ => lifts_callName h _ _,
      fun _ _ => rfl⟩ trivial

theorem lifts_evalItems (items : List Expr) :
    Lifts (evalItems (silentEnv values) items) (evalItems (silentEnv values') items) :=
  Lifts.related.evalItems fun e _ => lifts_eval h e

theorem lifts_execBlock {R : Name → Prop} (stmts : List Stmt) (hq : Stmt.QuietBlock R stmts) :
    Lifts (execBlock (silentEnv values) stmts) (execBlock (silentEnv values') stmts) :=
  Lifts.related.linked.execBlock (fun _ e _ => lifts_eval h e) stmts hq fun n _ _ => .setLocal n

end SchemaCompiler.Machine

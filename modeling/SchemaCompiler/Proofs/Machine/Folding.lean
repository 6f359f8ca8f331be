import SchemaCompiler.Proofs.Machine.Related
import SchemaCompiler.Proofs.Machine.Run

/-!
# Folding

Conjunctions and disjunctions are folded in the same way, with `true` and `false` swapped; here both
are told at once, with `true` for conjunctions. Where no operand calls anything, folding leaves the
truth of a condition as it is, however the constructors are nested.
-/
namespace SchemaCompiler

namespace Expr

/-- What is left of the operands of a joint. -/
inductive Left (k : Bool) : List Expr → Option (List Expr) → Prop
  | nil : Left k [] (some [])
  | drop {rest o} (h : Left k rest o) : Left k (bool k :: rest) o
  | stop {rest} : Left k (bool (!k) :: rest) none
  | splice {rest o} (inner : List Expr) (h : Left k rest o) :
      Left k (joint k inner :: rest) (o.map (inner ++ ·))
  | keep {rest o} (e : Expr) (h : Left k rest o) : Left k (e :: rest) (o.map (e :: ·))

theorem exists_left (k : Bool) (items : List Expr) :
    ∃ o, Left k items o ∧ folded k items = rejoined k o := by
  refine ⟨left k items, ?_, rfl⟩
  fun_induction left k items with
  | case2 _ _ ih => exact ih.drop
  | case3 k b rest hne =>
    obtain rfl : b = !k := Bool.eq_not.2 hne
    exact .stop
  | case4 _ _ ih | case5 _ _ ih => exact .splice _ ih
  | case6 _ _ _ _ _ _ ih => exact .keep _ ih
  | _ => exact .nil

/-- Nothing is called, whatever the expression comes to. -/
inductive CallFree : Expr → Prop
  | intro {e : Expr} (here : ∀ callee args, e ≠ call callee args)
      (parts : ∀ p ∈ e.parts, CallFree p) : CallFree e

/-- A condition, and what folding constructors make of it when they are used throughout. -/
inductive Folds : Expr → Expr → Prop
  | operand {e : Expr} (h : e.CallFree) : Folds e e
  | negate {e f : Expr} (h : Folds e f) : Folds (.not e) f.negate
  | joint (k : Bool) {items : List (Expr × Expr)} (h : ∀ p ∈ items, Folds p.1 p.2) :
      Folds (joint k (items.map Prod.fst)) (folded k (items.map Prod.snd))

end Expr

namespace Machine

/-- Whether a condition holds. -/
def test (env : Env) (e : Expr) : Exec Bool := do return truthy (← eval env e)

variable {env : Env} {e f : Expr} {k : Bool} {items : List Expr} {o : Option (List Expr)}

theorem test_not (env : Env) (e : Expr) : test env (.not e) = do return !(← test env e) := by
  simp [test, eval, truthy]

theorem test_ne (env : Env) (a b : Expr) :
    test env (.binary .ne a b) = do return !(← test env (.binary .eq a b)) := by
  simp [test, eval, truthy, checked, binary]

theorem test_negate (env : Env) (e : Expr) :
    test env e.negate = do return !(← test env e) := by
  unfold Expr.negate
  split
  · simp [test, Expr.bool, eval, truthy]
  · simp [test_not]
  · exact test_ne ..
  · simp [test_ne]
  · exact test_not ..

theorem test_bool (b : Bool) : test env (.bool b) = pure b := rfl

theorem test_joint (k : Bool) (items : List Expr) :
    test env (.joint k items) = evalJoint env k items := by
  cases k <;> simp [test, Expr.joint, eval, truthy]

theorem evalJoint_nil (env : Env) (k : Bool) : evalJoint env k [] = pure k := rfl

theorem evalJoint_cons (k : Bool) (e : Expr) (rest : List Expr) :
    evalJoint env k (e :: rest) = do
      if (← test env e) = k then evalJoint env k rest else return !k := by
  rw [test, bind_assoc]
  rfl

theorem evalJoint_append (k : Bool) (first rest : List Expr) :
    evalJoint env k (first ++ rest) = do
      if (← evalJoint env k first) = k then evalJoint env k rest else return !k := by
  induction first with
  | nil => simp [evalJoint_nil]
  | cons e first ih =>
    rw [List.cons_append, evalJoint_cons, evalJoint_cons, bind_assoc, ih]
    refine bind_congr fun b => ?_
    split <;> simp

theorem evalJoint_left (h : Expr.Left k items o) :
    ∀ rest, o = some rest → evalJoint env k rest = evalJoint env k items := by
  induction h with
  | nil => rintro _ ⟨⟩; rfl
  | drop h ih =>
    intro rest hrest
    simp [ih rest hrest, evalJoint_cons, test_bool]
  | stop => nofun
  | splice inner h ih | keep e h ih =>
    intro rest hrest
    obtain ⟨tail, ht, rfl⟩ := Option.map_eq_some_iff.1 hrest
    simp only [evalJoint_append, evalJoint_cons, ih tail ht, test_joint]

theorem test_rejoined (rest : List Expr) :
    test env (.rejoined k (some rest)) = evalJoint env k rest := by
  match rest with
  | [] => rfl
  | [e] =>
    rw [evalJoint_cons]
    refine (bind_pure _).symm.trans (bind_congr fun b => ?_)
    cases b <;> cases k <;> rfl
  | e :: e' :: es => exact test_joint k _

/-! ## Computations that leave the state as it is -/

/-- A computation leaves the state as it is, and comes to what another one comes to, if that comes to
something. -/
def Refines {α : Type} (x y : Exec α) : Prop :=
  ∀ s, (ran y s).2 = s ∧ ∀ a t, ran x s = (.ok a, t) → ran y s = (.ok a, t)

abbrev Still {α : Type} (x : Exec α) : Prop := Refines x x

namespace Refines

variable {α β : Type} {x y z : Exec α} {f g : α → Exec β}

theorem pure (a : α) : Still (Pure.pure a) := fun _ => ⟨rfl, fun _ _ h => h⟩

theorem throw (a : Abort) : Still (MonadExcept.throw a : Exec α) := fun _ => ⟨rfl, fun _ _ h => h⟩

theorem trans (hx : Refines x y) (hy : Refines y z) : Refines x z :=
  fun s => ⟨(hy s).1, fun a t h => (hy s).2 a t ((hx s).2 a t h)⟩

theorem still (h : Refines x y) : Still y := fun s => ⟨(h s).1, fun _ _ h => h⟩

theorem bind (hx : Refines x y) (hf : ∀ a, Refines (f a) (g a)) : Refines (x >>= f) (y >>= g) := by
  intro s
  obtain ⟨hs, hrun⟩ := hx s
  rw [ran_bind, ran_bind]
  constructor
  · rcases hy : ran y s with ⟨_ | a, u⟩ <;> rw [hy] at hs
    · exact hs
    · exact ((hf a u).1).trans hs
  · intro b t h
    rcases hx : ran x s with ⟨_ | a, u⟩ <;> rw [hx] at h
    · cases h
    · rw [hrun a u hx]
      exact (hf a u).2 b t h

theorem bind_left {z : Exec β} (hx : Still x) (hz : Still z) (hf : ∀ a, Refines (f a) z) :
    Refines (x >>= f) z := by
  refine fun s => ⟨(hz s).1, fun b t h => ?_⟩
  have hs := (hx s).1
  rw [ran_bind] at h
  rcases hr : ran x s with ⟨_ | a, u⟩ <;> rw [hr] at h hs <;> cases hs
  · cases h
  · exact (hf a _).2 b t h

theorem related : Related fun _ x y => Refines x y := ⟨pure, fun _ => throw _, bind⟩

end Refines

theorem still_readName (env : Env) (n : Name) : Still (readName env n) := by
  refine .bind (fun _ => ⟨rfl, fun _ _ h => h⟩) fun s => ?_
  repeat' split
  all_goals first | exact .pure _ | exact .throw _

theorem still_of_callFree (h : e.CallFree) : Still (eval env e) := by
  refine Refines.related.eval ⟨?_, fun _ => still_readName _ _, ?_, fun _ _ => ⟨rfl, fun _ _ h => h⟩⟩ h
  · rintro e p ⟨-, hparts⟩ hp
    exact hparts p hp
  · rintro n args vs ⟨hcall, -⟩
    exact absurd rfl (hcall _ _)

/-! ## Folding -/

theorem refines_evalJoint (items : List (Expr × Expr))
    (h : ∀ p ∈ items, Refines (test env p.1) (test env p.2)) :
    Refines (evalJoint env k (items.map Prod.fst)) (evalJoint env k (items.map Prod.snd)) := by
  induction items with
  | nil => cases k <;> exact .pure _
  | cons p rest ih =>
    rw [List.map_cons, List.map_cons, evalJoint_cons, evalJoint_cons]
    refine (h p (by simp)).bind fun b => ?_
    split
    · exact ih fun q hq => h q (by simp [hq])
    · exact .pure _

theorem refines_of_left (h : Expr.Left k items o) (hstill : ∀ e ∈ items, Still (test env e)) :
    o = none → Refines (evalJoint env k items) (pure !k) := by
  induction h with
  | nil => nofun
  | stop =>
    simpa [evalJoint_cons, test_bool] using Refines.pure !k
  | drop h ih | splice _ h ih | keep _ h ih =>
    intro ho
    rw [evalJoint_cons]
    refine .bind_left (hstill _ (by simp)) (.pure _) fun b => ?_
    split
    · exact ih (fun e he => hstill e (by simp [he])) (by simpa using ho)
    · exact .pure _

theorem refines_folded (h : ∀ e ∈ items, Still (test env e)) :
    Refines (evalJoint env k items) (test env (.folded k items)) := by
  obtain ⟨o, hleft, heq⟩ := Expr.exists_left k items
  rw [heq]
  cases o with
  | none => exact refines_of_left hleft h rfl
  | some rest =>
    rw [test_rejoined, evalJoint_left hleft rest rfl]
    have hsame := refines_evalJoint (k := k) (items.map fun e => (e, e)) (by simpa using h)
    simpa [Function.comp_def] using hsame

theorem refines_of_folds (h : Expr.Folds e f) : Refines (test env e) (test env f) := by
  induction h with
  | operand h => exact (still_of_callFree h).bind fun _ => .pure _
  | negate _ ih =>
    rw [test_not, test_negate]
    exact ih.bind fun _ => .pure _
  | joint k _ ih =>
    rw [test_joint]
    refine (refines_evalJoint _ ih).trans (refines_folded fun f hf => ?_)
    obtain ⟨p, hp, rfl⟩ := List.mem_map.1 hf
    exact (ih p hp).still

theorem eval_plus (env : Env) (a b : Expr) : eval env (a.plus b) = eval env (.binary .add a b) := by
  unfold Expr.plus
  split
  · rfl
  · simp [eval, Expr.str, binary, checked, Json.isString, concatText, String.append_assoc]
  · rfl

/-- Folding does not change what a program does: a folded sum comes to what the sum comes to, and a
folded condition holds where the condition itself comes to hold, if nothing in it is called. -/
theorem folding_keeps_meaning (env : Env) (s : State) :
    (∀ a b, ran (eval env (a.plus b)) s = ran (eval env (.binary .add a b)) s) ∧
    ∀ plain folded, Expr.Folds plain folded → ∀ v t, ran (eval env plain) s = (.ok v, t) →
      ∃ w, ran (eval env folded) s = (.ok w, t) ∧ truthy w = truthy v := by
  refine ⟨fun a b => by rw [eval_plus], fun plain folded h v t hrun => ?_⟩
  have hplain : ran (test env plain) s = (.ok (truthy v), t) := by
    rw [test, ran_bind, hrun]
    rfl
  have hfolded := (refines_of_folds h s).2 _ _ hplain
  rw [test, ran_bind] at hfolded
  rcases hw : ran (eval env folded) s with ⟨_ | w, u⟩ <;> rw [hw] at hfolded
  · cases hfolded
  · obtain ⟨hv, rfl⟩ := Prod.mk.inj hfolded
    exact ⟨w, rfl, Except.ok.inj hv⟩

/-- A condition with a constant and two negations in it folds to what is negated. -/
theorem folding_keeps_meaning_nested :
    let plain : Expr := .not (.and [.bool true, .not .errorCount])
    let env : Env := ⟨⟨[], [], 0⟩, fun _ _ => pure .null, 0⟩
    Expr.Folds plain .errorCount ∧ ∃ w, ran (eval env .errorCount) ⟨[.null], []⟩ =
      (.ok w, ⟨[.null], []⟩) ∧ truthy w = true := by
  intro plain env
  have hinner : ∀ p ∈ [(Expr.bool true, Expr.bool true), (.not .errorCount, .not .errorCount)],
      Expr.Folds p.1 p.2 := by
    simp only [List.forall_mem_cons]
    exact ⟨.operand (.intro nofun nofun),
      .negate (e := .errorCount) (f := .errorCount) (.operand (.intro nofun nofun)), nofun⟩
  have hfolds : Expr.Folds plain .errorCount := .negate (.joint true hinner)
  exact ⟨hfolds, (folding_keeps_meaning env _).2 plain _ hfolds (.bool true) _ rfl⟩

end Machine
end SchemaCompiler

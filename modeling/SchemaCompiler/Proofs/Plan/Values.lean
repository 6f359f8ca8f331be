import SchemaCompiler.Proofs.Machine.Folding
import SchemaCompiler.Proofs.Plan.Meaning

/-!
# The values of silent expressions

Where no function can be called, evaluation leaves the state as it is. So the value of an expression
is made from the values of its parts, and here is one equation for each kind of expression.
-/
namespace SchemaCompiler

namespace Machine

theorem Refines.ran_bind_fst {α β : Type} {x : Exec α} (hx : Still x) (f : α → Exec β) (s : State) :
    (ran (x >>= f) s).1 = (ran x s).1 >>= fun a => (ran (f a) s).1 := by
  have hs := (hx s).1
  rw [ran_bind]
  rcases hr : ran x s with ⟨_ | a, t⟩
  · rfl
  · rw [hr] at hs
    obtain rfl : t = s := hs
    rfl

variable {values : List (Name × LiveValue)}

theorem still_callName (n : Name) (args : List Json) :
    Still (callName (silentEnv values) n args) :=
  Refines.related.callName rfl rfl fun _ _ => .throw _

theorem still_eval (e : Expr) : Still (eval (silentEnv values) e) := by
  have hstill : Evaluates _ (silentEnv values) _ fun _ => True :=
    ⟨fun _ _ => trivial, fun _ => still_readName _ _, fun _ _ => still_callName _ _,
      fun _ _ => ⟨rfl, fun _ _ h => h⟩⟩
  exact Refines.related.eval hstill trivial

theorem still_evalItems (items : List Expr) : Still (evalItems (silentEnv values) items) :=
  Refines.related.evalItems fun e _ => still_eval e

end Machine

open Machine

/-! ## Equations -/

namespace Setting

variable (w : Setting) (ρ : Locals)

@[simp] theorem eval_lit (v : Json) : w.eval ρ (.lit v) = .ok v := rfl

@[simp] theorem eval_bool (b : Bool) : w.eval ρ (.bool b) = .ok (.bool b) := rfl

@[simp] theorem eval_str (s : String) : w.eval ρ (.str s) = .ok (.string s) := rfl

@[simp] theorem eval_nat (n : Nat) : w.eval ρ (.nat n) = .ok (Json.ofNat n) := rfl

@[simp] theorem eval_null : w.eval ρ .null = .ok .null := rfl

variable {ρ} in
theorem eval_var_of_get? {n : Name} {v : Json} (h : Assoc.get? n ρ = some v) :
    w.eval ρ (.var n) = .ok v := by
  show (ran (readName (silentEnv w.values) n) ⟨[], ρ⟩).1 = _
  rw [ran_readName]
  simp [h]

theorem eval_index (a b : Expr) : w.eval ρ (.index a b) = do
    let k ← w.eval ρ b
    let x ← w.eval ρ a
    return (lookup x k).getD .null := by
  refine ((still_eval b).ran_bind_fst _ _).trans (bind_congr fun k => ?_)
  exact (still_eval a).ran_bind_fst _ _

theorem eval_has (a b : Expr) : w.eval ρ (.has a b) = do
    let k ← w.eval ρ b
    let x ← w.eval ρ a
    return .bool (lookup x k).isSome := by
  refine ((still_eval b).ran_bind_fst _ _).trans (bind_congr fun k => ?_)
  exact (still_eval a).ran_bind_fst _ _

theorem eval_binary (op : BinaryOp) (a b : Expr) : w.eval ρ (.binary op a b) = (do
    let x ← w.eval ρ a
    let y ← w.eval ρ b
    (binary op x y).mapError fun fault => Abort.fault (.type fault)) := by
  refine ((still_eval a).ran_bind_fst _ _).trans (bind_congr fun x => ?_)
  refine ((still_eval b).ran_bind_fst _ _).trans (bind_congr fun y => ?_)
  cases binary op x y <;> rfl

variable (e : Expr)

@[simp] theorem evalItems_nil : w.evalItems ρ [] = .ok [] := rfl

theorem evalItems_cons (rest : List Expr) : w.evalItems ρ (e :: rest) = do
    let v ← w.eval ρ e
    let vs ← w.evalItems ρ rest
    return v :: vs := by
  refine ((still_eval e).ran_bind_fst _ _).trans (bind_congr fun v => ?_)
  exact (still_evalItems rest).ran_bind_fst _ _

theorem eval_len : w.eval ρ (.len e) = (do
    let v ← w.eval ρ e
    match length? v with
    | some n => .ok (Json.ofNat n)
    | none => .error (Abort.fault (.type (.noLength v)))) := by
  refine ((still_eval e).ran_bind_fst _ _).trans (bind_congr fun v => ?_)
  cases length? v <;> rfl

theorem eval_typeIs (t : JsonType) :
    w.eval ρ (.typeIs e t) = (w.eval ρ e).map fun v => .bool (t.holds v) :=
  (still_eval e).ran_bind_fst _ _

/-! ## Conditions -/

theorem test_typeIs (t : JsonType) : w.test ρ (.typeIs e t) = (w.eval ρ e).map t.holds := by
  rw [test, eval_typeIs]
  cases w.eval ρ e <;> rfl

theorem test_eq : w.test ρ e = (ran (Machine.test (silentEnv w.values) e) ⟨[], ρ⟩).1 := by
  rw [Machine.test, (still_eval e).ran_bind_fst, test, eval, evalIn]
  cases (ran (Machine.eval (silentEnv w.values) e) ⟨[], ρ⟩).1 <;> rfl

theorem test_negate : w.test ρ e.negate = (w.test ρ e).map (!·) := by
  rw [test_eq, test_eq, Machine.test_negate, ran_bind]
  rcases ran _ _ with ⟨_ | b, s⟩ <;> rfl

section Folded

variable {w ρ}

theorem eq_of_test_lit {b c : Bool} (h : w.test ρ (.lit (.bool b)) = .ok c) : c = b :=
  (Except.ok.inj h).symm

theorem test_any {g : Expr → Bool} {items : List Expr} (h : ∀ e ∈ items, w.test ρ e = .ok (g e)) :
    w.test ρ (.any items) = .ok (items.any g) := by
  have hstill (e : Expr) : Still (Machine.test (silentEnv w.values) e) :=
    (still_eval e).bind fun _ => .pure _
  have hrun : ran (evalJoint (silentEnv w.values) false items) ⟨[], ρ⟩ =
      (.ok (items.any g), ⟨[], ρ⟩) := by
    induction items with
    | nil => rfl
    | cons e rest ih =>
      have he : ran (Machine.test _ e) ⟨[], ρ⟩ = (.ok (g e), ⟨[], ρ⟩) :=
        Prod.ext ((w.test_eq ρ e).symm.trans (h e (by simp))) (hstill e _).1
      rw [evalJoint_cons, ran_bind, he, List.any_cons]
      cases g e with
      | true => rfl
      | false => exact ih fun p hp => h p (by simp [hp])
  rw [test_eq]
  exact congrArg Prod.fst ((refines_folded fun e _ => hstill e) _ |>.2 _ _ hrun)

end Folded

end Setting
end SchemaCompiler

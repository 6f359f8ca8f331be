import SchemaCompiler.Plan
import SchemaCompiler.Proofs.Machine.Quiet
import SchemaCompiler.Proofs.Number.Exact

/-!
# Blocks and error counts

How blocks of statements run one after the other, and what the statements do that remember error
counts and compare them. The machine counts in doubles; up to the number of error records that
there is room for, that is exact.
-/
namespace SchemaCompiler

variable {n k : Nat} {before : Name}

/-! ## Counts as doubles -/

theorem recordLimit_natAbs (h : n ≤ Machine.recordLimit) : (n : Int).natAbs ≤ 2 ^ 53 := by
  simpa [Machine.recordLimit] using h

theorem Machine.strictEq_ofNat (hn : n ≤ recordLimit) (hk : k ≤ recordLimit) :
    strictEq (Json.ofNat n) (Json.ofNat k) = decide (n = k) := by
  have h := Binary64.same_of_denotes (Binary64.denotes_ofInt (recordLimit_natAbs hn))
    (Binary64.denotes_ofInt (recordLimit_natAbs hk))
  simpa [strictEq, Json.ofNat, Json.Number.toBinary64] using h

theorem Machine.asIndex_ofNat (h : n ≤ recordLimit) : asIndex (Json.ofNat n) = .ok n := by
  have hspec := Binary64.ofInt_spec (recordLimit_natAbs h)
  have hsign : (Binary64.ofInt n).negative = false := by
    rw [Binary64.ofInt, Binary64.negative_nearest]
    simp
  have hmax : n ≤ maxIndex := by
    have hlimit : recordLimit ≤ maxIndex := by decide
    exact Nat.le_trans h hlimit
  simp only [asIndex, index?, Json.ofNat, Json.Number.toBinary64, hsign, hspec.2]
  simp [Nat.min_eq_left hmax]

namespace Machine

variable (env : Env) {s : State}

/-! ## Blocks -/

def onNormal (k : State → Except Abort Flow × State) : Flow → State → Except Abort Flow × State
  | .normal, s => k s
  | flow, s => (.ok flow, s)

@[simp] theorem onNormal_normal (k : State → Except Abort Flow × State) (s : State) :
    onNormal k .normal s = k s := rfl

@[simp] theorem onNormal_leave (k : State → Except Abort Flow × State) (s : State) :
    onNormal k .leave s = (.ok .leave, s) := rfl

@[simp] theorem onNormal_return (k : State → Except Abort Flow × State) (v : Json) (s : State) :
    onNormal k (.return v) s = (.ok (.return v), s) := rfl

@[simp] theorem ran_execBlock_nil (s : State) :
    ran (execBlock env []) s = (.ok .normal, s) := rfl

theorem ran_execBlock_cons (st : Stmt) (rest : List Stmt) (s : State) :
    ran (execBlock env (st :: rest)) s
      = follow (onNormal (ran (execBlock env rest))) (ran (exec env st) s) := by
  simp only [execBlock, ran_bind]
  rcases ran (exec env st) s with ⟨_ | flow, t⟩
  · rfl
  · cases flow <;> rfl

theorem ran_execBlock_append (first second : List Stmt) (s : State) :
    ran (execBlock env (first ++ second)) s
      = follow (onNormal (ran (execBlock env second))) (ran (execBlock env first) s) := by
  induction first generalizing s with
  | nil => rfl
  | cons st rest ih =>
    rw [List.cons_append, ran_execBlock_cons, ran_execBlock_cons]
    rcases ran (exec env st) s with ⟨_ | flow, t⟩
    · rfl
    · cases flow with
      | normal => exact ih t
      | _ => rfl

@[simp] theorem ran_execBlock_singleton (st : Stmt) (s : State) :
    ran (execBlock env [st]) s = ran (exec env st) s := by
  rw [ran_execBlock_cons]
  rcases ran (exec env st) s with ⟨_ | flow, t⟩
  · rfl
  · cases flow <;> rfl

/-! ## Single statements -/

theorem ran_declare (n : Name) (e : Expr) (c : Bool) (s : State) :
    ran (exec env (.declare n (some e) c)) s
      = follow (fun v t => (.ok .normal, { t with locals := Assoc.insert n v t.locals }))
          (ran (eval env e) s) := by
  simp only [exec, ran_bind]
  rfl

theorem ran_branch (c : Expr) (yes no : List Stmt) (s : State) :
    ran (exec env (.branch c yes no)) s
      = follow (fun v t => if truthy v then ran (execBlock env yes) t else ran (execBlock env no) t)
          (ran (eval env c) s) := by
  simp only [exec, ran_bind]
  rcases ran (eval env c) s with ⟨_ | v, t⟩
  · rfl
  · simp only [follow_ok]
    split <;> rfl

@[simp] theorem ran_leave (s : State) : ran (exec env .leave) s = (.ok .leave, s) := rfl

@[simp] theorem ran_mark (before : Name) (s : State) :
    ran (exec env (.mark before)) s =
      (.ok .normal, { s with
        locals := Assoc.insert before (Json.ofNat s.errors.length) s.locals }) := rfl

section Marks

variable (hk : k ≤ recordLimit) (hb : Assoc.get? before s.locals = some (Json.ofNat k))

include hk hb

theorem ran_unmoved (hs : s.errors.length ≤ recordLimit) :
    ran (eval env (.unmoved before)) s = (.ok (.bool (decide (s.errors.length = k))), s) := by
  simp only [Expr.unmoved, Expr.equals, eval, ran_bind, ran_look, follow_ok, ran_pure, ran_readName,
    hb, binary, strictEq_ofNat hs hk]
  rfl

theorem ran_moved (hs : s.errors.length ≤ recordLimit) :
    ran (eval env (.differs .errorCount (.var before))) s
      = (.ok (.bool !decide (s.errors.length = k)), s) := by
  simp only [Expr.differs, eval, ran_bind, ran_look, follow_ok, ran_pure, ran_readName,
    hb, binary, strictEq_ofNat hs hk]
  rfl

theorem ran_resetErrors :
    ran (exec env (.resetErrors (.var before))) s
      = (.ok .normal, { s with errors := s.errors.take k }) := by
  simp only [exec, eval, ran_bind, ran_readName, hb, follow_ok, asIndex_ofNat hk]
  rfl

end Marks

theorem ran_addError (e : Expr) (s : State) :
    ran (exec env (.addError e)) s = follow (fun v t =>
      if t.errors.length < recordLimit then (.ok .normal, { t with errors := t.errors ++ [v] })
      else (.error (.fault (.outOfBounds recordLimit recordLimit)), t)) (ran (eval env e) s) := by
  simp only [exec, addRecord, ran_bind]
  rcases ran (eval env e) s with ⟨_ | v, t⟩
  · rfl
  · simp only [follow_ok, ran_bind]
    by_cases h : t.errors.length < recordLimit <;> simp [h]

/-! ## How quiet statements end -/

def Flow.Within (leaves : Bool) (flow : Flow) : Prop :=
  flow = .normal ∨ flow = .leave ∧ leaves = true

/-- The computation goes on where it does not stop, or leaves a loop if that may be. -/
def Ends (leaves : Bool) (x : Exec Flow) : Prop :=
  ∀ s flow t, ran x s = (.ok flow, t) → flow.Within leaves

namespace Ends

variable {b : Bool}

theorem normal : Ends b (pure .normal) := by
  rintro s flow t ⟨⟩
  exact .inl rfl

theorem bind {α : Type} {x : Exec α} {f : α → Exec Flow} (hf : ∀ a, Ends b (f a)) :
    Ends b (x >>= f) := by
  intro s flow t he
  rw [ran_bind] at he
  rcases hx : ran x s with ⟨_ | a, u⟩
  · simp [hx] at he
  · rw [hx] at he
    exact hf a u flow t he

theorem afterRound {c : Bool} {body rest : Exec Flow} (hb : Ends c body) (hr : Ends b rest) :
    Ends b (body >>= Machine.afterRound rest) := by
  intro s flow t he
  rw [ran_bind] at he
  rcases hx : ran body s with ⟨_ | f, u⟩
  · simp [hx] at he
  · rw [hx] at he
    rcases hb s f u hx with rfl | ⟨rfl, -⟩
    · exact hr u flow t he
    · cases he
      exact .inl rfl

theorem loopOver {c : Bool} {var : Name} {body : Exec Flow} (hb : Ends c body) (vs : List Json) :
    Ends b (Machine.loopOver var body vs) := by
  induction vs with
  | nil => exact normal
  | cons _ vs ih => exact bind fun _ => afterRound hb ih

end Ends

theorem Flow.Within.mono {flow : Flow} {b c : Bool} (h : flow.Within b)
    (hbc : b = true → c = true) : flow.Within c :=
  h.imp id fun ⟨hl, hb⟩ => ⟨hl, hbc hb⟩

mutual
/-- A quiet statement does not return, and leaves a loop only with a statement that says so. -/
theorem exec_ends {R : Name → Prop} : (st : Stmt) → st.Quiet R → Ends st.leaves (exec env st)
  | .declare _ none _, _ => .bind fun _ => .normal
  | .declare _ (some _) _, _ | .assign _ _, _ => .bind fun _ => .bind fun _ => .normal
  | .branch _ yes no, h => .bind fun v => by
    intro s flow t he
    by_cases hv : truthy v = true
    · simp only [hv] at he
      exact (execBlock_ends yes h.2.1 s flow t he).mono fun hb => by simp [Stmt.leaves, hb]
    · simp only [hv] at he
      exact (execBlock_ends no h.2.2 s flow t he).mono fun hb => by simp [Stmt.leaves, hb]
  | .forRange _ _ _ body, h =>
    .bind fun _ => .bind fun _ => .bind fun _ => .bind fun _ =>
      (loopRange_eq (σ := State) _ _ _ _).symm ▸ .loopOver (execBlock_ends body h.2.2) _
  | .forKeys _ _ body, h | .forEach _ _ body, h =>
    .bind fun _ => .loopOver (execBlock_ends body h.2) _
  | .leave, _ => by
    rintro s flow t ⟨⟩
    exact .inr ⟨rfl, rfl⟩

theorem execBlock_ends {R : Name → Prop} :
    (stmts : List Stmt) → Stmt.QuietBlock R stmts →
      Ends (Stmt.leavesOf stmts) (execBlock env stmts)
  | [], _ => .normal
  | st :: rest, h => by
    intro s flow t he
    rw [ran_execBlock_cons] at he
    rcases hx : ran (exec env st) s with ⟨_ | f, u⟩
    · simp [hx] at he
    · rw [hx] at he
      rcases exec_ends st h.1 s f u hx with rfl | ⟨rfl, hl⟩
      · exact (execBlock_ends rest h.2 u flow t he).mono fun hb => by simp [Stmt.leavesOf, hb]
      · cases he
        exact .inr ⟨rfl, by simp [Stmt.leavesOf, hl]⟩
end

end Machine
end SchemaCompiler

import SchemaCompiler.Machine.Basic
import SchemaCompiler.Proofs.Run

/-!
# Runs of the machine

What the steps give that computations of the machine are made of.
-/
namespace SchemaCompiler.Machine

variable {σ α : Type}

@[simp] theorem ran_raise (e : RuntimeError) (s : σ) :
    ran (raise e : ExecOn σ α) s = (.error (.fault e), s) := rfl

@[simp] theorem ran_look (s : State) : ran look s = (.ok s, s) := rfl

@[simp] theorem ran_update (f : State → State) (s : State) : ran (update f) s = (.ok (), f s) := rfl

@[simp] theorem ran_setLocal (name : Name) (v : Json) (s : State) :
    ran (setLocal name v) s = (.ok (), { s with locals := Assoc.insert name v s.locals }) := rfl

@[simp] theorem ran_observe (x : ExecOn σ α) (s : σ) :
    ran (observe x) s = (.ok (ran x s).1, (ran x s).2) := rfl

@[simp] theorem ran_resume (r : Except Abort α) (s : σ) : ran (resume r) s = (r, s) := by
  cases r <;> rfl

theorem ran_checked (r : Except TypeFault α) (s : σ) :
    ran (checked r) s = (r.mapError fun fault => .fault (.type fault), s) := by
  cases r <;> rfl

end SchemaCompiler.Machine

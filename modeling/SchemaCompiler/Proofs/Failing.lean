import SchemaCompiler.Scope

/-!
# How computations fail

What is known of the errors of each step is known of the errors of a computation. Where a step can
fail with no error at all, it succeeds. For the search for what an entry function reaches this leaves
the steps that say what values stand for, and the forms in which they are wanted.
-/
namespace SchemaCompiler

variable {α β : Type} {E : CompileError → Prop} {x : Except CompileError α}
  {f : α → Except CompileError β}

/-- All errors of a computation are of a kind. -/
def FailsOnly (E : CompileError → Prop) (x : Except CompileError α) : Prop :=
  ∀ e, x = .error e → E e

namespace FailsOnly

theorem ok (a : α) : FailsOnly E (.ok a) := nofun

theorem error {e : CompileError} (h : E e) : FailsOnly E (.error e : Except CompileError α) := by
  rintro _ ⟨⟩
  exact h

theorem bind (h : FailsOnly E x) (hf : ∀ a, FailsOnly E (f a)) : FailsOnly E (x >>= f) := by
  cases x with
  | error e => exact .error (h e rfl)
  | ok a => exact hf a

theorem map (h : FailsOnly E x) (f : α → β) : FailsOnly E (x.map f) := by
  cases x with
  | error e => exact .error (h e rfl)
  | ok a => exact .ok _

theorem mapM {items : List α} (h : ∀ a ∈ items, FailsOnly E (f a)) :
    FailsOnly E (items.mapM f) := by
  induction items with
  | nil => exact .ok _
  | cons a rest ih =>
    rw [List.mapM_cons]
    obtain ⟨ha, hrest⟩ := List.forall_mem_cons.1 h
    exact ha.bind fun _ => (ih hrest).bind fun _ => .ok _

theorem of_exists (h : ∃ a, x = .ok a) : FailsOnly E x := by
  obtain ⟨a, rfl⟩ := h
  exact .ok a

theorem exists_ok (h : FailsOnly (fun _ => False) x) : ∃ a, x = .ok a := by
  cases x with
  | error e => exact (h e rfl).elim
  | ok a => exact ⟨a, rfl⟩

end FailsOnly

namespace ValueScope

variable {scope : ValueScope} {functions : List (Name × FunctionDef)}

theorem failsOnly_reach (h : ∀ e ∈ scope.entries, FailsOnly E (scope.follow e)) (fuel : Nat)
    (stack seen : List Name) : FailsOnly E (scope.reach functions fuel stack seen) := by
  induction fuel generalizing stack seen with
  | zero => exact .ok _
  | succ fuel ih =>
    cases stack with
    | nil => exact .ok _
    | cons name stack =>
      unfold reach
      split
      · exact ih _ _
      · split
        · exact ih _ _
        · split
          · exact ih _ _
          · rename_i e he
            refine (h e (List.mem_of_find?_eq_some he)).bind fun next => ?_
            cases next with
            | none | some _ => exact ih _ _

theorem failsOnly_reachedAs {τ : Type} {form : Entry → Except CompileError τ}
    (h : ∀ e ∈ scope.entries, FailsOnly E (scope.follow e))
    (hform : ∀ e ∈ scope.entries, FailsOnly E (form e)) (entry : Name)
    (functions : List (Name × FunctionDef)) :
    FailsOnly E (scope.reachedAs form entry functions) := by
  unfold reachedAs reachable
  cases hr : scope.reach functions _ [entry] [] with
  | error e => exact .error (failsOnly_reach h _ _ _ e hr)
  | ok seen =>
    refine (FailsOnly.mapM fun e he => ?_).bind fun _ => .ok _
    exact (hform e ((List.mem_filter.1 he).1)).bind fun _ => .ok _

end ValueScope
end SchemaCompiler

import SchemaCompiler.Proofs.Compiler.Linking
import SchemaCompiler.Proofs.Compiler.Order
import SchemaCompiler.Proofs.Machine.Mentions

/-!
# What an entry function reaches

A validator is made of what its entry function reaches. The search ends before its bound, so what is
reached leads to nothing that is not reached, and the validator does what the entry function does in
the program of all that the compiler holds.
-/
namespace SchemaCompiler

open Machine

theorem Assoc.get?_filter {κ α : Type} [BEq κ] [LawfulBEq κ] (p : κ → Bool) {key : κ}
    (hp : p key = true) (xs : List (κ × α)) : get? key (xs.filter fun e => p e.1) = get? key xs := by
  induction xs with
  | nil => rfl
  | cons e rest ih =>
    obtain ⟨k, v⟩ := e
    by_cases hk : key = k
    · simp [get?_cons, ← hk, hp]
    · rw [List.filter_cons]
      split <;> simp [get?_cons, hk, ih]

/-! ## The search -/

namespace ValueScope

/-- The names that a name leads on to: those that its function mentions, or the function that its
value stands for. -/
def onward (functions : List (Name × FunctionDef)) (scope : ValueScope) (name : Name) : List Name :=
  match Assoc.get? name functions with
  | some f => f.referencedNames.reverse
  | none =>
    match scope.get? name with
    | none => []
    | some e =>
      match scope.follow e with
      | .ok (some next) => [next]
      | _ => []

def toCome (functions : List (Name × FunctionDef)) (scope : ValueScope) (seen : List Name) : Nat :=
  ((functions.filter fun f => !seen.contains f.1).map fun f => f.2.referencedNames.length).sum
    + ((scope.entries.filter fun e => !seen.contains e.name).map fun _ => 1).sum

variable {functions : List (Name × FunctionDef)} {scope : ValueScope} {fuel : Nat} {name : Name}
  {stack seen met : List Name}

theorem reach_of_not_mem (hn : name ∉ seen)
    (h : reach functions scope (fuel + 1) (name :: stack) seen = .ok met) :
    reach functions scope fuel (scope.onward functions name ++ stack) (name :: seen) = .ok met := by
  rw [reach, if_neg (by simpa using hn)] at h
  unfold onward
  cases hf : Assoc.get? name functions with
  | some f =>
    rw [hf] at h
    exact h
  | none =>
    rw [hf] at h
    cases he : scope.get? name with
    | none =>
      rw [he] at h
      exact h
    | some e =>
      rw [he] at h
      obtain ⟨next, hnext, h⟩ := bind_eq_ok.1 h
      dsimp only
      rw [hnext]
      cases next with
      | none => exact h
      | some f => exact h

theorem reach_of_mem (hn : name ∈ seen)
    (h : reach functions scope (fuel + 1) (name :: stack) seen = .ok met) :
    reach functions scope fuel stack seen = .ok met := by
  rwa [reach, if_pos (by simpa using hn)] at h

theorem subset_reach (h : reach functions scope fuel stack seen = .ok met) : seen ⊆ met := by
  induction fuel generalizing stack seen with
  | zero =>
    cases h
    exact List.Subset.refl _
  | succ fuel ih =>
    cases stack with
    | nil =>
      cases h
      exact List.Subset.refl _
    | cons name stack =>
      by_cases hn : name ∈ seen
      · exact ih (reach_of_mem hn h)
      · exact List.Subset.trans (List.subset_cons_self _ _) (ih (reach_of_not_mem hn h))

theorem mem_reach {entry : Name}
    (h : reach functions scope (scope.reachBound functions) [entry] [] = .ok met) : entry ∈ met := by
  obtain ⟨fuel, hfuel⟩ : ∃ fuel, scope.reachBound functions = fuel + 1 :=
    Nat.exists_eq_succ_of_ne_zero (by unfold reachBound; omega)
  rw [hfuel] at h
  exact subset_reach (reach_of_not_mem List.not_mem_nil h) (List.mem_cons_self ..)

/-! ## The bound of the search -/

section Sums

variable {α : Type} {p q : α → Bool} (hpq : ∀ x, p x = true → q x = true) (g : α → Nat)

include hpq

theorem sum_filter_le (l : List α) : ((l.filter p).map g).sum ≤ ((l.filter q).map g).sum := by
  induction l with
  | nil => simp
  | cons x rest ih =>
    simp only [List.filter_cons]
    by_cases hp : p x = true
    · rw [if_pos hp, if_pos (hpq x hp)]
      simp only [List.map_cons, List.sum_cons]
      omega
    · rw [if_neg hp]
      split
      · simp only [List.map_cons, List.sum_cons]
        omega
      · exact ih

/-- What has only the weaker of two properties adds to the sum over those that have it. -/
theorem sum_filter_add_le {l : List α} {x : α} (hx : x ∈ l) (hq : q x = true) (hp : p x = false) :
    ((l.filter p).map g).sum + g x ≤ ((l.filter q).map g).sum := by
  obtain ⟨before, behind, rfl⟩ := List.append_of_mem hx
  have hbefore := sum_filter_le hpq g before
  have hbehind := sum_filter_le hpq g behind
  simp only [List.filter_append, List.filter_cons, hp, hq, if_true, Bool.false_eq_true, if_false,
    List.map_append, List.map_cons, List.sum_append, List.sum_cons]
  omega

end Sums

/-- Each name that is met leads on to no more names than were to come because of it. -/
theorem length_onward_add_le (hn : name ∉ seen) :
    (scope.onward functions name).length + toCome functions scope (name :: seen)
      ≤ toCome functions scope seen := by
  have hweaker : ∀ n : Name, (!(name :: seen).contains n) = true → (!seen.contains n) = true := by
    intro n hn
    simp only [List.contains_cons, Bool.not_or, Bool.and_eq_true] at hn
    exact hn.2
  have hmet : (!seen.contains name) = true ∧ (!(name :: seen).contains name) = false := by
    simpa using hn
  have hfunctions := sum_filter_le (fun f : Name × FunctionDef => hweaker f.1)
    (fun f => f.2.referencedNames.length) functions
  have hentries := sum_filter_le (fun e : ValueScope.Entry => hweaker e.name) (fun _ => 1)
    scope.entries
  unfold onward toCome
  split
  · rename_i f hf
    have hfewer := sum_filter_add_le (fun f : Name × FunctionDef => hweaker f.1)
      (fun f => f.2.referencedNames.length) (Assoc.mem_of_get?_eq_some hf) hmet.1 hmet.2
    dsimp only at hfewer
    rw [List.length_reverse]
    omega
  · split
    · simp only [List.length_nil]
      omega
    · rename_i e he
      obtain rfl : e.name = name := by simpa using List.find?_some he
      have hfewer := sum_filter_add_le (fun e : ValueScope.Entry => hweaker e.name) (fun _ => 1)
        (List.mem_of_find?_eq_some he) hmet.1 hmet.2
      split <;> simp only [List.length_nil, List.length_cons] <;> omega

theorem reach_closed (hfuel : stack.length + toCome functions scope seen < fuel)
    (hseen : ∀ n ∈ seen, scope.onward functions n ⊆ seen ++ stack)
    (h : reach functions scope fuel stack seen = .ok met) :
    ∀ n ∈ met, scope.onward functions n ⊆ met := by
  induction fuel generalizing stack seen with
  | zero => omega
  | succ fuel ih =>
    cases stack with
    | nil =>
      cases h
      simpa using hseen
    | cons name stack =>
      by_cases hn : name ∈ seen
      · refine ih ?_ (fun n hmem m hm => ?_) (reach_of_mem hn h)
        · simp only [List.length_cons] at hfuel
          omega
        · have hm' := hseen n hmem hm
          simp only [List.mem_append, List.mem_cons] at hm' ⊢
          rcases hm' with hm' | rfl | hm'
          · exact .inl hm'
          · exact .inl hn
          · exact .inr hm'
      · refine ih ?_ (fun n hmem m hm => ?_) (reach_of_not_mem hn h)
        · have hfewer : (scope.onward functions name).length + toCome functions scope _
              ≤ toCome functions scope seen := length_onward_add_le hn
          simp only [List.length_cons, List.length_append] at hfuel ⊢
          omega
        · simp only [List.mem_append, List.mem_cons]
          rcases List.mem_cons.1 hmem with rfl | hmem
          · exact .inr (.inl hm)
          · have hm' := hseen n hmem hm
            simp only [List.mem_append, List.mem_cons] at hm'
            rcases hm' with hm' | rfl | hm'
            · exact .inl (.inr hm')
            · exact .inl (.inl rfl)
            · exact .inr (.inr hm')

theorem onward_subset_of_reach {entry : Name}
    (h : reach functions scope (scope.reachBound functions) [entry] [] = .ok met) :
    ∀ n ∈ met, scope.onward functions n ⊆ met := by
  refine reach_closed ?_ (by simp) h
  simp [toCome, reachBound]
  omega

end ValueScope

/-! ## The whole and what is reached -/

namespace Compiler

variable {o : Options} {c : Compiler} {P : Descriptor → Prop}

theorem InOrder.follow_of_means (hP : Admits P) (h : c.InOrder P) {e : ValueScope.Entry}
    (he : e ∈ c.assembly.entries) {f : Name} (hm : e.Means c.library.scope f) :
    c.library.scope.follow e = .ok (some f) ∧ f ∈ c.assembly.defined := by
  unfold ValueScope.Entry.Means at hm
  unfold ValueScope.follow
  cases h.program.belongs e he with
  | value d hd hlive hstored =>
    obtain ⟨hfunction, hforward⟩ := hP.plain d hd
    rw [hlive, hstored] at hm
    rcases hm with hm | ⟨slot, hm, -⟩
    · exact (hm.elim (hfunction f).1 (hfunction f).2).elim
    · exact (hm.elim (hforward slot).1 (hforward slot).2).elim
  | function g hlive hstored hg =>
    rw [hlive, hstored] at hm
    obtain rfl : g = f := by simpa using hm
    rw [hlive]
    exact ⟨rfl, hg⟩
  | forward slot hlive hstored hslot =>
    rw [hlive, hstored] at hm
    obtain ⟨_, rfl, hf⟩ : ∃ s, slot = s ∧ c.library.scope.slots[s]? = some (some f) := by
      simpa using hm
    rw [hlive, hstored]
    dsimp only
    rw [ValueScope.slotFunction_eq_ok.2 hf]
    exact ⟨rfl, h.program.filled f (List.mem_of_getElem? hf)⟩

end Compiler
end SchemaCompiler

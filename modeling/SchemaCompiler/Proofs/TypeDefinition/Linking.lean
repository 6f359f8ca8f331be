import SchemaCompiler.Proofs.Compiler.Reach
import SchemaCompiler.Proofs.Emission
import SchemaCompiler.Proofs.Machine.Looks
import SchemaCompiler.TypeDefinition.Unit

/-!
# Linking what has been emitted

The values of the programs for type definitions are routines, which lead on to nothing. So linking
always succeeds, and the linked entry function does what it does in the program of all that has been
emitted.
-/
namespace SchemaCompiler

open Machine

namespace Library

variable {l : Library} {functions : List (Name × FunctionDef)}

def whole (l : Library) (maxDepth : Nat) : Program :=
  ⟨l.functions, l.scope.entries.filterMap fun e => e.live.map fun v => (e.name, v), maxDepth⟩

variable (h : l.Tidy)

include h

theorem Tidy.live_eq {e : ValueScope.Entry} (he : e ∈ l.scope.entries) :
    ∃ routine, e.live = some (.primitive routine) ∧
      l.scope.liveForm e = .ok (.primitive routine) ∧ l.scope.follow e = .ok none := by
  obtain ⟨routine, k, rfl, -⟩ := h.routines e he
  exact ⟨routine, rfl, rfl, rfl⟩

theorem Tidy.get?_functions {e : ValueScope.Entry} (he : e ∈ l.scope.entries) :
    Assoc.get? e.name l.functions = none := by
  obtain ⟨routine, k, rfl, -⟩ := h.routines e he
  cases hget : Assoc.get? (routineEntry routine k).name l.functions with
  | none => rfl
  | some f =>
    obtain ⟨stem, i, hname, -, hstem⟩ := h.functions _ _ hget
    exact absurd (Stem.name_inj.1 hname).1.symm hstem

theorem Tidy.exists_reach (fuel : Nat) (stack seen : List Name) :
    ∃ met, ValueScope.reach functions l.scope fuel stack seen = .ok met := by
  refine (ValueScope.failsOnly_reach (fun e he => .of_exists ?_) fuel stack seen).exists_ok
  obtain ⟨_, -, -, hfollow⟩ := h.live_eq he
  exact ⟨_, hfollow⟩

theorem Tidy.mapM_liveForm {entries : List ValueScope.Entry} (he : entries ⊆ l.scope.entries) :
    (entries.mapM fun e => do
      let v ← l.scope.liveForm e
      return (e.name, v)) = .ok (entries.filterMap fun e => e.live.map fun v => (e.name, v)) := by
  induction entries with
  | nil => rfl
  | cons e rest ih =>
    obtain ⟨routine, hlive, hform, -⟩ := h.live_eq (he (List.mem_cons_self ..))
    rw [List.mapM_cons, hform, ih fun x hx => he (List.mem_cons_of_mem _ hx),
      List.filterMap_cons, hlive]
    rfl

theorem Tidy.value?_whole {routine : Primitive} {k maxDepth : Nat}
    (he : routineEntry routine k ∈ l.scope.entries) :
    (l.whole maxDepth).value? (Gen.routineStem.name k) = some (.primitive routine) := by
  have hmem : (Gen.routineStem.name k, LiveValue.primitive routine) ∈ (l.whole maxDepth).values :=
    List.mem_filterMap.2 ⟨_, he, rfl⟩
  refine (Assoc.get?_eq_some_iff ?_).2 hmem
  have hnames : (l.whole maxDepth).values.map Prod.fst = l.scope.entries.map ValueScope.Entry.name := by
    show List.map Prod.fst (List.filterMap _ _) = _
    rw [List.map_filterMap, ← List.filterMap_eq_map]
    refine List.filterMap_congr fun e he => ?_
    obtain ⟨_, hlive, -⟩ := h.live_eq he
    rw [hlive]
    rfl
  rw [hnames]
  exact h.distinct

/-- What an entry function reaches: the functions and values of the names that are met. -/
theorem Tidy.reachedLive_eq (entry : Name) (maxDepth : Nat) : ∃ seen,
    ValueScope.reach l.functions l.scope (l.scope.reachBound l.functions) [entry] [] = .ok seen ∧
      l.scope.reachedLive entry l.functions = .ok
        ⟨l.functions.filter fun f => seen.contains f.1,
          (l.whole maxDepth).values.filter fun e => seen.contains e.1⟩ := by
  obtain ⟨seen, hseen⟩ := h.exists_reach _ [entry] []
  refine ⟨seen, hseen, ?_⟩
  have hlive : ((l.scope.entries.filter fun e =>
      seen.contains e.name && !Assoc.contains e.name l.functions).filterMap fun e =>
        e.live.map fun v => (e.name, v)) =
      (l.whole maxDepth).values.filter fun e => seen.contains e.1 := by
    show _ = List.filter _ (List.filterMap _ _)
    rw [List.filter_filterMap, List.filterMap_filter]
    refine List.filterMap_congr fun e he => ?_
    obtain ⟨_, hlive, -⟩ := h.live_eq he
    simp [hlive, Assoc.contains, h.get?_functions he, Option.filter]
  have hvalues := h.mapM_liveForm (List.filter_sublist (p := fun e =>
    seen.contains e.name && !Assoc.contains e.name l.functions)).subset
  rw [hlive] at hvalues
  exact bind_eq_ok.2 ⟨_, bind_eq_ok.2 ⟨seen, hseen, rfl⟩, bind_eq_ok.2 ⟨_, hvalues, rfl⟩⟩

/-- What an entry function reaches stands for the same in the linked program and in the whole. -/
theorem Tidy.shares_reached (entry : Name) (maxDepth : Nat) : ∃ names reached,
    l.scope.reachedLive entry l.functions = .ok reached ∧ entry ∈ names ∧
      Shares names ⟨reached.functions, reached.values, maxDepth⟩ (l.whole maxDepth) := by
  obtain ⟨seen, hseen, hreached⟩ := h.reachedLive_eq entry maxDepth
  refine ⟨seen, _, hreached, ValueScope.mem_reach hseen, ?_⟩
  have hfunction : ∀ n ∈ seen, Assoc.get? n (l.functions.filter fun f => seen.contains f.1)
      = Assoc.get? n l.functions := fun n hn =>
    Assoc.get?_filter _ (by simpa using hn) _
  refine ⟨hfunction, fun n hn => Assoc.get?_filter _ (by simpa using hn) _,
    fun n hn f hf => ?_, fun n hn f hf => ?_, rfl⟩
  · have honward := ValueScope.onward_subset_of_reach hseen n hn
    rw [ValueScope.onward, ← hfunction n hn, show Assoc.get? n _ = some f from hf] at honward
    exact fun m hm => honward (by simpa using hm)
  · have hmem := List.mem_of_mem_filter (Assoc.mem_of_get?_eq_some hf)
    obtain ⟨e, he, hlive⟩ := List.mem_filterMap.1 hmem
    obtain ⟨routine, hroutine, -⟩ := h.live_eq he
    rw [hroutine] at hlive
    cases hlive

end Library

namespace TypeDefinition.Compiled

theorem ofEmission_eq_ok {σ : Type} {emission : Gen σ Name} {start : σ} {maxDepth : Nat}
    {entry : Name} {a : Assembly σ} {reached : Reached LiveValue}
    (hran : emission.run ⟨.empty, [], .empty, start⟩ = (.ok entry, a))
    (h : a.library.scope.reachedLive entry a.library.functions = .ok reached) :
    ofEmission maxDepth start emission =
      .ok ⟨⟨reached.functions, reached.values, maxDepth⟩, entry⟩ := by
  simp only [ofEmission, Gen.execute, StateT.run, hran, bind, Except.bind, h]
  rfl

/-- An emission that succeeds gives a program whose entry function does what it does in the program
of all that has been emitted, and looks nowhere else. -/
theorem exists_ofEmission {σ : Type} {emission : Gen σ Name} {start : σ}
    {Q : Name → Gen.Post σ} (maxDepth : Nat) (h : Gen.Emits emission ⟨.empty, [], .empty, start⟩ Q)
    (htidy : ∀ entry a code, Q entry a code → a.library.Tidy) :
    ∃ compiled a code, ofEmission maxDepth start emission = .ok compiled ∧
      Q compiled.entry a code ∧ compiled.program.maxDepth = maxDepth ∧
      (∀ rounds left, callFunction compiled.program rounds left compiled.entry =
        callFunction (a.library.whole maxDepth) rounds left compiled.entry) ∧
      ∀ rounds left values s x u, callLooks compiled.program rounds left compiled.entry values s x u →
        callLooks (a.library.whole maxDepth) rounds left compiled.entry values s x u := by
  obtain ⟨entry, a, code, hran, hQ⟩ := (h []).resolve_right And.left
  obtain ⟨names, reached, hreached, hentry, hshares⟩ :=
    (htidy entry a code hQ).shares_reached entry maxDepth
  exact ⟨_, a, code, ofEmission_eq_ok hran hreached, hQ, rfl,
    fun rounds left => callFunction_congr hshares rounds left entry hentry,
    fun rounds left => callLooks_congr hshares rounds left entry hentry⟩

end TypeDefinition.Compiled
end SchemaCompiler

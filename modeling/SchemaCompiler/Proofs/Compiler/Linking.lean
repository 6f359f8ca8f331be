import SchemaCompiler.Proofs.Compiler.History
import SchemaCompiler.Proofs.Plan.Extension

/-!
# Linking

A validator is made of what its entry function reaches. Whatever that is, it is a part of all that
the compiler holds, which makes a sound blueprint, and a part of a sound blueprint is sound.
-/
namespace SchemaCompiler

open Machine

variable {scope : ValueScope} {n f : Name} {e : ValueScope.Entry} {isAsync : Bool} {o : Options}

/-! ## What values stand for -/

namespace ValueScope

/-- A value stands for a function: it is that function, or its slot is filled with it. -/
def Entry.Means (scope : ValueScope) (e : Entry) (f : Name) : Prop :=
  (e.live = some (.function f) ∨ e.stored = some (.function f)) ∨
    ∃ slot, (e.live = some (.forward slot) ∨ e.stored = some (.forward slot)) ∧
      scope.slots[slot]? = some (some f)

theorem slotFunction_eq_ok {slot : Nat} {owner : Name} :
    scope.slotFunction slot owner = .ok n ↔ scope.slots[slot]? = some (some n) := by
  unfold slotFunction
  split
  · rename_i f hf
    simp [hf]
  · rename_i hnone
    constructor
    · intro h
      cases h
    · intro h
      exact absurd h (hnone n)

theorem Entry.means_of_liveForm {e : Entry}
    (h : scope.liveForm e = .ok (.function f)) : e.Means scope f := by
  unfold liveForm at h
  cases hlive : e.live with
  | some live =>
    rw [hlive] at h
    cases live with
    | function g =>
      cases h
      exact .inl (.inl hlive)
    | forward slot =>
      obtain ⟨g, hg, ⟨⟩⟩ := map_eq_ok.1 h
      exact .inr ⟨slot, .inl hlive, slotFunction_eq_ok.1 hg⟩
    | _ => cases h
  | none =>
    rw [hlive] at h
    cases hstored : e.stored with
    | none => rw [hstored] at h; cases h
    | some stored =>
      rw [hstored] at h
      cases stored with
      | function g =>
        cases h
        exact .inl (.inr hstored)
      | forward slot =>
        obtain ⟨g, hg, ⟨⟩⟩ := map_eq_ok.1 h
        exact .inr ⟨slot, .inr hstored, slotFunction_eq_ok.1 hg⟩
      | json v => cases h
      | imported path =>
        simp only [Imports.link] at h
        cases hp : Primitive.ofPath? path <;> rw [hp] at h <;> cases h
      | pattern source =>
        simp only [Imports.link] at h
        cases hp : Pattern.read source <;> rw [hp] at h <;> cases h

end ValueScope

/-! ## All that a compiler holds -/

namespace Compiler

variable (c : Compiler)

def named? (e : ValueScope.Entry) : Option (Name × LiveValue) :=
  (c.library.scope.liveForm e).toOption.map fun v => (e.name, v)

def whole : Blueprint where
  checkers := c.session.checkers
  values := c.assembly.entries.filterMap c.named?
  maxDepth := c.options.maxDepth

theorem checker?_whole (n : Name) : c.whole.checker? n = c.assembly.checker? n := rfl

theorem keys_whole :
    (c.whole.values.map Prod.fst).Sublist (c.assembly.entries.map ValueScope.Entry.name) := by
  have hkeys : ∀ entries : List ValueScope.Entry,
      ((entries.filterMap c.named?).map Prod.fst).Sublist (entries.map ValueScope.Entry.name) := by
    intro entries
    induction entries with
    | nil => exact List.Sublist.refl _
    | cons e rest ih =>
      simp only [List.filterMap_cons, named?]
      cases (c.library.scope.liveForm e).toOption with
      | none => exact ih.cons _
      | some v => exact ih.cons_cons _
  exact hkeys _

theorem mem_values_whole {c : Compiler} {v : LiveValue} :
    (n, v) ∈ c.whole.values ↔
      ∃ e ∈ c.assembly.entries, e.name = n ∧ c.library.scope.liveForm e = .ok v := by
  simp only [whole, named?, List.mem_filterMap, Option.map_eq_some_iff, Prod.mk.injEq]
  constructor
  · rintro ⟨e, he, u, hu, rfl, rfl⟩
    refine ⟨e, he, rfl, ?_⟩
    cases hl : c.library.scope.liveForm e with
    | error fault => rw [hl] at hu; cases hu
    | ok w => rw [hl] at hu; cases hu; rfl
  · rintro ⟨e, he, rfl, hl⟩
    exact ⟨e, he, v, by rw [hl]; rfl, rfl, rfl⟩

namespace Healthy

variable {o : Options} {c : Compiler}

theorem nodup_values (h : c.Healthy o) : (c.whole.values.map Prod.fst).Nodup :=
  h.coherent.entries_nodup.sublist c.keys_whole

theorem value?_whole (h : c.Healthy o) {v : LiveValue} :
    c.whole.value? n = some v ↔
      ∃ e ∈ c.assembly.entries, e.name = n ∧ c.library.scope.liveForm e = .ok v :=
  (Assoc.get?_eq_some_iff h.nodup_values).trans mem_values_whole

end Healthy

theorem isFunction_of_liveForm (h : scope.liveForm e = .ok (.function f)) : e.IsFunction :=
  (ValueScope.Entry.means_of_liveForm h).imp (fun h => ⟨f, h⟩) fun ⟨slot, h, _⟩ => ⟨slot, h⟩

namespace Healthy

variable {o : Options} {c : Compiler}

variable (h : c.Healthy o)

include h

theorem inert_whole : Inert c.whole.values := by
  intro n f hn hv
  obtain ⟨e, he, rfl, hl⟩ := h.value?_whole.1 hv
  exact h.coherent.not_routine e he (isFunction_of_liveForm hl) hn

theorem routine_whole (n : Name) (hn : n.Routine) : c.whole.checker? n = none := by
  refine Assoc.get?_eq_none_iff.2 fun hmem => ?_
  obtain ⟨k, rfl, -⟩ := h.coherent.checkers_given n hmem
  exact Stem.not_routine_name (by decide) k hn

/-- What stands for the function of a place stands for the finished one, if for anything. -/
theorem finished_of_liveForm (he : e ∈ c.assembly.entries)
    {key : String} (hk : e.StandsFor key) {v : LiveValue}
    (hl : c.library.scope.liveForm e = .ok v) :
    ∃ f, v = .function f ∧ c.assembly.Finished key f := by
  unfold ValueScope.liveForm at hl
  rcases h.coherent.serves e he key hk with ⟨f, hlive, hf⟩ | ⟨slot, hlive, hf⟩
  · simp only [hlive] at hl
    cases hl
    exact ⟨f, rfl, hf⟩
  · simp only [hlive, ValueScope.slotFunction] at hl
    split at hl
    · rename_i f hslot
      cases hl
      exact ⟨f, rfl, hf f hslot⟩
    · cases hl

theorem callable_whole (hn : c.assembly.Calls n isAsync) : c.whole.Callable n isAsync := by
  obtain ⟨e, he, rfl, key, t, hk, ht, rfl⟩ := hn
  refine ⟨Assoc.get?_eq_none_iff.2 (h.coherent.disjoint e he), ?_⟩
  cases hv : c.whole.value? e.name with
  | none => exact .inl rfl
  | some v =>
    obtain ⟨e', he', hname, hl⟩ := h.value?_whole.1 hv
    obtain rfl : e' = e := List.inj_on_of_nodup_map h.coherent.entries_nodup he' he hname
    obtain ⟨f, rfl, t', ht', hdone⟩ := h.finished_of_liveForm he hk hl
    obtain rfl : t = t' := Option.some.inj (ht.symm.trans ht')
    refine .inr ⟨f, rfl, fun checker hchecker => ?_⟩
    obtain ⟨checker', hchecker', hasync⟩ := h.coherent.done key t f ht hdone
    obtain rfl : checker = checker' := Option.some.inj (hchecker.symm.trans hchecker')
    exact hasync

theorem sound_whole : c.whole.Sound where
  inert := h.inert_whole
  routine := h.routine_whole
  fits := fun n checker hc => by
    obtain ⟨hplan, hstays, hfresh, hcomposes⟩ := h.coherent.fits n checker hc
    exact ⟨hplan.mono fun _ _ => h.callable_whole, hstays, hfresh, hcomposes⟩

end Healthy

/-! ## What is reached -/

theorem mapM_liveForm {c : Compiler} {entries : List ValueScope.Entry}
    {values : List (Name × LiveValue)}
    (h : (entries.mapM fun e => do
      let v ← c.library.scope.liveForm e
      return (e.name, v)) = .ok values) : values = entries.filterMap c.named? := by
  induction entries generalizing values with
  | nil =>
    cases h
    rfl
  | cons e rest ih =>
    rw [List.mapM_cons] at h
    obtain ⟨p, hp, hrest⟩ := bind_eq_ok.1 h
    obtain ⟨v, hv, hpair⟩ := bind_eq_ok.1 hp
    obtain ⟨others, hothers, hvalues⟩ := bind_eq_ok.1 hrest
    cases hpair
    cases hvalues
    rw [ih hothers, List.filterMap_cons, named?, hv]
    rfl

theorem Healthy.link_eq_ok {c : Compiler} (h : c.Healthy o) {entry : Name}
    {v : Validator} (hl : c.link entry isAsync = .ok v) :
    ∃ b : Blueprint, b.Part c.whole ∧ b.checkers.Sublist c.session.checkers ∧
      b.maxDepth = o.maxDepth ∧ v = ⟨b.program o.allErrors, entry, isAsync⟩ := by
  rw [← h.options_eq]
  obtain ⟨reached, hreached, hv⟩ := bind_eq_ok.1 hl
  cases hv
  obtain ⟨⟨functions, entries⟩, hreachable, hrest⟩ := bind_eq_ok.1 hreached
  obtain ⟨values, hvalues, hpair⟩ := bind_eq_ok.1 hrest
  cases hpair
  obtain ⟨seen, -, hmet⟩ := bind_eq_ok.1 hreachable
  cases hmet
  refine ⟨⟨c.session.checkers.filter fun e => seen.contains e.1, values, c.options.maxDepth⟩,
    ⟨fun n checker hn => ?_, fun n value hn => ?_⟩, List.filter_sublist, rfl, ?_⟩
  · exact Assoc.get?_of_sublist List.filter_sublist h.coherent.checkers_nodup hn
  · refine Assoc.get?_of_sublist ?_ h.nodup_values hn
    rw [mapM_liveForm hvalues]
    exact List.filter_sublist.filterMap _
  · simp only [functions, List.filter_map]
    rfl

/-- What a validator is made from that a compiler with options gives. -/
structure Made (o : Options) (c : Compiler) (v : Validator) (b : Blueprint) : Prop where
  healthy : c.Healthy o
  part : b.Part c.whole
  checkers : b.checkers.Sublist c.session.checkers
  maxDepth : b.maxDepth = o.maxDepth
  program : v.program = b.program o.allErrors
  enters : c.Enters (v.entry, v.isAsync)

namespace Made

variable {o : Options} {c : Compiler} {v : Validator} {b : Blueprint}

theorem sound (h : c.Made o v b) : b.Sound := h.part.sound h.healthy.sound_whole

theorem isAsync_entry (h : c.Made o v b) {checker : Checker}
    (hc : b.checker? v.entry = some checker) : checker.isAsync = v.isAsync := by
  obtain ⟨root, hroot, hasync⟩ := h.enters
  obtain rfl : checker = root := Option.some.inj ((h.part.checkers _ _ hc).symm.trans hroot)
  exact hasync

end Made

/-- Whatever has been asked of a compiler, a validator that it gives is made from a part of what it
holds. -/
theorem made_of_serve {requests : List Request} {request : Request}
    (hrequests : ∀ r ∈ requests, r.Plain) (hrequest : request.Plain) {v : Validator} {c : Compiler}
    (hv : (after o requests).serve request = (some v, c)) : ∃ b, c.Made o v b := by
  have hserve := (healthy_after o hrequests).serve hrequest
  rw [hv] at hserve
  have hhealthy : c.Healthy o := hserve.1
  obtain ⟨entry, isAsync, henters, hlink⟩ : c.Links v := hserve.2 v rfl
  obtain ⟨b, hpart, hsub, hdepth, rfl⟩ := hhealthy.link_eq_ok hlink
  exact ⟨b, hhealthy, hpart, hsub, hdepth, rfl, henters⟩

end Compiler
end SchemaCompiler

import SchemaCompiler.Proofs.Planning.References

/-!
# Programs in order

What planning does to a program, whatever the plans are: values, slots, places and functions are
added behind those that are there. `Extends` says so of work that may have been broken off, and
`Advance` says of work that came to an end that nothing is left half done. `InOrder` is what holds
all the time of the values and functions themselves. Unlike the coherence of plans this asks nothing
of the code that is emitted, so that it holds of keywords that emit statements as they please.
-/
namespace SchemaCompiler

variable {α β : Type} {P : Descriptor → Prop} {a b c : Assembly Session} {e : ValueScope.Entry}
  {r : α} {f : α → Planner β} {d : Descriptor}

/-! ## The state of a program -/

def Assembly.defined (a : Assembly Session) : List Name := a.checkers.map Prod.fst

/-- A value that belongs to a program: one that may be held, a finished function, or one that stands
for a slot. -/
inductive ValueScope.Entry.Belongs (P : Descriptor → Prop) (a : Assembly Session)
    (e : ValueScope.Entry) : Prop where
  | value (d : Descriptor) (held : P d) (live : e.live = d.live) (stored : e.stored = d.stored)
  | function (f : Name) (live : e.live = some (.function f))
    (stored : e.stored = some (.function f)) (defined : f ∈ a.defined)
  | forward (slot : Nat) (live : e.live = some (.forward slot))
    (stored : e.stored = some (.forward slot)) (reserved : slot < a.slots.length)

/-- What holds of the values and functions of a program all the time; `P` says which values may be
held. -/
structure InOrder (P : Descriptor → Prop) (a : Assembly Session) : Prop where
  entries_given : ∀ e ∈ a.entries, a.given.Given e.name
  entries_nodup : (a.entries.map ValueScope.Entry.name).Nodup
  belongs : ∀ e ∈ a.entries, e.Belongs P a
  defined_given : ∀ f ∈ a.defined, a.given.Given f
  defined_nodup : a.defined.Nodup
  filled : ∀ f, some f ∈ a.slots → f ∈ a.defined
  keys_nodup : (a.session.targets.map Prod.fst).Nodup
  key_eq : ∀ e ∈ a.session.targets, e.2.place.key = e.1
  done : ∀ e ∈ a.session.targets, ∀ f, e.2.progress = .done f → f ∈ a.defined

/-- What a program becomes by work that may have been broken off: it has grown at its ends. -/
structure Extends (a b : Assembly Session) : Prop where
  given : a.given ≤ b.given
  entries : a.entries <+: b.entries
  slots : a.slots <+: b.slots
  checkers : a.checkers <+: b.checkers
  outlines : a.outlines <+: b.outlines
  resources : b.session.resources = a.session.resources
  functions : b.library.functions = a.library.functions

/-- What a program becomes by work that came to an end: new slots are filled, what was begun is
finished, and the work goes on where it was. -/
structure Advance (a b : Assembly Session) : Prop extends Extends a b where
  new_defined : ∀ f ∈ b.defined, f ∈ a.defined ∨ ¬ a.given.Given f
  new_slots : ∀ i, a.slots.length ≤ i → b.slots[i]? ≠ some none
  settled : ∀ e ∈ b.session.targets, ∀ w f, e.2.progress = .compiling w f →
    e ∈ a.session.targets
  chain : b.session.chain = a.session.chain
  entryDocument : b.session.entryDocument = a.session.entryDocument

theorem Extends.refl (a : Assembly Session) : Extends a a :=
  ⟨le_rfl, List.prefix_refl _, List.prefix_refl _, List.prefix_refl _,
    List.prefix_refl _, rfl, rfl⟩

theorem Extends.trans (h : Extends a b) (h' : Extends b c) : Extends a c where
  given := le_trans h.given h'.given
  entries := h.entries.trans h'.entries
  slots := h.slots.trans h'.slots
  checkers := h.checkers.trans h'.checkers
  outlines := h.outlines.trans h'.outlines
  resources := h'.resources.trans h.resources
  functions := h'.functions.trans h.functions

theorem Extends.defined (h : Extends a b) : a.defined ⊆ b.defined :=
  (h.checkers.map Prod.fst).subset

namespace Advance

theorem refl (a : Assembly Session) : Advance a a where
  toExtends := .refl a
  new_defined := fun _ hf => .inl hf
  new_slots := fun i hi h => by
    rw [List.getElem?_eq_none hi] at h
    cases h
  settled := fun _ he _ _ _ => he
  chain := rfl
  entryDocument := rfl

theorem trans (h : Advance a b) (h' : Advance b c) : Advance a c where
  toExtends := h.toExtends.trans h'.toExtends
  new_defined := fun f hf => by
    rcases h'.new_defined f hf with hf | hf
    · exact h.new_defined f hf
    · exact .inr fun hg => hf (hg.mono h.given)
  new_slots := fun i hi hnone => by
    by_cases hlt : i < b.slots.length
    · have hb : b.slots[i]? = some none := by
        obtain ⟨more, hmore⟩ := h'.slots
        rw [← hnone, ← hmore, List.getElem?_append_left hlt]
      exact h.new_slots i hi hb
    · exact h'.new_slots i (Nat.le_of_not_lt hlt) hnone
  settled := fun e he w f hp => h.settled e (h'.settled e he w f hp) w f hp
  chain := h'.chain.trans h.chain
  entryDocument := h'.entryDocument.trans h.entryDocument

/-- What changes no more than the statements and the local names of the function at hand. -/
theorem of_eq (hl : b.library = a.library) (hs : b.session = a.session) : Advance a b := by
  obtain ⟨names, out, library, session⟩ := b
  cases hl
  cases hs
  exact { refl a with }

end Advance

theorem ValueScope.Entry.Belongs.mono (h : e.Belongs P a)
    (hd : a.defined ⊆ b.defined) (hs : a.slots.length ≤ b.slots.length) : e.Belongs P b := by
  cases h with
  | value d held live stored => exact .value d held live stored
  | function f live stored defined => exact .function f live stored (hd defined)
  | forward slot live stored reserved =>
    exact .forward slot live stored (Nat.lt_of_lt_of_le reserved hs)

namespace InOrder

theorem skip (h : InOrder P a) (hl : b.library = a.library)
    (ht : b.session.targets = a.session.targets)
    (hc : b.session.checkers = a.session.checkers) : InOrder P b := by
  obtain ⟨names, out, library, ⟨resources, targets, checkers, chain, document⟩⟩ := b
  cases hl
  cases ht
  cases hc
  exact { h with belongs := fun e he => (h.belongs e he).mono (fun _ => id) (Nat.le_refl _) }

theorem hold (h : InOrder P a) (stem : Stem)
    (hname : e.name = (a.given.next stem).1) (hbelongs : e.Belongs P b)
    (hs : b.session = a.session) (hg : b.given = (a.given.next stem).2)
    (he : b.entries = a.entries ++ [e]) (hslots : a.slots <+: b.slots)
    (hfilled : ∀ f, some f ∈ b.slots → some f ∈ a.slots) : InOrder P b := by
  have hdefined : b.defined = a.defined := by
    rw [Assembly.defined, Assembly.checkers, hs, Assembly.defined, Assembly.checkers]
  have hle : a.given ≤ b.given := hg ▸ a.given.le_next stem
  constructor
  case entries_given =>
    intro x hx
    rw [he, List.mem_append, List.mem_singleton] at hx
    rcases hx with hx | rfl
    · exact (h.entries_given x hx).mono hle
    · rw [hname, hg]
      exact a.given.given_next stem
  case entries_nodup =>
    rw [he, List.map_append]
    refine Assoc.nodup_concat h.entries_nodup fun hn => ?_
    obtain ⟨x, hx, heq⟩ := List.mem_map.1 hn
    exact a.given.not_given_next stem (hname ▸ heq ▸ h.entries_given x hx)
  case belongs =>
    intro x hx
    rw [he, List.mem_append, List.mem_singleton] at hx
    rcases hx with hx | rfl
    · exact (h.belongs x hx).mono (hdefined ▸ List.Subset.refl _) hslots.length_le
    · exact hbelongs
  case defined_given => exact fun f hf => (h.defined_given f (hdefined ▸ hf)).mono hle
  case defined_nodup => rw [hdefined]; exact h.defined_nodup
  case filled => exact fun f hf => hdefined ▸ h.filled f (hfilled f hf)
  case keys_nodup => rw [hs]; exact h.keys_nodup
  case key_eq => rw [hs]; exact h.key_eq
  case done => rw [hs, hdefined]; exact h.done

end InOrder

/-! ## Work on a program -/

def CompileError.AboutSlot : CompileError → Prop
  | .unfilledSlot _ => True
  | _ => False

/-- From a program in order, a computation gives something with a property and leaves a program in
order, or it fails, for no want of a slot, and the program has grown all the same. -/
def Works (P : Descriptor → Prop) (x : Planner α) (a : Assembly Session)
    (Q : α → Assembly Session → Prop) : Prop :=
  InOrder P a →
    match ran x a with
    | (.ok r, b) => InOrder P b ∧ Advance a b ∧ Q r b
    | (.error e, b) => Extends a b ∧ ¬ e.AboutSlot

def Keeps (P : Descriptor → Prop) (x : Planner α) : Prop := ∀ a, Works P x a fun _ _ => True

namespace Works

variable {x : Planner α} {Q : α → Assembly Session → Prop} {R : β → Assembly Session → Prop}

theorem of_ran (h : ran x a = (.ok r, b))
    (hb : InOrder P a → InOrder P b ∧ Advance a b) (hq : Q r b) : Works P x a Q := by
  intro ha
  rw [h]
  exact ⟨(hb ha).1, (hb ha).2, hq⟩

theorem pure (h : Q r a) : Works P (Pure.pure r) a Q :=
  of_ran rfl (fun ha => ⟨ha, .refl a⟩) h

theorem throw {e : CompileError} (h : ¬ e.AboutSlot) : Works P (MonadExcept.throw e) a Q :=
  fun _ => ⟨.refl a, h⟩

theorem bind (h : Works P x a Q)
    (hf : ∀ r b, InOrder P b → Advance a b → Q r b → Works P (f r) b R) :
    Works P (x >>= f) a R := by
  intro ha
  have hx := h ha
  rw [ran_bind]
  rcases hr : ran x a with ⟨e | r, b⟩
  · rw [hr] at hx
    exact hx
  · rw [hr] at hx
    obtain ⟨hb, hab, hq⟩ := hx
    have hy := hf r b hb hab hq hb
    rw [follow_ok]
    rcases hr' : ran (f r) b with ⟨e | q, c⟩
    · rw [hr'] at hy
      exact ⟨hab.toExtends.trans hy.1, hy.2⟩
    · rw [hr'] at hy
      exact ⟨hy.1, hab.trans hy.2.1, hy.2.2⟩

theorem mono {Q' : α → Assembly Session → Prop} (h : Works P x a Q)
    (hq : ∀ r b, InOrder P b → Advance a b → Q r b → Q' r b) : Works P x a Q' := by
  intro ha
  have hx := h ha
  rcases hr : ran x a with ⟨e | r, b⟩
  · rw [hr] at hx
    exact hx
  · rw [hr] at hx
    exact ⟨hx.1, hx.2.1, hq r b hx.1 hx.2.1 hx.2.2⟩

end Works

namespace Keeps

variable {x : Planner α}

theorem pure (r : α) : Keeps P (Pure.pure r : Planner α) := fun _ => .pure trivial

theorem throw {e : CompileError} (h : ¬ e.AboutSlot) :
    Keeps P (MonadExcept.throw e : Planner α) := fun _ => .throw h

theorem bind (h : Keeps P x) (hf : ∀ r, Keeps P (f r)) :
    Keeps P (x >>= f) := fun a => (h a).bind fun r b _ _ _ => hf r b

theorem map {g : α → β} (h : Keeps P x) : Keeps P (do return g (← x)) :=
  h.bind fun r => .pure (g r)

theorem mapM {xs : List α} (h : ∀ x ∈ xs, Keeps P (f x)) : Keeps P (xs.mapM f) := by
  induction xs with
  | nil => exact .pure _
  | cons x xs ih =>
    rw [List.mapM_cons]
    exact (h x (by simp)).bind fun r => (ih fun y hy => h y (by simp [hy])).map

theorem of_ran {f : Assembly Session → α} {g : Assembly Session → Assembly Session}
    (h : ∀ a, ran x a = (.ok (f a), g a)) (hl : ∀ a, (g a).library = a.library)
    (hs : ∀ a, (g a).session = a.session) : Keeps P x := fun a =>
  .of_ran (h a) (fun ha => ⟨ha.skip (hl a) (by rw [hs]) (by rw [hs]), .of_eq (hl a) (hs a)⟩) trivial

theorem fresh (stem : LocalStem) : Keeps P (Gen.fresh stem : Planner Name) :=
  of_ran (fun _ => rfl) (fun _ => rfl) fun _ => rfl

theorem checked (r : Except Misuse α) : Keeps P (Gen.checked r : Planner α) := by
  cases r with
  | error m => exact .throw id
  | ok a => exact .pure a

end Keeps

theorem works_session (a : Assembly Session) :
    Works P Gen.session a fun s b => b = a ∧ s = a.session :=
  .of_ran rfl (fun ha => ⟨ha, .refl a⟩) ⟨rfl, rfl⟩

/-! ## Values -/

theorem works_value (stem : Stem)
    (h : ∀ n r, ValueScope.Entry.Belongs P a ⟨n, r, d.live, d.stored⟩) :
    Works P (Gen.value stem d) a fun _ _ => True := by
  rcases ran_value stem d a with ⟨e, -, -, -, hran⟩ | hran
  · exact .of_ran hran (fun ha => ⟨ha, .refl a⟩) trivial
  · refine .of_ran hran (fun ha => ⟨?_, ?_⟩) trivial
    · exact ha.hold stem rfl ((h _ _).mono (List.Subset.refl _) (Nat.le_refl _)) rfl rfl rfl
        (List.prefix_refl _) fun _ => id
    · exact { Advance.refl a with
        given := a.given.le_next stem
        entries := List.prefix_append _ _ }

theorem Keeps.value (stem : Stem) (h : P d) : Keeps P (Gen.value stem d : Planner Name) :=
  fun _ => works_value stem fun _ _ => .value d h rfl rfl

end SchemaCompiler

import Mathlib.Data.List.Nodup
import SchemaCompiler.Keyword.Reference
import SchemaCompiler.Proofs.Plan.Scoping

/-!
# Programs that hang together

While plans are made, the program that they are for grows: values are held, places get functions of
their own, functions are finished. `Growth` says that nothing is taken back on the way, and
`Coherent` what holds all the time: no name is given twice, what stands for a function stands for
one that is called as its callers expect, and the plans of finished functions fit.
-/
namespace SchemaCompiler

open Machine

variable {c : Checker} {f n : Name} {key : String} {e : ValueScope.Entry}

/-! ## The state of a program -/

namespace Assembly

variable (a : Assembly Session)

def entries : List ValueScope.Entry := a.library.scope.entries

def given : Counters := a.library.scope.names

def slots : List (Option Name) := a.library.scope.slots

def checkers : List (Name × Checker) := a.session.checkers

def checker? (f : Name) : Option Checker := Assoc.get? f a.session.checkers

def target? (key : String) : Option Target := Assoc.get? key a.session.targets

def outlines : List (String × Location × Bool) :=
  a.session.targets.map fun e => (e.1, e.2.place, e.2.isAsync)

def Has (n : Name) : Prop := ∃ e ∈ a.entries, e.name = n

end Assembly

/-- The code of a function uses its parameters, names of a kind, and its own variables. -/
def Checker.Grounded (H : Name → Prop) (c : Checker) : Prop :=
  ∀ m, Stmt.Known (fun n => n ∈ parameters ∨ n = c.before ∨ H n) (c.plan.code m)

theorem Checker.Grounded.mono {H H' : Name → Prop} (h : c.Grounded H)
    (hh : ∀ n, H n → H' n) : c.Grounded H' :=
  fun m => (h m).mono fun n => Or.imp_right (Or.imp_right (hh n))

namespace ValueScope.Entry

def StandsFor (e : ValueScope.Entry) (key : String) : Prop :=
  ∃ stem, (stem = Reference.validateStem ∨ stem = ValueScope.wrapperStem) ∧
    e.recognition = some (stem.text, .key ("env:" ++ key))

def IsFunction (e : ValueScope.Entry) : Prop :=
  (∃ f, e.live = some (.function f) ∨ e.stored = some (.function f)) ∨
    ∃ slot, e.live = some (.forward slot) ∨ e.stored = some (.forward slot)

end ValueScope.Entry

/-- A name by which the function of some place is called, in the way that place asks for. -/
def Assembly.Calls (a : Assembly Session) (n : Name) (isAsync : Bool) : Prop :=
  ∃ e ∈ a.entries, e.name = n ∧ ∃ key t, e.StandsFor key ∧ a.target? key = some t ∧
    t.isAsync = isAsync

def Assembly.Finished (a : Assembly Session) (key : String) (f : Name) : Prop :=
  ∃ t, a.target? key = some t ∧ t.progress = .done f

/-- What a target becomes: it stays where it is, and what has been begun is not begun again. -/
structure Target.Becomes (t t' : Target) : Prop where
  isAsync : t'.isAsync = t.isAsync
  place : t'.place = t.place
  progress : t.progress ≠ .pending → t'.progress = t.progress

/-- What a program grows into. -/
structure Growth (a b : Assembly Session) : Prop where
  given : a.given ≤ b.given
  entries : a.entries <+: b.entries
  new_entries : ∀ e ∈ b.entries, e ∈ a.entries ∨
    ¬ a.given.Given e.name ∧ ∀ slot, e.live = some (.forward slot) → a.slots.length ≤ slot
  slots : a.slots <+: b.slots
  checkers : a.checkers <+: b.checkers
  new_checkers : ∀ f ∈ b.checkers.map Prod.fst, f ∈ a.checkers.map Prod.fst ∨ ¬ a.given.Given f
  targets : ∀ key t, a.target? key = some t → ∃ t', b.target? key = some t' ∧ t.Becomes t'
  outlines : a.outlines <+: b.outlines

namespace Growth

variable {a b c : Assembly Session}

theorem refl (a : Assembly Session) : Growth a a where
  given := le_rfl
  entries := List.prefix_refl _
  new_entries := fun _ he => .inl he
  slots := List.prefix_refl _
  checkers := List.prefix_refl _
  new_checkers := fun _ hf => .inl hf
  targets := fun _ t ht => ⟨t, ht, rfl, rfl, fun _ => rfl⟩
  outlines := List.prefix_refl _

variable (h : Growth a b)

include h

theorem trans (h' : Growth b c) : Growth a c where
  given := le_trans h.given h'.given
  entries := h.entries.trans h'.entries
  new_entries := fun e he => by
    rcases h'.new_entries e he with he | ⟨he, hslot⟩
    · exact h.new_entries e he
    · exact .inr ⟨fun hg => he (hg.mono h.given), fun slot hl =>
        Nat.le_trans h.slots.length_le (hslot slot hl)⟩
  slots := h.slots.trans h'.slots
  checkers := h.checkers.trans h'.checkers
  new_checkers := fun f hf => by
    rcases h'.new_checkers f hf with hf | hf
    · exact h.new_checkers f hf
    · exact .inr fun hg => hf (hg.mono h.given)
  targets := fun key t ht => by
    obtain ⟨t', ht', hb⟩ := h.targets key t ht
    obtain ⟨t'', ht'', hb'⟩ := h'.targets key t' ht'
    refine ⟨t'', ht'', hb'.isAsync.trans hb.isAsync, hb'.place.trans hb.place, fun hne => ?_⟩
    have hprogress := hb.progress hne
    rw [hb'.progress (by rwa [hprogress]), hprogress]
  outlines := h.outlines.trans h'.outlines

theorem checker? {c : Checker} (hc : a.checker? f = some c) : b.checker? f = some c := by
  obtain ⟨rest, hrest⟩ := h.checkers
  have hr : b.session.checkers = a.session.checkers ++ rest := hrest.symm
  rw [Assembly.checker?, hr]
  exact Assoc.get?_append_of_some hc rest

theorem has (hn : a.Has n) : b.Has n :=
  hn.imp fun _ he => ⟨h.entries.subset he.1, he.2⟩

theorem calls {isAsync : Bool} (hc : a.Calls n isAsync) : b.Calls n isAsync := by
  obtain ⟨e, he, hn, key, t, hs, ht, ha⟩ := hc
  obtain ⟨t', ht', hb⟩ := h.targets key t ht
  exact ⟨e, h.entries.subset he, hn, key, t', hs, ht', hb.isAsync.trans ha⟩

theorem finished (hf : a.Finished key f) : b.Finished key f := by
  obtain ⟨t, ht, hp⟩ := hf
  obtain ⟨t', ht', hb⟩ := h.targets key t ht
  exact ⟨t', ht', by rw [hb.progress (by simp [hp]), hp]⟩

end Growth

/-- What holds of a program all the time. -/
structure Coherent (a : Assembly Session) : Prop where
  entries_given : ∀ e ∈ a.entries, a.given.Given e.name
  entries_nodup : (a.entries.map ValueScope.Entry.name).Nodup
  named : ∀ e ∈ a.entries, ∃ (stem : Stem) (k : Nat), e.name = stem.name k ∧
    ∀ text r, e.recognition = some (text, r) → text = stem.text
  reserved : ∀ e ∈ a.entries, e.name.Reserved
  checkers_given : ∀ f ∈ a.checkers.map Prod.fst,
    ∃ k, f = Reference.validateStem.name k ∧ k < a.given.count Reference.validateStem.text
  checkers_nodup : (a.checkers.map Prod.fst).Nodup
  disjoint : ∀ e ∈ a.entries, e.name ∉ a.checkers.map Prod.fst
  not_routine : ∀ e ∈ a.entries, e.IsFunction → ¬ e.name.Routine
  slot_lt : ∀ e ∈ a.entries, ∀ slot, e.live = some (.forward slot) → slot < a.slots.length
  serves : ∀ e ∈ a.entries, ∀ key, e.StandsFor key →
    (∃ f, e.live = some (.function f) ∧ a.Finished key f) ∨
      ∃ slot, e.live = some (.forward slot) ∧
        ∀ f, a.slots[slot]? = some (some f) → a.Finished key f
  target_key : ∀ key t, a.target? key = some t → t.place.key = key
  done : ∀ key t f, a.target? key = some t → t.progress = .done f →
    ∃ c, a.checker? f = some c ∧ c.isAsync = t.isAsync
  owned : ∀ f ∈ a.checkers.map Prod.fst, ∃ key, a.Finished key f
  compiling : ∀ key t w f, a.target? key = some t → t.progress = .compiling w f →
    ∃ e ∈ a.entries, e.name = w ∧ e.StandsFor key
  fits : ∀ f c, a.checker? f = some c → c.Fits a.Calls
  grounded : ∀ f c, a.checker? f = some c → c.Grounded a.Has

namespace Coherent

variable {a b : Assembly Session}

theorem checker_fits (h : Coherent a) (hg : Growth a b)
    (hc : a.checker? f = some c) : c.Fits b.Calls where
  plan := (h.fits f c hc).plan.mono fun _ _ => hg.calls
  stays := (h.fits f c hc).stays
  fresh := (h.fits f c hc).fresh
  composes := (h.fits f c hc).composes

theorem not_mem_of_not_given (h : Coherent a) (hf : ¬ a.given.Given f) :
    f ∉ a.checkers.map Prod.fst := by
  intro hmem
  obtain ⟨k, rfl, hk⟩ := h.checkers_given f hmem
  exact hf ⟨_, k, rfl, hk⟩

/-- A target that is new or begun: it has a place, and a value stands for it where it is being
compiled. -/
structure Begun (a : Assembly Session) (key : String) (t : Target) : Prop where
  place : t.place.key = key
  not_done : ∀ f, t.progress ≠ .done f
  compiling : ∀ w f, t.progress = .compiling w f → ∃ e ∈ a.entries, e.name = w ∧ e.StandsFor key

/-- How targets go on: those that there were become others, and the rest are begun. -/
structure Retargets (a b : Assembly Session) : Prop where
  becomes : ∀ key t, a.target? key = some t → ∃ t', b.target? key = some t' ∧ t.Becomes t'
  begun : ∀ key t, b.target? key = some t → a.target? key = some t ∨ Begun a key t
  outlines : a.outlines <+: b.outlines

theorem Retargets.of_eq (h : b.session.targets = a.session.targets) : Retargets a b := by
  have htarget : ∀ key, b.target? key = a.target? key := fun key => by
    rw [Assembly.target?, h, Assembly.target?]
  have houtlines : b.outlines = a.outlines := by rw [Assembly.outlines, h, Assembly.outlines]
  exact ⟨fun key t ht => ⟨t, by rw [htarget, ht], rfl, rfl, fun _ => rfl⟩,
    fun key t ht => .inl (htarget key ▸ ht), houtlines ▸ List.prefix_refl _⟩

/-- A value that may be added: its name is new, and what it stands for is finished, or it has a slot
that is new. -/
structure Added (a b : Assembly Session) (e : ValueScope.Entry) : Prop where
  not_given : ¬ a.given.Given e.name
  given : b.given.Given e.name
  named : ∃ (stem : Stem) (k : Nat), stem.isReserved = true ∧ e.name = stem.name k ∧
    ∀ text r, e.recognition = some (text, r) → text = stem.text
  not_routine : e.IsFunction → ¬ e.name.Routine
  slot : ∀ slot, e.live = some (.forward slot) → a.slots.length ≤ slot ∧ slot < b.slots.length
  serves : ∀ key, e.StandsFor key → (∃ f, e.live = some (.function f) ∧ a.Finished key f) ∨
    ∃ slot, e.live = some (.forward slot)

section

variable (h : Coherent a) (hc : b.session.checkers = a.session.checkers)

include h hc

theorem grow (hg : a.given ≤ b.given) (ht : Retargets a b) (he : a.entries <+: b.entries)
    (hnodup : (b.entries.map ValueScope.Entry.name).Nodup)
    (hnew : ∀ e ∈ b.entries, e ∈ a.entries ∨ Added a b e) (hslots : a.slots <+: b.slots)
    (hunfilled : ∀ (i : Nat) (f : Name), b.slots[i]? = some (some f) → a.slots[i]? = some (some f)) :
    Coherent b ∧ Growth a b := by
  have hchecker : ∀ f, b.checker? f = a.checker? f := fun f => by
    rw [Assembly.checker?, hc, Assembly.checker?]
  have hcheckers : b.checkers = a.checkers := hc
  have hgrowth : Growth a b :=
    { given := hg
      entries := he
      new_entries := fun e hmem =>
        (hnew e hmem).imp_right fun hadded => ⟨hadded.not_given, fun s hl => (hadded.slot s hl).1⟩
      slots := hslots
      checkers := hcheckers ▸ List.prefix_refl _
      new_checkers := fun f hmem => .inl (hcheckers ▸ hmem)
      targets := ht.becomes
      outlines := ht.outlines }
  refine ⟨?_, hgrowth⟩
  constructor
  case entries_given =>
    exact fun e hmem => (hnew e hmem).elim (fun hold => (h.entries_given e hold).mono hg) (·.given)
  case entries_nodup => exact hnodup
  case named =>
    exact fun e hmem => (hnew e hmem).elim (h.named e) fun hadded =>
      hadded.named.imp fun _ ⟨k, _, hname⟩ => ⟨k, hname⟩
  case reserved =>
    exact fun e hmem => (hnew e hmem).elim (h.reserved e) fun hadded =>
      hadded.named.imp fun _ ⟨k, hstem, hname, _⟩ => ⟨k, hstem, hname⟩
  case checkers_given =>
    intro f hmem
    obtain ⟨k, hf, hk⟩ := h.checkers_given f (hcheckers ▸ hmem)
    exact ⟨k, hf, Nat.lt_of_lt_of_le hk (hg _)⟩
  case checkers_nodup => rw [hcheckers]; exact h.checkers_nodup
  case disjoint =>
    rw [hcheckers]
    exact fun e hmem => (hnew e hmem).elim (h.disjoint e) fun hadded =>
      h.not_mem_of_not_given hadded.not_given
  case not_routine => exact fun e hmem => (hnew e hmem).elim (h.not_routine e) (·.not_routine)
  case slot_lt =>
    intro e hmem slot hl
    rcases hnew e hmem with hold | hadded
    · exact Nat.lt_of_lt_of_le (h.slot_lt e hold slot hl) hslots.length_le
    · exact (hadded.slot slot hl).2
  case serves =>
    intro e hmem key hkey
    rcases hnew e hmem with hold | hadded
    · rcases h.serves e hold key hkey with ⟨f, hl, hf⟩ | ⟨slot, hl, hf⟩
      · exact .inl ⟨f, hl, hgrowth.finished hf⟩
      · exact .inr ⟨slot, hl, fun f hfill => hgrowth.finished (hf f (hunfilled slot f hfill))⟩
    · rcases hadded.serves key hkey with ⟨f, hl, hf⟩ | ⟨slot, hl⟩
      · exact .inl ⟨f, hl, hgrowth.finished hf⟩
      · refine .inr ⟨slot, hl, fun f hfill => ?_⟩
        have hin := List.getElem?_eq_some_iff.1 (hunfilled slot f hfill)
        exact absurd hin.1 (Nat.not_lt.2 (hadded.slot slot hl).1)
  case target_key =>
    exact fun key t htarget => (ht.begun key t htarget).elim (h.target_key key t) (·.place)
  case done =>
    intro key t f htarget hp
    rw [hchecker]
    exact (ht.begun key t htarget).elim (fun hold => h.done key t f hold hp) fun hbegun =>
      absurd hp (hbegun.not_done f)
  case owned =>
    intro f hmem
    obtain ⟨key, hf⟩ := h.owned f (hcheckers ▸ hmem)
    exact ⟨key, hgrowth.finished hf⟩
  case compiling =>
    intro key t w f htarget hp
    have hold : ∃ e ∈ a.entries, e.name = w ∧ e.StandsFor key :=
      (ht.begun key t htarget).elim (fun hold => h.compiling key t w f hold hp)
        fun hbegun => hbegun.compiling w f hp
    exact hold.imp fun _ hx => ⟨he.subset hx.1, hx.2⟩
  case fits => exact fun f c hc => h.checker_fits hgrowth (hchecker f ▸ hc)
  case grounded => exact fun f c hc => (h.grounded f c (hchecker f ▸ hc)).mono fun _ => hgrowth.has

theorem revise (he : b.entries = a.entries) (hslots : b.slots = a.slots)
    (hg : a.given ≤ b.given) (ht : Retargets a b) : Coherent b ∧ Growth a b :=
  h.grow hc hg ht (he ▸ List.prefix_refl _) (he ▸ h.entries_nodup) (fun _ hmem => .inl (he ▸ hmem))
    (hslots ▸ List.prefix_refl _) fun _ _ hf => hslots ▸ hf

theorem skip (hs : b.session.targets = a.session.targets) (he : b.entries = a.entries)
    (hslots : b.slots = a.slots) (hg : a.given ≤ b.given) : Coherent b ∧ Growth a b :=
  h.revise hc he hslots hg (.of_eq hs)

theorem hold {stem : Stem} (hs : b.session.targets = a.session.targets)
    (hg : b.given = (a.given.next stem).2) (he : b.entries = a.entries ++ [e])
    (hname : e.name = (a.given.next stem).1) (hstem : stem.isReserved = true)
    (hrec : ∀ text r, e.recognition = some (text, r) → text = stem.text)
    (hslots : a.slots <+: b.slots)
    (hunfilled : ∀ (i : Nat) (f : Name), b.slots[i]? = some (some f) →
      a.slots[i]? = some (some f)) (hroutine : e.IsFunction → ¬ e.name.Routine)
    (hslot : ∀ slot, e.live = some (.forward slot) →
      a.slots.length ≤ slot ∧ slot < b.slots.length)
    (hserves : ∀ key, e.StandsFor key → (∃ f, e.live = some (.function f) ∧ a.Finished key f) ∨
      ∃ slot, e.live = some (.forward slot)) : Coherent b ∧ Growth a b := by
  have hfresh : ¬ a.given.Given e.name := hname ▸ a.given.not_given_next stem
  have hadded : Added a b e :=
    ⟨hfresh, by rw [hg, hname]; exact a.given.given_next stem, ⟨stem, _, hstem, hname, hrec⟩,
      hroutine, hslot, hserves⟩
  refine h.grow hc (hg ▸ a.given.le_next stem) (.of_eq hs) (he ▸ List.prefix_append _ _) ?_
    (fun x hx => ?_) hslots hunfilled
  · rw [he, List.map_append]
    refine Assoc.nodup_concat h.entries_nodup fun hn => ?_
    obtain ⟨x, hx, heq⟩ := List.mem_map.1 hn
    exact hfresh (heq ▸ h.entries_given x hx)
  · rw [he, List.mem_append, List.mem_singleton] at hx
    exact hx.imp_right fun heq : x = e => heq ▸ hadded

end

theorem standsFor_inj {key' : String} (h : e.StandsFor key)
    (h' : e.StandsFor key') : key = key' := by
  obtain ⟨stem, -, hr⟩ := h
  obtain ⟨stem', -, hr'⟩ := h'
  rw [hr] at hr'
  simp only [Option.some.injEq, Prod.mk.injEq, Recognition.key.injEq] at hr'
  exact (String.append_right_inj _).1 hr'.2

/-- A function that has been compiled may be added, for the place that it is the function of. Its
name is given and is that of nothing else, its slot is that of the value that stands for it. -/
theorem finish (h : Coherent a) {t : Target} {w : Name} {slot k : Nat} (ht : a.target? key = some t)
    (hp : t.progress = .compiling w f)
    (hcheckers : b.session.checkers = a.session.checkers ++ [(f, c)])
    (htargets : b.session.targets =
      Assoc.insert key { t with progress := .done f } a.session.targets)
    (hentries : b.entries = a.entries) (hgiven : b.given = a.given)
    (hslots : b.slots = a.slots.set slot (some f)) (hf : f = Reference.validateStem.name k)
    (hk : k < a.given.count Reference.validateStem.text) (hnew : f ∉ a.checkers.map Prod.fst)
    (hfree : ∀ e ∈ a.entries, e.name ≠ f)
    (howner : ∀ e ∈ a.entries, e.live = some (.forward slot) → e.StandsFor key)
    (hasync : c.isAsync = t.isAsync) (hfits : c.Fits a.Calls) (hground : c.Grounded a.Has) :
    Coherent b := by
  have htarget : ∀ key', b.target? key' =
      if key' = key then some { t with progress := .done f } else a.target? key' := fun key' => by
    rw [Assembly.target?, htargets, Assoc.get?_insert, Assembly.target?]
  have hmem : b.checkers.map Prod.fst = a.checkers.map Prod.fst ++ [f] := by
    show b.session.checkers.map _ = _
    rw [hcheckers, List.map_append]
    rfl
  have hold : ∀ f' c', a.checker? f' = some c' → b.checker? f' = some c' := fun f' c' hc => by
    rw [Assembly.checker?, hcheckers]
    exact Assoc.get?_append_of_some hc _
  have hself : b.checker? f = some c := by
    have hnone : a.checker? f = none := Assoc.get?_eq_none_iff.2 hnew
    rw [Assembly.checker?, hcheckers, Assoc.get?_append_of_none hnone]
    simp [Assoc.get?]
  have hfinished : ∀ key' f', a.Finished key' f' → b.Finished key' f' := by
    rintro key' f' ⟨t', ht', hp'⟩
    have hne : key' ≠ key := by
      rintro rfl
      rw [ht] at ht'
      cases ht'
      rw [hp] at hp'
      cases hp'
    exact ⟨t', by rw [htarget, if_neg hne, ht'], hp'⟩
  have hown : b.Finished key f := ⟨_, by rw [htarget, if_pos rfl], rfl⟩
  have hcalls : ∀ n isAsync, a.Calls n isAsync → b.Calls n isAsync := by
    rintro n isAsync ⟨e, he, hn, key', t', hs, ht', ha⟩
    refine ⟨e, hentries ▸ he, hn, key', ?_⟩
    by_cases hkey : key' = key
    · subst hkey
      rw [ht] at ht'
      cases ht'
      exact ⟨{ t with progress := .done f }, hs, by rw [htarget, if_pos rfl], ha⟩
    · exact ⟨t', hs, by rw [htarget, if_neg hkey, ht'], ha⟩
  have hcases : ∀ f' c', b.checker? f' = some c' → a.checker? f' = some c' ∨ c' = c := by
    intro f' c' hc'
    rcases hcase : a.checker? f' with _ | c''
    · rw [Assembly.checker?, hcheckers, Assoc.get?_append_of_none hcase] at hc'
      simp only [Assoc.get?, List.lookup_cons] at hc'
      split at hc' <;> cases hc'
      exact .inr rfl
    · have := hold f' c'' hcase
      rw [hc'] at this
      exact .inl this.symm
  constructor
  case entries_given => rw [hentries, hgiven]; exact h.entries_given
  case entries_nodup => rw [hentries]; exact h.entries_nodup
  case named => rw [hentries]; exact h.named
  case reserved => rw [hentries]; exact h.reserved
  case checkers_given =>
    intro f' hf'
    rw [hgiven]
    rcases List.mem_append.1 (hmem ▸ hf') with hf' | hf'
    · exact h.checkers_given f' hf'
    · exact ⟨k, (List.mem_singleton.1 hf').trans hf, hk⟩
  case checkers_nodup => rw [hmem]; exact Assoc.nodup_concat h.checkers_nodup hnew
  case disjoint =>
    intro e he
    rw [hentries] at he
    rw [hmem, List.mem_append, List.mem_singleton]
    exact fun hor => hor.elim (h.disjoint e he) (hfree e he)
  case not_routine => rw [hentries]; exact h.not_routine
  case slot_lt => rw [hentries, hslots, List.length_set]; exact h.slot_lt
  case serves =>
    intro e he key' hkey'
    rw [hentries] at he
    rcases h.serves e he key' hkey' with ⟨f', hl, hf'⟩ | ⟨slot', hl, hf'⟩
    · exact .inl ⟨f', hl, hfinished key' f' hf'⟩
    · refine .inr ⟨slot', hl, fun f' hfill => ?_⟩
      rw [hslots] at hfill
      by_cases hslot : slot' = slot
      · subst hslot
        obtain rfl : key' = key := standsFor_inj hkey' (howner e he hl)
        have hlt := h.slot_lt e he slot' hl
        rw [List.getElem?_set_self hlt] at hfill
        cases hfill
        exact hown
      · rw [List.getElem?_set_ne (Ne.symm hslot)] at hfill
        exact hfinished key' f' (hf' f' hfill)
  case target_key =>
    intro key' t' ht'
    rw [htarget] at ht'
    split at ht'
    · rename_i heq
      cases ht'
      rw [heq]
      exact h.target_key key t ht
    · exact h.target_key key' t' ht'
  case done =>
    intro key' t' f' ht' hp'
    rw [htarget] at ht'
    split at ht'
    · cases ht'
      cases hp'
      exact ⟨c, hself, hasync⟩
    · obtain ⟨c', hc', ha'⟩ := h.done key' t' f' ht' hp'
      exact ⟨c', hold f' c' hc', ha'⟩
  case owned =>
    intro f' hf'
    rcases List.mem_append.1 (hmem ▸ hf') with hf' | hf'
    · obtain ⟨key', hf'⟩ := h.owned f' hf'
      exact ⟨key', hfinished key' f' hf'⟩
    · rw [List.mem_singleton.1 hf']
      exact ⟨key, hown⟩
  case compiling =>
    intro key' t' w' f' ht' hp'
    rw [hentries]
    rw [htarget] at ht'
    split at ht'
    · cases ht'
      cases hp'
    · exact h.compiling key' t' w' f' ht' hp'
  case fits =>
    intro f' c' hc'
    have hsame : c'.Fits a.Calls := (hcases f' c' hc').elim (h.fits f' c') fun heq => heq ▸ hfits
    exact ⟨hsame.plan.mono hcalls, hsame.stays, hsame.fresh, hsame.composes⟩
  case grounded =>
    intro f' c' hc'
    have hsame : c'.Grounded a.Has :=
      (hcases f' c' hc').elim (h.grounded f' c') fun heq => heq ▸ hground
    exact hsame.mono fun n hn => hn.imp fun e he => ⟨hentries ▸ he.1, he.2⟩

end Coherent
end SchemaCompiler

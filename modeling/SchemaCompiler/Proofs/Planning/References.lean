import SchemaCompiler.Proofs.Planning.Suits

/-!
# The plans of references

A place gets one function. Between the moment that it is begun and the moment that it is done, a
value stands for it, and the program around grows. When it is done, its slot is filled and its plan
joins those of the finished functions, which it can do because it fits.
-/
namespace SchemaCompiler

open Occurrence Reference

variable {α β : Type} {o : Occurrence} {a b c : Assembly Session} {x : Planner α}
  {Q P : α → Assembly Session → Prop} {t : Target} {f before n callee : Name} {place : Location}
  {key : String} {isAsync : Bool} {visit : Site → Planner Plan} {τ : Terms} {slot : Nat}
  {checker : Checker}

/-! ## Beginning a function -/

/-- A name for a function that is still to be compiled. -/
structure Named (a : Assembly Session) (f : Name) (b : Assembly Session) : Prop where
  session : b.session = a.session
  entries : b.entries = a.entries
  slots : b.slots = a.slots
  validate : ∃ k, f = validateStem.name k ∧ k < b.given.count validateStem.text
  given : b.given.Given f
  not_given : ¬ a.given.Given f

theorem makes_functionName : Makes (Gen.onScope (ValueScope.fresh validateStem)) a (Named a) := by
  refine .of_ran rfl (fun ha => ?_)
    (.of_targets rfl) le_rfl fun _ => ?_
  · exact ha.skip rfl rfl rfl rfl (a.given.le_next _)
  · refine ⟨rfl, rfl, rfl, ⟨_, rfl, ?_⟩, a.given.given_next _, a.given.not_given_next _⟩
    show _ < (a.given.next validateStem).2.count _
    rw [Counters.count_next_self]
    exact Nat.lt_succ_self _

/-- A value that stands for the function of a place, with a slot of its own. -/
structure Held (a : Assembly Session) (key : String) (slot : Nat) (wrapper : Name)
    (b : Assembly Session) : Prop where
  session : b.session = a.session
  given : a.given ≤ b.given
  slot_eq : slot = a.slots.length
  slot_lt : slot < b.slots.length
  wrapper : ∃ e ∈ b.entries, e.name = wrapper ∧ e.StandsFor key
  owner : ∀ e ∈ b.entries, e.live = some (.forward slot) → e.StandsFor key
  new : ∀ e ∈ b.entries, e ∈ a.entries ∨ e.live = some (.forward slot) ∧
    e.recognition = some (ValueScope.wrapperStem.text, .key ("env:" ++ key))

theorem getElem?_of_append_none {slots : List (Option Name)} {i : Nat}
    (h : (slots ++ [none])[i]? = some (some f)) : slots[i]? = some (some f) := by
  rw [List.getElem?_append] at h
  split at h
  · exact h
  · cases hk : i - slots.length <;> simp [hk] at h

def Assembly.slotted (a : Assembly Session) : Assembly Session :=
  { a with library := { a.library with scope :=
    { a.library.scope with slots := a.slots ++ [none] } } }

theorem Coherent.slotted (h : Coherent a) : Coherent a.slotted ∧ Growth a a.slotted :=
  h.grow rfl le_rfl (.of_eq rfl) (List.prefix_refl _) h.entries_nodup (fun _ he => .inl he)
    (List.prefix_append _ _) fun _ _ hf => getElem?_of_append_none hf

theorem Stem.not_routine_name {stem : Stem} (h : stem.text ∉ Name.routineStems) (k : Nat) :
    ¬ (stem.name k).Routine := by
  rintro ⟨other, j, hmem, hn⟩
  obtain ⟨rfl, -⟩ := Stem.name_inj.1 hn
  exact h hmem

def waiting (key : String) (slot : Nat) : Descriptor :=
  .keyed ("env:" ++ key) (.forward slot) (some (.forward slot))

abbrev reserving (key : String) : Planner (Nat × Name) :=
  Gen.onScope fun scope =>
    let (slot, wrapper, scope) := scope.reserve ("env:" ++ key)
    ((slot, wrapper), scope)

theorem ran_reserve (key : String) (a : Assembly Session) : ran (reserving key) a =
    (.ok (a.slots.length, (a.slotted.library.scope.value ValueScope.wrapperStem
        (waiting key a.slots.length)).1),
      { a with library := { a.library with scope :=
        (a.slotted.library.scope.value ValueScope.wrapperStem (waiting key a.slots.length)).2 } }) :=
  rfl

theorem makes_reserve (key : String) :
    Makes (reserving key) a fun r b => Held a key r.1 r.2 b := by
  have hold : Coherent a → ∀ e ∈ a.entries, e.live ≠ some _ :=
    fun ha e he hl => Nat.lt_irrefl _ (ha.slot_lt e he _ hl)
  rcases ValueScope.value_cases ValueScope.wrapperStem _
    a.slotted.library.scope with ⟨e, he, hrec, -, hv⟩ | ⟨-, hv⟩
  · have hran := ran_reserve key a
    rw [hv] at hran
    refine .of_ran hran (fun ha => ha.slotted) (.of_targets rfl) le_rfl
      fun ha => ?_
    refine ⟨rfl, le_rfl, rfl, ?_, ⟨e, he, rfl, _, .inr rfl, hrec⟩,
      fun e he hl => absurd hl (hold ha e he), fun _ he => .inl he⟩
    simp [Assembly.slotted, Assembly.slots]
  · have hran := ran_reserve key a
    rw [hv] at hran
    refine .of_ran hran (fun ha => ?_) (.of_targets rfl) le_rfl fun ha => ?_
    · refine @Coherent.hold _ _ _ ha rfl ValueScope.wrapperStem rfl rfl rfl rfl (by decide) ?_
        (List.prefix_append _ _) (fun i f hf => ?_) (fun _ => ?_) (fun slot hl => ?_)
        fun key' _ => .inr ⟨_, rfl⟩
      · rintro text r ⟨⟩
        rfl
      · exact getElem?_of_append_none hf
      · exact Stem.not_routine_name (by decide) _
      · cases hl
        exact ⟨Nat.le_refl _, by simp [Assembly.slots, Assembly.slotted]⟩
    · refine ⟨rfl, a.given.le_next _, rfl, by simp [Assembly.slots, Assembly.slotted],
        ⟨_, List.mem_append_right _ (List.mem_singleton_self _), rfl, _, .inr rfl, rfl⟩, ?_, ?_⟩
      · intro e he hl
        rcases List.mem_append.1 he with he | he
        · exact absurd hl (hold ha e he)
        · rw [List.mem_singleton.1 he]
          exact ⟨_, .inr rfl, rfl⟩
      · intro e he
        rcases List.mem_append.1 he with he | he
        · exact .inl he
        · rw [List.mem_singleton.1 he]
          exact .inr ⟨rfl, rfl⟩

theorem ran_fill (h : slot < a.slots.length) : ran (do
      let a ← get
      let scope ← Gen.checked (a.library.scope.fill slot f)
      set { a with library := { a.library with scope := scope } }
      Gen.modifySession fun s =>
        { s.setProgress key (.done f) with
          checkers := s.checkers ++ [(f, checker)]
          chain := s.chain.dropLast }
      return f) a =
    (.ok f, { a with
      library := { a.library with scope :=
        { a.library.scope with slots := a.slots.set slot (some f) } }
      session := { a.session.setProgress key (.done f) with
        checkers := a.session.checkers ++ [(f, checker)]
        chain := a.session.chain.dropLast } }) := by
  have hfill : a.library.scope.fill slot f
      = .ok { a.library.scope with slots := a.slots.set slot (some f) } := if_pos h
  simp [ran_bind, hfill, Gen.checked, Gen.modifySession]

theorem Session.targets_setProgress {s : Session} (h : Assoc.get? key s.targets = some t)
    (progress : Progress) : s.setProgress key progress =
      { s with targets := Assoc.insert key { t with progress := progress } s.targets } := by
  simp [setProgress, h]

def Assembly.begin (a : Assembly Session) (t : Target) (wrapper f : Name) (direct : Bool) :
    Assembly Session :=
  { a with session := { a.session with
    targets := Assoc.insert t.place.key { t with progress := .compiling wrapper f } a.session.targets
    chain := a.session.chain ++ [(t.place.key, direct)] } }

section Begin

variable {t : Target} {wrapper f : Name} {direct : Bool}

theorem Assembly.target?_begin (key : String) : (a.begin t wrapper f direct).target? key =
    if key = t.place.key then some { t with progress := .compiling wrapper f } else a.target? key := by
  simp only [Assembly.target?, Assembly.begin, Assoc.get?_insert]

theorem ran_begin (ht : a.target? t.place.key = some t) :
    ran (Gen.modifySession fun s : Session =>
      { s.setProgress t.place.key (.compiling wrapper f) with
        chain := s.chain ++ [(t.place.key, direct)] }) a
      = (.ok (), a.begin t wrapper f direct) := by
  have hset := Session.targets_setProgress ht (.compiling wrapper f)
  show ran (modify _) a = _
  rw [ran_modify]
  dsimp only
  rw [hset]
  rfl

theorem Coherent.begin (ha : Coherent a) (ht : a.target? t.place.key = some t)
    (hp : t.progress = .pending)
    (hw : ∃ e ∈ a.entries, e.name = wrapper ∧ e.StandsFor t.place.key) :
    Coherent (a.begin t wrapper f direct) ∧ Growth a (a.begin t wrapper f direct) := by
  have houtlines : (a.begin t wrapper f direct).outlines = a.outlines := Assoc.map_insert ht rfl
  refine ha.revise rfl rfl rfl le_rfl
    ⟨fun key t' ht' => ?_, fun key t' ht' => ?_, houtlines ▸ List.prefix_refl _⟩
  · rw [Assembly.target?_begin]
    split
    · rename_i heq
      subst heq
      obtain rfl : t = t' := by simpa [ht] using ht'
      exact ⟨_, rfl, rfl, rfl, fun hne => absurd hp hne⟩
    · exact ⟨t', ht', rfl, rfl, fun _ => rfl⟩
  · rw [Assembly.target?_begin] at ht'
    split at ht'
    · rename_i heq
      cases ht'
      refine .inr ⟨heq.symm, by simp, fun w f hc => ?_⟩
      cases hc
      exact heq ▸ hw
    · exact .inl ht'

end Begin

theorem ran_afresh (x : Planner α) (a : Assembly Session) : ran (Gen.afresh x) a =
    follow (fun r b => (.ok r, { b with names := a.names })) (ran x { a with names := .empty }) := by
  simp only [Gen.afresh, ran_bind, ran_get, ran_modify, follow_ok]
  rfl

theorem makes_afresh (h : Makes x { a with names := .empty } P) :
    Makes (Gen.afresh x) a fun r b => b.names = a.names ∧ ∃ names, P r { b with names := names } := by
  intro ha
  have hempty := ha.skip (b := { a with names := .empty }) rfl rfl rfl rfl le_rfl
  have hx := h hempty.1
  rw [ran_afresh]
  rcases hr : ran x { a with names := .empty } with ⟨e | r, b⟩
  · rw [hr] at hx
    exact hempty.2.trans hx
  · rw [hr] at hx
    obtain ⟨hb, hg, hs, -, hp⟩ := hx
    have hdone := hb.skip (b := { b with names := a.names }) rfl rfl rfl rfl le_rfl
    exact ⟨hdone.1, (hempty.2.trans hg).trans hdone.2, hs, le_rfl, rfl, b.names, hp⟩

theorem Context.old_of_reads_root (names : Counters) (h : (Context.root before).reads n) :
    names.Old n := by
  rcases h with h | h
  · refine Counters.old_of_not_endsInDigit _ ?_
    revert n
    decide
  · exact Counters.old_of_reserved _ h

/-- What is known where the plan of a whole function stands, if only some names can be read. -/
def Context.rootOver (R : Name → Prop) (before : Name) : Context :=
  { Context.root before with reads := R }

/-- The context of a whole function hosts the plan of its schema, if its parameters and the values
that the program holds can be read. -/
theorem Context.hosts_rootOver (t : Target) (schema : Json) {R : Name → Prop}
    (hb : b.names.Old before) (hroot : ∀ n, R n → (Context.root before).reads n)
    (hparameter : ∀ n ∈ Checker.parameters, R n) (hheld : ∀ n, n.Reserved → c.Has n → R n) :
    (Context.rootOver R before).Hosts b c (rootSite t schema before) := by
  have hdata : R dataName := hparameter _ (by decide)
  have hpath : R instancePathName := hparameter _ (by decide)
  have hrootData : R rootDataName := hparameter _ (by decide)
  refine ⟨⟨hheld, hdata, fun n hn => ?_, hpath, hrootData⟩, fun n hn => ?_, hdata, id, .inl rfl⟩
  · rw [List.mem_singleton.1 hn]
    exact hdata
  · rcases hn with hn | hn | rfl
    · exact Context.old_of_reads_root _ (hroot n hn)
    · exact hn.elim
    · exact hb

theorem Assembly.Calls.has (h : a.Calls n isAsync) : a.Has n := by
  obtain ⟨e, he, hn, -⟩ := h
  exact ⟨e, he, hn⟩

/-- A function whose plan fits where the parameters and what is held can be read uses nothing
else. -/
theorem Checker.grounded_of_fits (h : checker.plan.Fits b.Calls (.rootOver
      (fun n => n ∈ Checker.parameters ∨ n.Reserved ∧ b.Has n) checker.before)) :
    checker.Grounded b.Has := by
  intro m
  refine (h.known (fun n hn => (Option.some.inj hn).symm) m).mono fun n hn => ?_
  rcases hn with (hn | hn) | hn | ⟨isAsync, hn⟩
  · exact .inl hn
  · exact .inr (.inr hn.2)
  · exact .inr (.inl hn)
  · exact .inr (.inr hn.has)

theorem makes_checker (hv : Visits visit) (t : Target) :
    Makes (Reference.checker visit t) a fun c b => c.isAsync = t.isAsync ∧ c.Fits b.Calls ∧
      c.Grounded b.Has ∧ ∃ schema, t.place.schema? = some schema := by
  refine (makes_fresh errorsStem).bind fun before b _ _ hb hbefore => ?_
  split
  · exact .throw _
  · rename_i schema hschema
    refine (hv _ b).bind fun plan c _ hgc _ hplan =>
      .pure ⟨rfl, ⟨?_, hplan.stays, ?_, hplan.composes⟩, ?_, schema, hschema⟩
    · exact hplan.fits _ (Context.hosts_rootOver t schema hbefore.2 (fun _ => id)
        (fun _ => .inl) fun _ hr _ => .inr hr) rfl
    · exact fun hr => hbefore.1 (Context.old_of_reads_root _ hr)
    · refine Checker.grounded_of_fits (hplan.fits _ (Context.hosts_rootOver t schema hbefore.2
        (fun n hn => hn.imp_right And.left) (fun _ => .inl) fun _ hr hh => .inr ⟨hr, hh⟩) rfl)

/-! ## Finishing a function -/

/-- A function that is being compiled: its name and its slot are used for nothing else. -/
structure Underway (a : Assembly Session) (t : Target) (f : Name) (slot : Nat)
    (b : Assembly Session) : Prop where
  target : ∃ w, b.target? t.place.key = some { t with progress := .compiling w f }
  validate : ∃ k, f = validateStem.name k ∧ k < b.given.count validateStem.text
  not_given : ¬ a.given.Given f
  new : f ∉ b.checkers.map Prod.fst
  free : ∀ e ∈ b.entries, e.name ≠ f
  slot_ge : a.slots.length ≤ slot
  slot_lt : slot < b.slots.length
  owner : ∀ e ∈ b.entries, e.live = some (.forward slot) → e.StandsFor t.place.key

theorem Underway.begin (ha : Coherent a) {wrapper : Name} (hf : Named a f b)
    (hg : Growth b c) (hheld : Held b t.place.key slot wrapper c) (direct : Bool) :
    Underway a t f slot (c.begin t wrapper f direct) where
  target := ⟨wrapper, by rw [Assembly.target?_begin, if_pos rfl]⟩
  validate := by
    obtain ⟨k, hk, hlt⟩ := hf.validate
    exact ⟨k, hk, Nat.lt_of_lt_of_le hlt (hheld.given _)⟩
  not_given := hf.not_given
  new := by
    have hsame : c.checkers = a.checkers := by
      simp only [Assembly.checkers, hheld.session, hf.session]
    exact fun hmem => ha.not_mem_of_not_given hf.not_given (hsame ▸ hmem)
  free := fun e he heq => by
    rcases hg.new_entries e he with he | ⟨hng, -⟩
    · exact hf.not_given (heq ▸ ha.entries_given e (hf.entries ▸ he))
    · exact hng (heq ▸ hf.given)
  slot_ge := by
    rw [hheld.slot_eq, hf.slots]
  slot_lt := hheld.slot_lt
  owner := hheld.owner

theorem Underway.grow (h : Underway a t f slot b)
    (hg : Growth b c) (hf : b.given.Given f) : Underway a t f slot c where
  target := by
    obtain ⟨w, hw⟩ := h.target
    obtain ⟨t', ht', hbecomes⟩ := hg.targets _ _ hw
    obtain ⟨place, isAsync, progress⟩ := t'
    obtain ⟨hasync, hplace, hprogress⟩ := hbecomes
    simp_all
  validate := by
    obtain ⟨k, hk, hlt⟩ := h.validate
    exact ⟨k, hk, Nat.lt_of_lt_of_le hlt (hg.given _)⟩
  not_given := h.not_given
  new := fun hmem => (hg.new_checkers f hmem).elim h.new fun hng => hng hf
  free := fun e he => by
    rcases hg.new_entries e he with he | ⟨hng, -⟩
    · exact h.free e he
    · rintro rfl
      exact hng hf
  slot_ge := h.slot_ge
  slot_lt := Nat.lt_of_lt_of_le h.slot_lt hg.slots.length_le
  owner := fun e he hl => by
    rcases hg.new_entries e he with he | ⟨-, hslot⟩
    · exact h.owner e he hl
    · exact absurd (hslot slot hl) (Nat.not_le.2 h.slot_lt)

/-- The program when a function is finished: its slot is filled, and its plan is kept. -/
def Assembly.finish (b : Assembly Session) (t : Target) (f : Name) (slot : Nat) (c : Checker) :
    Assembly Session :=
  { b with
    library := { b.library with scope :=
      { b.library.scope with slots := b.slots.set slot (some f) } }
    session := { b.session with
      targets := Assoc.insert t.place.key { t with progress := .done f } b.session.targets
      checkers := b.session.checkers ++ [(f, c)]
      chain := b.session.chain.dropLast } }

theorem Assembly.target?_finish (b : Assembly Session) (t : Target) (f : Name) (slot : Nat)
    (c : Checker) (key : String) : (b.finish t f slot c).target? key =
      if key = t.place.key then some { t with progress := .done f } else b.target? key := by
  simp only [Assembly.target?, Assembly.finish, Assoc.get?_insert]

section Finish

variable {t : Target} {f : Name} {slot : Nat} {checker : Checker}

theorem Growth.finish (hg : Growth a b) (ht : a.target? t.place.key = some t)
    (hp : t.progress = .pending) (hu : Underway a t f slot b) :
    Growth a (b.finish t f slot checker) where
  given := hg.given
  entries := hg.entries
  new_entries := hg.new_entries
  slots := by
    obtain ⟨rest, hrest⟩ := hg.slots
    have hset : (b.finish t f slot checker).slots
        = a.slots ++ rest.set (slot - a.slots.length) (some f) := by
      show b.slots.set slot (some f) = _
      rw [← hrest, List.set_append_right _ _ hu.slot_ge]
    exact hset ▸ List.prefix_append _ _
  checkers := hg.checkers.trans (List.prefix_append _ _)
  new_checkers := fun f' hf' => by
    have hmem : f' ∈ b.checkers.map Prod.fst ∨ f' = f := by
      simpa [Assembly.checkers, Assembly.finish] using hf'
    rcases hmem with hmem | rfl
    · exact hg.new_checkers f' hmem
    · exact .inr hu.not_given
  targets := fun key t' ht' => by
    rw [Assembly.target?_finish]
    split
    · rename_i heq
      subst heq
      obtain rfl : t = t' := by simpa [ht] using ht'
      exact ⟨_, rfl, rfl, rfl, fun hne => absurd hp hne⟩
    · exact hg.targets key t' ht'
  outlines := by
    obtain ⟨w, hw⟩ := hu.target
    have houtlines : (b.finish t f slot checker).outlines = b.outlines := Assoc.map_insert hw rfl
    exact houtlines ▸ hg.outlines

theorem Coherent.finished (hb : Coherent b) (hu : Underway a t f slot b)
    (ha : checker.isAsync = t.isAsync) (hfits : checker.Fits b.Calls)
    (hground : checker.Grounded b.Has) : Coherent (b.finish t f slot checker) := by
  obtain ⟨w, htarget⟩ := hu.target
  obtain ⟨k, hk, hlt⟩ := hu.validate
  exact hb.finish htarget rfl rfl rfl rfl rfl rfl hk hlt hu.new hu.free hu.owner ha hfits
    hground

end Finish

theorem makes_compileTarget (hv : Visits visit) (ht : a.target? t.place.key = some t)
    (hp : t.progress = .pending) (direct : Bool) :
    Makes (compileTarget visit t direct) a fun f b => b.Finished t.place.key f := by
  refine .of_from fun ha => ?_
  unfold compileTarget
  rw [hp]
  refine MakesFrom.bind ha (.refl a) le_rfl (makes_functionName)
    fun f a₁ h₁ hg₁ _ _ hn₁ hf => ?_
  refine MakesFrom.bind h₁ hg₁ hn₁ (makes_reserve t.place.key)
    fun r a₂ h₂ hg₂ hg₁₂ _ hn₂ hheld => ?_
  obtain ⟨slot, wrapper⟩ := r
  have hsession : a₂.session = a.session := hheld.session.trans hf.session
  have ht₂ : a₂.target? t.place.key = some t := by
    rw [Assembly.target?, hsession]
    exact ht
  have hbegun : Coherent (a₂.begin t wrapper f direct) ∧ Growth a₂ _ :=
    h₂.begin ht₂ hp hheld.wrapper
  obtain ⟨h₃, hg₂₃⟩ := hbegun
  refine MakesFrom.step (ran_begin ht₂) ?_
  have hgiven₃ : a₂.given.Given f := hf.given.mono hheld.given
  have hu : Underway a t f slot _ := .begin ha hf hg₁₂ hheld direct
  refine MakesFrom.bind h₃ (hg₂.trans hg₂₃) hn₂ (makes_afresh (makes_checker hv t))
    fun checker a₄ h₄ hg₄ hg₃₄ hs₃₄ hn₄ hchecker => ?_
  obtain ⟨-, names, hasync, hfits, hground, -⟩ := hchecker
  have hu₄ := hu.grow hg₃₄ hgiven₃
  obtain ⟨w, htarget⟩ := hu₄.target
  unfold MakesFrom
  rw [ran_fill hu₄.slot_lt, Session.targets_setProgress htarget]
  refine ⟨h₄.finished hu₄ hasync hfits hground, hg₄.finish ht hp hu₄, ?_, hn₄, _,
    (Assembly.target?_finish ..).trans (if_pos rfl), rfl⟩
  -- what is being compiled at the end was so before the function was begun
  rintro key ⟨t', w, f', ht', hp'⟩
  have ht' := (Assembly.target?_finish ..).symm.trans ht'
  split at ht'
  · cases ht'
    cases hp'
  · rename_i hne
    obtain ⟨t'', w', f'', ht'', hp''⟩ := hs₃₄ key ⟨t', w, f', ht', hp'⟩
    rw [Assembly.target?_begin, if_neg hne] at ht''
    exact ⟨t'', w', f'', by rwa [Assembly.target?, ← hsession], hp''⟩

/-! ## Calls -/

theorem makes_functionValue (hf : a.Finished place.key f) :
    Makes (functionValue place f) a fun n b =>
      ∃ e ∈ b.entries, e.name = n ∧ e.StandsFor place.key := by
  rcases ran_value validateStem _ a with ⟨e, he, hrec, -, hran⟩ | hran
  · refine .of_ran hran (fun ha => ⟨ha, .refl a⟩) (.of_targets rfl) le_rfl fun _ => ?_
    exact ⟨e, he, rfl, _, .inl rfl, hrec⟩
  · refine .of_ran hran (fun ha => ?_) (.of_targets rfl) le_rfl fun _ => ?_
    · refine ha.hold rfl rfl rfl rfl rfl (by decide) ?_ (List.prefix_refl _) (fun _ _ => id)
        (fun _ => ?_) ?_ ?_
      · rintro text r ⟨⟩
        rfl
      · exact Stem.not_routine_name (by decide) _
      · rintro slot ⟨⟩
      · intro key hkey
        obtain rfl : place.key = key := Coherent.standsFor_inj ⟨_, .inl rfl, rfl⟩ hkey
        exact .inl ⟨f, rfl, hf⟩
    · exact ⟨_, List.mem_append_right _ (List.mem_singleton_self _), rfl, _, .inl rfl, rfl⟩

theorem Suits.call {invocation : Invocation}
    (hi : ∀ Γ : Context, Γ.Offers a b o .plain → invocation.Fits Γ)
    (hc : b.Calls callee invocation.isAsync) :
    Suits .plain o a (.call invocation callee [o.data, o.site.instancePath, .var o.site.rootData]) b :=
  ⟨fun Γ h => ⟨hi Γ h, ⟨h.seen.data, h.seen.path, h.seen.root, trivial⟩, hc, _, _, rfl, h.host.data⟩,
    rfl, by simp [Plan.declared], by simp [Plan.composes]⟩

theorem makes_callTarget (hc : a.Calls callee isAsync) :
    Makes (callTarget o isAsync callee) a (Suits .plain o a) := by
  unfold callTarget
  split
  · rename_i hasync
    subst hasync
    refine (makes_fresh errorsStem).bind fun before b _ hgb hb hbefore => ?_
    refine (makes_fresh exceptionStem).bind fun caught c _ hgc _ hcaught => .pure ?_
    refine Suits.call (fun Γ h => ⟨h.host.fresh hbefore,
      h.host.fresh (hcaught.mono hb le_rfl), ?_⟩) ((hgb.trans hgc).calls hc)
    rintro rfl
    exact hcaught.1 hbefore.2
  · rename_i hsync
    obtain rfl : isAsync = false := by simpa using hsync
    refine (makes_fresh validStem).bind fun valid b _ hgb _ hvalid => .pure ?_
    exact Suits.call (fun Γ h => h.host.fresh hvalid) (hgb.calls hc)

theorem Assembly.calls_of_target (he : ∃ e ∈ a.entries, e.name = n ∧ e.StandsFor key)
    (ht : a.target? key = some t) : a.Calls n t.isAsync := by
  obtain ⟨e, he, hn, hs⟩ := he
  exact ⟨e, he, hn, key, t, hs, ht, rfl⟩

theorem makes_callFinished (ht : a.target? place.key = some t) (hf : a.Finished place.key f) :
    Makes (do callTarget o t.isAsync (← functionValue place f)) a
      (Suits .plain o a) := by
  refine (makes_functionValue hf).bind fun n b _ hg hn he => ?_
  obtain ⟨t', ht', hbecomes⟩ := hg.targets _ _ ht
  have hcalls := Assembly.calls_of_target he ht'
  rw [hbecomes.isAsync] at hcalls
  exact (makes_callTarget hcalls).mono fun p c _ _ _ hp => hp.earlier hn

theorem makes_callPlace (hv : Visits o.visit) (ht : a.target? place.key = some t) :
    Makes (callPlace o place t) a (Suits .plain o a) := by
  refine .of_coherent fun ha => ?_
  unfold callPlace
  split
  · rename_i wrapper function hp
    refine (makes_session).bind fun s b _ _ _ hs => ?_
    obtain ⟨rfl, -⟩ := hs
    split
    · exact .pure .nothing
    · exact makes_callTarget (Assembly.calls_of_target (ha.compiling _ _ _ _ ht hp) ht)
  · rename_i hp
    have hkey : t.place.key = place.key := ha.target_key _ _ ht
    refine (makes_compileTarget hv (by rw [hkey]; exact ht) hp _).bind fun f b _ hg hn hf => ?_
    rw [hkey] at hf
    obtain ⟨t', ht', hbecomes⟩ := hg.targets _ _ ht
    have hcall := makes_callFinished (o := o) ht' hf
    rw [hbecomes.isAsync] at hcall
    exact hcall.mono fun p c _ _ _ hp => hp.earlier hn
  · rename_i f hp
    exact makes_callFinished ht ⟨t, ht, hp⟩

theorem makes_targetFor (place : Location) :
    Makes (Gen.setSession (a.session.targetFor place).2) a fun _ b =>
      b.target? place.key = some (a.session.targetFor place).1 := by
  unfold Session.targetFor
  split
  · rename_i t ht
    exact .of_ran rfl (fun ha => ⟨ha, .refl a⟩) (.of_targets rfl) le_rfl
      fun _ => ht
  · rename_i hnone
    refine .of_ran rfl (fun ha => ?_) ?_ le_rfl fun _ => ?_
    · refine ha.revise rfl rfl rfl le_rfl ⟨fun key t ht => ?_, fun key t ht => ?_, ?_⟩
      · refine ⟨t, ?_, rfl, rfl, fun _ => rfl⟩
        have hne : key ≠ place.key := by
          rintro rfl
          rw [Assembly.target?, hnone] at ht
          cases ht
        simpa [Assembly.target?, Assoc.get?_insert, hne] using ht
      · simp only [Assembly.target?, Assoc.get?_insert] at ht
        split at ht
        · rename_i heq
          cases ht
          exact .inr ⟨heq.symm, by simp, by simp⟩
        · exact .inl ht
      · simp only [Assembly.outlines, Assoc.insert_of_get?_eq_none hnone, List.map_append]
        exact List.prefix_append _ _
    · rintro key ⟨t, w, f, ht, hp⟩
      simp only [Assembly.target?, Assoc.get?_insert] at ht
      split at ht
      · cases ht
        cases hp
      · exact ⟨t, w, f, ht, hp⟩
    · simp [Assembly.target?, Assoc.get?_insert]

theorem makes_apply (hv : Visits o.visit) (dynamic : Bool) :
    Makes (Reference.apply dynamic o) a (Suits .plain o a) := by
  refine (makes_session).bind fun s b _ _ _ hs => ?_
  obtain ⟨rfl, rfl⟩ := hs
  split
  · unfold unresolved
    split
    · exact .throw _
    · exact .pure .nothing
    · exact .throw _
  · rename_i found _
    dsimp only
    generalize (if dynamic then Reference.override b.session found _ else found) = place
    refine (makes_targetFor place).bind fun _ c _ _ hn ht => ?_
    split
    · exact .throw _
    · refine Makes.mono (P := Suits .plain o c) ?_ fun p d _ _ _ hp => hp.earlier hn
      split
      · exact makes_require hv (by simp [Inner.elsewhere]) rfl
      · exact makes_callPlace hv ht

/-! ## Tags -/

theorem suits_choose {otherwise : Plan} (ho : Suits τ o a otherwise b) {cases : List (Expr × Plan)}
    (h : ∀ c ∈ cases, o.Knows τ b c.1 ∧ Suits τ o a c.2 b) :
    Suits τ o a (.choose otherwise cases) b := by
  induction cases with
  | nil => exact ho
  | cons c rest ih =>
    have hc := h _ (List.mem_cons_self ..)
    exact Suits.branch hc.1 (hc.2.mono (τ.within_given _ _))
      (ih fun c hc => h c (List.mem_cons_of_mem _ hc))

theorem Suits.report {params : List (String × Expr)} {message : Expr}
    (hp : ∀ p ∈ params, o.Knows τ b p.2) (hm : o.Knows τ b message) :
    Suits τ o a (.report (o.record params message) false) b :=
  ⟨fun Γ h => within_record h.seen (fun p hmem => hp p hmem Γ a h) (hm Γ a h), rfl,
    by simp [Plan.declared], by simp [Plan.composes]⟩

theorem makes_discriminator (hv : Visits o.visit) :
    Makes (Discriminator.plan o) a (Suits .plain o a) := by
  refine (makes_session).bind fun s b _ _ _ hs => ?_
  obtain ⟨rfl, rfl⟩ := hs
  generalize ((o.value.get? "propertyName").bind Json.string?).getD "" = property
  generalize Discriminator.tagsFrom _ _ _ _ _ _ = found
  cases found with
  | error e => exact .throw e
  | ok tags =>
    refine (Makes.pure (P := fun _ c => c = b) rfl).bind fun tags c _ _ _ hc => ?_
    subst hc
    refine (makes_fresh Discriminator.tagStem).bind fun tag d _ _ hd htag => ?_
    have hknown : ∀ b, o.Knows (Terms.plain.declare [tag]) b (.var tag) :=
      fun _ => knows_var (.inr (by simp [Terms.declare]))
    have hparams : ∀ b error, ∀ p ∈ Discriminator.params tag property error,
        o.Knows (Terms.plain.declare [tag]) b p.2 := by
      simpa [Discriminator.params] using fun b error => ⟨hknown b, knows_str _, knows_str error⟩
    refine (Makes.mapM (R := fun a b cases => ∀ c ∈ cases,
      o.Knows (Terms.plain.declare [tag]) b c.1 ∧ Suits (Terms.plain.declare [tag]) o a c.2 b)
      (by simp) (fun x _ a => ?_) d).bind fun selected e _ hge he hselected => .pure ?_
    · obtain ⟨branch, i⟩ := x
      refine (makes_require (τ := Terms.plain.declare [tag]) hv (by simp [Inner.here, Inner.inside])
        rfl).bind fun plan b _ hg hn hplan => .pure fun c cases hg' hn' hcases => ?_
      have hselects : o.Knows (Terms.plain.declare [tag]) c (Discriminator.selects tags tag i) := by
        refine Knows.any fun e he => ?_
        obtain ⟨p, -, rfl⟩ := List.mem_map.1 he
        exact (hknown c).binary (knows_str _) _
      intro x hx
      rcases List.mem_cons.1 hx with rfl | hx
      · exact ⟨hselects, hplan.later hg' hn'⟩
      · exact ⟨(hcases x hx).1, (hcases x hx).2.earlier hn⟩
    · have hquiet : Suits .plain o c
          (.quiet [.declare tag (some (.index o.data (.str property))) true]) d := by
        refine Suits.quiet (fun Γ h => ⟨⟨h.seen.data, trivial⟩, trivial⟩) ?_ ?_ rfl
        · simpa [Stmt.targetsOf, Stmt.targets] using Or.inr htag
        · simpa [Stmt.declaredOf, Stmt.declared] using htag
      refine hquiet.seq (suits_choose (Suits.report (hparams e _) (knows_str _)) ?_) hge hd he
      intro x hx
      rcases List.mem_cons.1 hx with rfl | hx
      · exact ⟨Knows.negate (hknown e), Suits.report (hparams e _) (knows_str _)⟩
      · exact hselected x hx

end SchemaCompiler

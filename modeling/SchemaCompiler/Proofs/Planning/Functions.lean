import SchemaCompiler.Proofs.Planning.Order

/-!
# Functions in order

The function of a place is compiled between two steps: a name and a slot are taken, and then the
slot is filled with the name and the plan is kept under it. In between the program is in order
already, though the slot is open; at the end there is one function more and nothing is left open.
-/
namespace SchemaCompiler

open Reference

variable {P : Descriptor → Prop} {a b c : Assembly Session}

/-! ## Places -/

variable (key : String) (p : Progress) (e : String × Target)

def Progress.put : String × Target :=
  if e.1 == key then (e.1, { e.2 with progress := p }) else e

@[simp] theorem Progress.put_fst : (p.put key e).1 = e.1 := by
  unfold put
  split <;> rfl

@[simp] theorem Progress.put_place : (p.put key e).2.place = e.2.place := by
  unfold put
  split <;> rfl

@[simp] theorem Progress.put_isAsync : (p.put key e).2.isAsync = e.2.isAsync := by
  unfold put
  split <;> rfl

theorem Progress.put_cases :
    (e.1 = key ∧ (p.put key e).2.progress = p) ∨ (e.1 ≠ key ∧ p.put key e = e) := by
  unfold put
  by_cases h : e.1 = key
  · exact .inl ⟨h, by simp [h]⟩
  · exact .inr ⟨h, by simp [h]⟩

theorem Session.setProgress_eq {s : Session} (h : (s.targets.map Prod.fst).Nodup) (key : String)
    (p : Progress) : s.setProgress key p = { s with targets := s.targets.map (p.put key) } := by
  unfold setProgress
  split
  · rename_i t ht
    rw [Assoc.insert_eq_map h ht]
    congr 1
    refine List.map_congr_left fun e he => ?_
    unfold Progress.put
    split
    · rename_i heq
      have hget : Assoc.get? key s.targets = some e.2 := by
        rw [Assoc.get?_eq_some_iff h, ← eq_of_beq heq]
        exact he
      rw [Option.some.inj (ht.symm.trans hget)]
    · rfl
  · rename_i hnone
    have hsame : s.targets.map (p.put key) = s.targets := by
      refine (List.map_congr_left fun e he => ?_).trans (List.map_id _)
      rcases p.put_cases key e with ⟨heq, -⟩ | ⟨-, hput⟩
      · exact absurd (List.mem_map.2 ⟨e, he, heq⟩) (Assoc.get?_eq_none_iff.1 hnone)
      · exact hput
    rw [hsame]

namespace InOrder

theorem put (h : InOrder P a) (key : String) {p : Progress}
    (hp : ∀ f, p = .done f → f ∈ a.defined) (hl : b.library = a.library)
    (ht : b.session.targets = a.session.targets.map (p.put key))
    (hc : b.session.checkers = a.session.checkers) : InOrder P b := by
  have hdefined : b.defined = a.defined := congrArg (List.map Prod.fst) hc
  obtain ⟨names, out, library, session⟩ := b
  cases hl
  constructor
  case entries_given => exact h.entries_given
  case entries_nodup => exact h.entries_nodup
  case belongs => exact fun e he => (h.belongs e he).mono (hdefined ▸ fun _ => id) (Nat.le_refl _)
  case defined_given => rw [hdefined]; exact h.defined_given
  case defined_nodup => rw [hdefined]; exact h.defined_nodup
  case filled => rw [hdefined]; exact h.filled
  case keys_nodup =>
    have hkeys : (a.session.targets.map (p.put key)).map Prod.fst
        = a.session.targets.map Prod.fst := by simp
    rw [ht, hkeys]
    exact h.keys_nodup
  case key_eq =>
    rw [ht, List.forall_mem_map]
    intro e he
    simpa using h.key_eq e he
  case done =>
    rw [ht, hdefined, List.forall_mem_map]
    intro e he f hf
    rcases p.put_cases key e with ⟨-, hput⟩ | ⟨-, hput⟩
    · exact hp f (hput ▸ hf)
    · exact h.done e he f (hput ▸ hf)

/-- A function is added, and a slot filled with it. -/
theorem define (h : InOrder P a) {f : Name} {checker : Checker} {slot : Nat}
    (hf : a.given.Given f) (hnew : f ∉ a.defined) (hg : b.given = a.given)
    (he : b.entries = a.entries) (hslots : b.slots = a.slots.set slot (some f))
    (ht : b.session.targets = a.session.targets)
    (hc : b.session.checkers = a.session.checkers ++ [(f, checker)]) : InOrder P b := by
  have hdefined : b.defined = a.defined ++ [f] := by
    simp [Assembly.defined, Assembly.checkers, hc]
  have hsub : a.defined ⊆ b.defined := hdefined ▸ List.subset_append_left _ _
  constructor
  case entries_given => rw [he, hg]; exact h.entries_given
  case entries_nodup => rw [he]; exact h.entries_nodup
  case belongs =>
    rw [he]
    exact fun e he => (h.belongs e he).mono hsub (by rw [hslots, List.length_set])
  case defined_given =>
    intro g hmem
    rw [hdefined, List.mem_append, List.mem_singleton] at hmem
    rw [hg]
    exact hmem.elim (h.defined_given g) fun heq => heq ▸ hf
  case defined_nodup => rw [hdefined]; exact Assoc.nodup_concat h.defined_nodup hnew
  case filled =>
    intro g hmem
    rw [hslots] at hmem
    rcases List.mem_or_eq_of_mem_set hmem with hmem | heq
    · exact hsub (h.filled g hmem)
    · cases heq
      simp [hdefined]
  case keys_nodup => rw [ht]; exact h.keys_nodup
  case key_eq => rw [ht]; exact h.key_eq
  case done => rw [ht]; exact fun e he g hg => hsub (h.done e he g hg)

end InOrder

/-! ## From the beginning of a function to its end -/

/-- A program in which a function has been begun: its name is new, and its slot is the last one. -/
structure Begun (P : Descriptor → Prop) (a : Assembly Session) (key : String) (f : Name)
    (b : Assembly Session) : Prop where
  inOrder : InOrder P b
  extended : Extends a b
  not_given : ¬ a.given.Given f
  given : b.given.Given f
  slots : b.slots = a.slots ++ [none]
  checkers : b.session.checkers = a.session.checkers
  targets : ∃ w, b.session.targets = a.session.targets.map ((Progress.compiling w f).put key)
  chain : b.session.chain.dropLast = a.session.chain
  entryDocument : b.session.entryDocument = a.session.entryDocument

theorem InOrder.reserve (h : InOrder P a) (key : String) :
    ∃ wrapper b, ran (reserving key) a = (.ok (a.slots.length, wrapper), b) ∧
      InOrder P b ∧ b.session = a.session ∧ a.given ≤ b.given ∧ a.entries <+: b.entries ∧
      b.slots = a.slots ++ [none] ∧ b.library.functions = a.library.functions := by
  have hfilled : ∀ f, some f ∈ a.slots ++ [none] → some f ∈ a.slots := fun f hf => by simpa using hf
  have hran := ran_reserve key a
  rcases ValueScope.value_cases ValueScope.wrapperStem _
    a.slotted.library.scope with ⟨e, -, -, -, hv⟩ | ⟨-, hv⟩
  · rw [hv] at hran
    refine ⟨_, _, hran, ?_, rfl, le_rfl, List.prefix_refl _, rfl, rfl⟩
    have hslotted : InOrder P a.slotted :=
      { h with
        belongs := fun e he => (h.belongs e he).mono (fun _ => id) (by simp [Assembly.slots, Assembly.slotted])
        filled := fun f hf => h.filled f (hfilled f hf) }
    exact hslotted
  · rw [hv] at hran
    refine ⟨_, _, hran, ?_, rfl, a.given.le_next _, List.prefix_append _ _, rfl, rfl⟩
    refine h.hold ValueScope.wrapperStem rfl ?_ rfl rfl rfl (List.prefix_append _ _) hfilled
    exact .forward a.slots.length rfl rfl (by simp [Assembly.slots, Assembly.slotted])

theorem InOrder.open (h : InOrder P a) (key : String) (direct : Bool) :
    ∃ f wrapper a₁ a₂ b,
      ran (Gen.onScope (ValueScope.fresh validateStem)) a = (.ok f, a₁) ∧
      ran (reserving key) a₁ = (.ok (a.slots.length, wrapper), a₂) ∧
      ran (Gen.modifySession fun s : Session =>
        { s.setProgress key (.compiling wrapper f) with
          chain := s.chain ++ [(key, direct)] }) a₂ = (.ok (), b) ∧
      Begun P a key f b := by
  obtain ⟨f, hf⟩ : ∃ f, f = (a.given.next validateStem).1 := ⟨_, rfl⟩
  obtain ⟨a₁, ha₁⟩ : ∃ a₁, a₁ = { a with library := { a.library with scope :=
    { a.library.scope with names := (a.given.next validateStem).2 } } } := ⟨_, rfl⟩
  have hname : ran (Gen.onScope (ValueScope.fresh validateStem)) a = (.ok f, a₁) := by
    rw [hf, ha₁]
    rfl
  have h₁ : InOrder P a₁ := by
    have hle : a.given ≤ a₁.given := ha₁ ▸ a.given.le_next validateStem
    subst ha₁
    exact { h with
      entries_given := fun e he => (h.entries_given e he).mono hle
      belongs := fun e he => (h.belongs e he).mono (fun _ => id) (Nat.le_refl _)
      defined_given := fun g hg => (h.defined_given g hg).mono hle }
  obtain ⟨wrapper, a₂, hreserve, h₂, hsession, hgiven, hentries, hslots, hfunctions⟩ := h₁.reserve key
  have hsession₂ : a₂.session = a.session := hsession.trans (by rw [ha₁])
  have hslots₁ : a₁.slots = a.slots := by rw [ha₁]; rfl
  rw [hslots₁] at hreserve hslots
  obtain ⟨b, hb⟩ : ∃ b : Assembly Session, b = { a₂ with session := { a₂.session with
    targets := a₂.session.targets.map ((Progress.compiling wrapper f).put key)
    chain := a₂.session.chain ++ [(key, direct)] } } := ⟨_, rfl⟩
  have hmark : ran (Gen.modifySession fun s : Session =>
      { s.setProgress key (.compiling wrapper f) with
        chain := s.chain ++ [(key, direct)] }) a₂ = (.ok (), b) := by
    show ran (modify _) a₂ = _
    rw [ran_modify]
    dsimp only
    rw [Session.setProgress_eq h₂.keys_nodup, hb]
  refine ⟨f, wrapper, a₁, a₂, b, hname, hreserve, hmark, ?_⟩
  have hle : a.given ≤ a₁.given := ha₁ ▸ a.given.le_next validateStem
  have hgiven₁ : a₁.given.Given f := ha₁ ▸ hf ▸ a.given.given_next validateStem
  subst hb
  constructor
  case inOrder =>
    exact h₂.put key (p := .compiling wrapper f) (fun g hg => nomatch hg) rfl rfl rfl
  case extended =>
    refine ⟨le_trans hle hgiven, ?_, ?_, ?_, ?_, ?_, ?_⟩
    · exact (show a.entries = a₁.entries by rw [ha₁]; rfl) ▸ hentries
    · exact hslots ▸ List.prefix_append a.slots [none]
    · show a.session.checkers <+: a₂.session.checkers
      simp [hsession₂]
    · simp [Assembly.outlines, hsession₂, Function.comp_def]
    · rw [hsession₂]
    · exact hfunctions.trans (by rw [ha₁])
  case not_given => exact hf ▸ a.given.not_given_next validateStem
  case given => exact hgiven₁.mono hgiven
  case slots => exact hslots
  case checkers =>
    rw [hsession₂]
  case targets => exact ⟨wrapper, by rw [hsession₂]⟩
  case chain => simp [hsession₂]
  case entryDocument =>
    rw [hsession₂]

def Assembly.closed (c : Assembly Session) (key : String) (f : Name) (slot : Nat)
    (checker : Checker) : Assembly Session :=
  { c with
    library := { c.library with scope :=
      { c.library.scope with slots := c.slots.set slot (some f) } }
    session := { c.session with
      targets := c.session.targets.map ((Progress.done f).put key)
      checkers := c.session.checkers ++ [(f, checker)]
      chain := c.session.chain.dropLast } }

section Closed

variable {key : String} {f : Name} {checker : Checker}

theorem InOrder.closed (hc : InOrder P c) (hg : c.given.Given f) (hnew : f ∉ c.defined) (slot : Nat) :
    InOrder P (c.closed key f slot checker) := by
  have hdefined : InOrder P { c with
      library := { c.library with scope :=
        { c.library.scope with slots := c.slots.set slot (some f) } }
      session := { c.session with checkers := c.session.checkers ++ [(f, checker)] } } :=
    hc.define hg hnew rfl rfl rfl rfl rfl
  refine hdefined.put key (fun g hg => ?_) rfl rfl rfl
  cases hg
  simp [Assembly.defined, Assembly.checkers]

namespace Begun

theorem not_defined (h : Begun P a key f b) (ha : InOrder P a) (hbc : Advance b c) :
    f ∉ c.defined := by
  intro hmem
  rcases hbc.new_defined f hmem with hmem | hng
  · have hsame : b.defined = a.defined := congrArg (List.map Prod.fst) h.checkers
    exact h.not_given (ha.defined_given f (hsame ▸ hmem))
  · exact hng h.given

theorem advance_closed (h : Begun P a key f b) (hbc : Advance b c) :
    Advance a (c.closed key f a.slots.length checker) := by
  have hac := h.extended.trans hbc.toExtends
  obtain ⟨rest, hrest⟩ := hbc.slots
  rw [h.slots, List.append_assoc] at hrest
  have hslots : c.slots.set a.slots.length (some f) = a.slots ++ some f :: rest := by
    rw [← hrest, List.set_append_right _ _ (Nat.le_refl _), Nat.sub_self]
    rfl
  constructor
  case toExtends =>
    refine { hac with slots := ?_, checkers := ?_, outlines := ?_ }
    · exact ⟨some f :: rest, hslots.symm⟩
    · exact hac.checkers.trans (List.prefix_append _ _)
    · have hsame : (c.closed key f a.slots.length checker).outlines = c.outlines := by
        simp [Assembly.outlines, Assembly.closed]
      exact hsame ▸ hac.outlines
  case new_defined =>
    intro g hg
    have hcases : g ∈ c.defined ∨ g = f := by
      simpa [Assembly.defined, Assembly.checkers, Assembly.closed] using hg
    rcases hcases with hg | rfl
    · have hsame : b.defined = a.defined := congrArg (List.map Prod.fst) h.checkers
      rcases hbc.new_defined g hg with hg | hng
      · exact .inl (hsame ▸ hg)
      · exact .inr fun hgiven => hng (hgiven.mono h.extended.given)
    · exact .inr h.not_given
  case new_slots =>
    intro i hi hnone
    have hget : (c.slots.set a.slots.length (some f))[i]? = some none := hnone
    rw [List.getElem?_set] at hget
    split at hget
    · split at hget <;> cases hget
    · refine hbc.new_slots i ?_ hget
      rw [h.slots, List.length_append, List.length_singleton]
      omega
  case settled =>
    intro e' he' w g hp
    obtain ⟨e, he, rfl⟩ := List.mem_map.1 he'
    rcases (Progress.done f).put_cases key e with ⟨-, hput⟩ | ⟨hne, hput⟩
    · rw [hput] at hp
      cases hp
    · rw [hput] at hp ⊢
      have hb := hbc.settled e he w g hp
      obtain ⟨w', htargets⟩ := h.targets
      rw [htargets] at hb
      obtain ⟨e₀, he₀, rfl⟩ := List.mem_map.1 hb
      rw [Progress.put_fst] at hne
      rcases (Progress.compiling w' f).put_cases key e₀ with ⟨heq, -⟩ | ⟨-, hput'⟩
      · exact absurd heq hne
      · rw [hput']
        exact he₀
  case chain =>
    show c.session.chain.dropLast = _
    rw [hbc.chain]
    exact h.chain
  case entryDocument => exact hbc.entryDocument.trans h.entryDocument

end Begun
end Closed

/-! ## Functions of places -/

theorem Keeps.afresh {α : Type} {x : Planner α} (h : Keeps P x) : Keeps P (Gen.afresh x) := by
  intro a ha
  have hempty : InOrder P { a with names := .empty } := ha.skip rfl rfl rfl
  have hx := h { a with names := .empty } hempty
  rw [ran_afresh]
  have hin : Advance a { a with names := .empty } := .of_eq rfl rfl
  rcases hr : ran x { a with names := .empty } with ⟨e | r, b⟩
  · rw [hr] at hx
    exact ⟨hin.toExtends.trans hx.1, hx.2⟩
  · rw [hr] at hx
    exact ⟨hx.1.skip rfl rfl rfl, (hin.trans hx.2.1).trans (.of_eq rfl rfl), trivial⟩

variable {visit : Site → Planner Plan}

theorem keeps_checker (hv : ∀ site, Keeps P (visit site)) (t : Target) :
    Keeps P (checker visit t) := by
  refine (Keeps.fresh _).bind fun before => ?_
  split
  · exact .throw id
  · exact (hv _).bind fun plan => .pure _

theorem works_compileTarget (hv : ∀ site, Keeps P (visit site)) (t : Target)
    (hp : t.progress = .pending) (direct : Bool) (a : Assembly Session) :
    Works P (compileTarget visit t direct) a fun f b =>
      f ∈ b.defined ∧ ∀ e ∈ b.session.targets, e.1 = t.place.key → e.2.progress = .done f := by
  intro ha
  obtain ⟨f, wrapper, a₁, a₂, b, hname, hreserve, hmark, hbegun⟩ := ha.open t.place.key direct
  have hchecker := (keeps_checker hv t).afresh b hbegun.inOrder
  unfold compileTarget
  rw [hp]
  rw [ran_bind, hname, follow_ok, ran_bind, hreserve, follow_ok, ran_bind, hmark, follow_ok, ran_bind]
  rcases hr : ran _ b with ⟨e | checker, c⟩
  · rw [hr] at hchecker
    exact ⟨hbegun.extended.trans hchecker.1, hchecker.2⟩
  · rw [hr] at hchecker
    obtain ⟨hc, hbc, -⟩ := hchecker
    have hlength : a.slots.length < c.slots.length := by
      have hle := hbc.slots.length_le
      rw [hbegun.slots, List.length_append, List.length_singleton] at hle
      omega
    have hnew := hbegun.not_defined ha hbc
    rw [follow_ok, ran_fill hlength, Session.setProgress_eq hc.keys_nodup]
    refine ⟨hc.closed (hbegun.given.mono hbc.given) hnew _, hbegun.advance_closed hbc, ?_, ?_⟩
    · simp [Assembly.defined, Assembly.checkers]
    · simp only [List.forall_mem_map]
      intro e _ hkey
      rcases (Progress.done f).put_cases t.place.key e with ⟨-, hput⟩ | ⟨hne, -⟩
      · exact hput
      · exact absurd ((Progress.put_fst ..).symm.trans hkey) hne

end SchemaCompiler

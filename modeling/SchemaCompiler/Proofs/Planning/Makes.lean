import SchemaCompiler.Compiler.Node
import SchemaCompiler.Proofs.Planning.Coherent
import SchemaCompiler.Proofs.ValueScope

/-!
# What the making of plans keeps up

A computation that makes plans grows the program that it works on and keeps it coherent. When it
gives something, that has a property; when it fails, the program has grown all the same. Here this
is said of the steps that such computations are made of.
-/
namespace SchemaCompiler

variable {α β : Type} {f : α → Planner β} {Q : β → Assembly Session → Prop} {r : α}

def Assembly.Compiling (a : Assembly Session) (key : String) : Prop :=
  ∃ t w f, a.target? key = some t ∧ t.progress = .compiling w f

def Settled (a b : Assembly Session) : Prop := ∀ key, b.Compiling key → a.Compiling key

namespace Settled

variable {a b c : Assembly Session}

theorem trans (h : Settled a b) (h' : Settled b c) : Settled a c := fun key hc => h key (h' key hc)

theorem of_targets (h : b.session.targets = a.session.targets) : Settled a b := by
  rintro key ⟨t, w, f, ht, hp⟩
  exact ⟨t, w, f, by rwa [Assembly.target?, ← h], hp⟩

end Settled

def Makes (x : Planner α) (a : Assembly Session) (Q : α → Assembly Session → Prop) : Prop :=
  Coherent a →
    match ran x a with
    | (.ok r, b) => Coherent b ∧ Growth a b ∧ Settled a b ∧ a.names ≤ b.names ∧ Q r b
    | (.error _, b) => Growth a b

/-- From a program that has grown out of another one, a computation gives something with a property,
if anything, and the growth goes on. Steps that are coherent only together are taken so. -/
def MakesFrom (a : Assembly Session) (x : Planner α) (b : Assembly Session)
    (Q : α → Assembly Session → Prop) : Prop :=
  match ran x b with
  | (.ok r, c) => Coherent c ∧ Growth a c ∧ Settled a c ∧ a.names ≤ c.names ∧ Q r c
  | (.error _, c) => Growth a c

namespace MakesFrom

variable {a b c : Assembly Session} {x : Planner α} {P : α → Assembly Session → Prop}

theorem bind (hb : Coherent b) (hg : Growth a b) (hn : a.names ≤ b.names) (hx : Makes x b P)
    (hf : ∀ r c, Coherent c → Growth a c → Growth b c → Settled b c → a.names ≤ c.names → P r c →
      MakesFrom a (f r) c Q) : MakesFrom a (x >>= f) b Q := by
  have hx := hx hb
  unfold MakesFrom
  rw [ran_bind]
  rcases hr : ran x b with ⟨e | r, c⟩ <;> rw [hr] at hx
  · exact hg.trans hx
  · obtain ⟨hc, hg', hs, hn', hp⟩ := hx
    exact hf r c hc (hg.trans hg') hg' hs (le_trans hn hn') hp

theorem of_makes {Q : α → Assembly Session → Prop} (hb : Coherent b) (hg : Growth a b)
    (hs : Settled a b) (hn : a.names ≤ b.names) (hx : Makes x b P)
    (hq : ∀ r c, Coherent c → Growth b c → b.names ≤ c.names → P r c → Q r c) :
    MakesFrom a x b Q := by
  have hx := hx hb
  unfold MakesFrom
  rcases hr : ran x b with ⟨e | r, c⟩ <;> rw [hr] at hx
  · exact hg.trans hx
  · obtain ⟨hc, hg', hs', hn', hp⟩ := hx
    exact ⟨hc, hg.trans hg', hs.trans hs', le_trans hn hn', hq r c hc hg' hn' hp⟩

theorem step
    (hx : ran x b = (.ok r, c)) (hf : MakesFrom a (f r) c Q) : MakesFrom a (x >>= f) b Q := by
  unfold MakesFrom
  rw [ran_bind, hx]
  exact hf

end MakesFrom

namespace Makes

variable {a : Assembly Session} {x : Planner α} {P : α → Assembly Session → Prop}
  {Q : β → Assembly Session → Prop}

theorem of_ran {b : Assembly Session} (h : ran x a = (.ok r, b))
    (hb : Coherent a → Coherent b ∧ Growth a b) (hs : Settled a b) (hn : a.names ≤ b.names)
    (hp : Coherent a → P r b) : Makes x a P := by
  intro ha
  rw [h]
  exact ⟨(hb ha).1, (hb ha).2, hs, hn, hp ha⟩

theorem pure (h : P r a) : Makes (Pure.pure r) a P :=
  of_ran rfl (fun ha => ⟨ha, .refl a⟩) (.of_targets rfl) le_rfl fun _ => h

theorem throw (e : CompileError) : Makes (MonadExcept.throw e) a P := fun _ => Growth.refl a

theorem of_coherent (h : Coherent a → Makes x a P) : Makes x a P := fun ha => h ha ha

theorem of_from (h : Coherent a → MakesFrom a x a P) : Makes x a P := h

theorem bind (h : Makes x a P)
    (hf : ∀ r b, Coherent b → Growth a b → a.names ≤ b.names → P r b → Makes (f r) b Q) :
    Makes (x >>= f) a Q := fun ha =>
  MakesFrom.bind ha (.refl a) le_rfl h fun r b hb hg _ hs hn hp =>
    .of_makes hb hg hs hn (hf r b hb hg hn hp) fun _ _ _ _ _ => id

theorem mono {P' : α → Assembly Session → Prop} (h : Makes x a P)
    (hp : ∀ r b, Coherent b → Growth a b → a.names ≤ b.names → P r b → P' r b) : Makes x a P' := fun ha =>
  MakesFrom.of_makes ha (.refl a) (.of_targets rfl) le_rfl h hp

/-- Something made for each item of a list; `R` relates what has been made to the states it was made
between. -/
theorem mapM {R : Assembly Session → Assembly Session → List β → Prop}
    {xs : List α} (hnil : ∀ a, R a a []) (hcons : ∀ x ∈ xs, ∀ a, Makes (f x) a fun r b =>
      ∀ c rs, Growth b c → b.names ≤ c.names → R b c rs → R a c (r :: rs)) :
    ∀ a, Makes (xs.mapM f) a fun rs b => R a b rs := by
  induction xs with
  | nil => exact fun a => .pure (hnil a)
  | cons x xs ih =>
    intro a
    rw [List.mapM_cons]
    refine (hcons x (by simp) a).bind fun r b hb hg hn hr => ?_
    refine (ih (fun y hy => hcons y (by simp [hy])) b).bind fun rs c hc hg' hn' hrs => ?_
    exact .pure (hr c rs hg' hn' hrs)

end Makes

variable {a : Assembly Session}

def NewName (a b : Assembly Session) (n : Name) : Prop := ¬ a.names.Old n ∧ b.names.Old n

theorem NewName.mono {a' a b b' : Assembly Session} {n : Name} (h : NewName a b n)
    (ha : a'.names ≤ a.names) (hb : b.names ≤ b'.names) : NewName a' b' n :=
  ⟨fun ho => h.1 (ho.mono ha), h.2.mono hb⟩

theorem makes_fresh (stem : LocalStem) : Makes (Gen.fresh stem) a fun n b => NewName a b n := by
  refine .of_ran rfl (fun ha => ?_)
    (.of_targets rfl) (a.names.le_next _) fun _ => ⟨a.names.not_old_next stem, a.names.old_next stem⟩
  exact ha.skip rfl rfl rfl rfl le_rfl

theorem makes_session : Makes Gen.session a fun s b => b = a ∧ s = a.session :=
  .of_ran rfl (fun ha => ⟨ha, .refl a⟩) (.of_targets rfl) le_rfl fun _ => ⟨rfl, rfl⟩

/-! ## Values -/

def Descriptor.IsPlain (d : Descriptor) : Prop :=
  (∀ f, d.live ≠ some (.function f) ∧ d.stored ≠ some (.function f)) ∧
    ∀ slot, d.live ≠ some (.forward slot) ∧ d.stored ≠ some (.forward slot)

def Stem.IsPlain (stem : Stem) : Prop :=
  stem.text ≠ Reference.validateStem.text ∧ stem.text ≠ ValueScope.wrapperStem.text

/-- A value that has been asked for before is the one from then, any other is new. -/
theorem ran_value (stem : Stem) (d : Descriptor) (a : Assembly Session) :
    (∃ e ∈ a.entries, e.recognition = d.mark stem ∧
      e.recognition ≠ none ∧ ran (Gen.value stem d) a = (.ok e.name, a)) ∨
    ran (Gen.value stem d) a = (.ok (a.given.next stem).1,
      { a with library := { a.library with scope := { a.library.scope with
        names := (a.given.next stem).2
        entries := a.entries ++ [⟨(a.given.next stem).1,
          d.mark stem, d.live, d.stored⟩] } } }) := by
  show (∃ e ∈ _, _ ∧ _ ∧ ran (modifyGet _) a = _) ∨ ran (modifyGet _) a = _
  rw [ran_modifyGet]
  rcases ValueScope.value_cases stem d a.library.scope with ⟨e, he, hrec, hsome, hv⟩ | ⟨-, hv⟩
  · exact .inl ⟨e, he, hrec, hsome, by rw [hv]⟩
  · refine .inr ?_
    rw [hv]
    rfl

theorem makes_value {stem : Stem} (hs : stem.IsPlain) (hr : stem.isReserved = true) {d : Descriptor}
    (hd : d.IsPlain) : Makes (Gen.value stem d) a fun n b => (∃ k, n = stem.name k) ∧ b.Has n := by
  rcases ran_value stem d a with ⟨e, he, hrec, hsome, hran⟩ | hran
  · refine .of_ran hran (fun ha => ⟨ha, .refl a⟩) (.of_targets rfl) le_rfl fun ha => ?_
    obtain ⟨other, k, hn, htext⟩ := ha.named e he
    cases hr : d.recognition with
    | none => rw [hrec, Descriptor.mark, hr] at hsome; exact absurd rfl hsome
    | some r =>
      rw [Descriptor.mark, hr] at hrec
      obtain rfl : stem = other := Stem.ext (htext _ _ hrec)
      exact ⟨⟨k, hn⟩, e, he, rfl⟩
  · refine .of_ran hran (fun ha => ?_) (.of_targets rfl) le_rfl fun _ =>
      ⟨⟨_, rfl⟩, _, List.mem_append_right _ (List.mem_singleton_self _), rfl⟩
    refine ha.hold rfl rfl rfl rfl rfl hr ?_ (List.prefix_refl _) (fun _ _ => id) ?_ ?_ ?_
    · cases hd : d.recognition <;> simp_all
    · rintro (⟨f, hf | hf⟩ | ⟨slot, hf | hf⟩)
      · exact absurd hf (hd.1 f).1
      · exact absurd hf (hd.1 f).2
      · exact absurd hf (hd.2 slot).1
      · exact absurd hf (hd.2 slot).2
    · intro slot hl
      exact absurd hl (hd.2 slot).1
    · rintro key ⟨other, hother, hr⟩
      have htext : other.text = stem.text := by
        cases hd : d.recognition <;> simp_all
      rcases hother with rfl | rfl
      · exact absurd htext.symm hs.1
      · exact absurd htext.symm hs.2

end SchemaCompiler

import SchemaCompiler.Proofs.Planning.Sites

/-!
# Plans that suit their occurrence

What is shared by the plans of all keywords: how values come into expressions, how errors are
reported, how plans are put one after the other, and how an inner schema is tried.
-/
namespace SchemaCompiler

variable {a b c : Assembly Session} {o : Occurrence} {τ σ : Terms} {inner : Inner} {Γ : Context}
  {site : Site} {before n : Name} {stem : Stem} {R : Name → Prop} {r : Name × Plan}

/-- A plan made between two states fits wherever its keyword may stand, on some terms. It leaves no
loop, the names it brings into being are new, and it weighs errors only if its keyword is one that
does. -/
structure Suits (τ : Terms) (o : Occurrence) (a : Assembly Session) (p : Plan)
    (b : Assembly Session) : Prop where
  fits : ∀ Γ : Context, Γ.Offers a b o τ → p.Fits b.Calls Γ
  stays : p.escapes = false
  declared : ∀ n ∈ p.declared, NewName a b n
  composes : p.composes = true → o.keyword ∈ compositions

/-- A plan made between two states for a whole schema. -/
structure Planned (site : Site) (a : Assembly Session) (p : Plan) (b : Assembly Session) :
    Prop where
  fits : ∀ Γ : Context, Γ.Hosts a b site → Γ.node = some site.errorsBefore → p.Fits b.Calls Γ
  stays : p.escapes = false
  declared : p.declared = []
  composes : p.composes = false

def Visits (visit : Site → Planner Plan) : Prop :=
  ∀ site a, Makes (visit site) a (Planned site a)

theorem Plan.breaks_eq_false {p : Plan} (h : p.escapes = false) : p.breaks = false := by
  induction p with
  | seq first second ihf ihs =>
    simp only [escapes, Bool.or_eq_false_iff] at h
    simp [breaks, ihf h.1, ihs h.2]
  | branch condition yes no ihy ihn | next condition yes no ihy ihn =>
    simp only [escapes, Bool.or_eq_false_iff] at h
    simp [breaks, ihy h.1, ihn h.2]
  | trial t body ih =>
    simp only [escapes, Bool.or_eq_false_iff] at h
    simp [breaks, h.1, ih h.2]
  | report record b => exact h
  | demand condition record rest ih | typed condition record rest ih
  | settle condition record rest ih => exact ih h
  | schema s body ih => exact ih h
  | _ => rfl

/-! ## Names of values -/

theorem Stem.reserved_name (h : stem.isReserved = true) (k : Nat) : (stem.name k).Reserved :=
  ⟨stem, k, h, rfl⟩

theorem Stem.routine_name (h : stem.text ∈ Name.routineStems) (k : Nat) : (stem.name k).Routine :=
  ⟨stem, k, h, rfl⟩

def Assembly.HasRoutine (a : Assembly Session) (n : Name) : Prop := n.Routine ∧ a.Has n

theorem Growth.hasRoutine (h : Growth a b) (hn : a.HasRoutine n) : b.HasRoutine n :=
  ⟨hn.1, h.has hn.2⟩

theorem Site.Seen.within_call (h : site.Seen a.Has R)
    (hn : a.HasRoutine n) {args : List Expr} (ha : ∀ e ∈ args, e.Within R) :
    (Expr.callName n args).Within R :=
  Expr.within_callName hn.1 (h.reserved n hn.1.reserved hn.2) ha

theorem makes_routine (hs : stem.text ∈ Name.routineStems) {d : Descriptor} (hd : d.IsPlain) :
    Makes (Gen.value stem d) a fun n b => b.HasRoutine n := by
  have hplain : stem.IsPlain := by
    simp only [Name.routineStems, List.mem_cons, List.not_mem_nil, or_false] at hs
    rcases hs with hs | hs | hs | hs <;> simp [Stem.IsPlain, hs] <;> decide
  have hreserved : stem.isReserved = true := by
    simp only [Name.routineStems, List.mem_cons, List.not_mem_nil, or_false] at hs
    rcases hs with hs | hs | hs | hs <;> rw [Stem.isReserved, hs] <;> decide
  refine (makes_value hplain hreserved hd).mono fun n b _ _ _ hn => ?_
  obtain ⟨⟨k, rfl⟩, hheld⟩ := hn
  exact ⟨Stem.routine_name hs k, hheld⟩

theorem Descriptor.isPlain_keyed {key : String} {live : LiveValue} {stored : Option StoredValue}
    (hl : ∀ f, live ≠ .function f) (hf : ∀ slot, live ≠ .forward slot)
    (hs : ∀ f, stored ≠ some (.function f)) (hsf : ∀ slot, stored ≠ some (.forward slot)) :
    (keyed key live stored).IsPlain :=
  ⟨fun f => ⟨by simpa [keyed] using hl f, hs f⟩, fun slot => ⟨by simpa [keyed] using hf slot, hsf slot⟩⟩

theorem makes_primitive (routine : Primitive) :
    Makes (Gen.primitive routine) a fun n b => b.HasRoutine n :=
  makes_routine (by decide) (Descriptor.isPlain_keyed (by simp) (by simp) (by simp) (by simp))

theorem makes_pattern (source : String) :
    Makes (Occurrence.pattern source) a fun n b => b.HasRoutine n := by
  unfold Occurrence.pattern
  split
  · exact makes_routine (by decide)
      (Descriptor.isPlain_keyed (by simp) (by simp) (by simp) (by simp))
  · exact .throw _

/-- An expression that can be had wherever a keyword may stand, on some terms, once the program
holds what it does in a state. -/
def Occurrence.Knows (o : Occurrence) (τ : Terms) (b : Assembly Session) (e : Expr) : Prop :=
  ∀ (Γ : Context) (a : Assembly Session), Γ.Offers a b o τ → e.Within Γ.reads

namespace Occurrence

theorem knows_data (o : Occurrence) : o.Knows τ b o.data := fun _ _ h => h.seen.data

theorem knows_lit (v : Json) : o.Knows τ b (.lit v) := fun _ _ _ => trivial

theorem knows_str (s : String) : o.Knows τ b (.str s) := fun _ _ _ => trivial

theorem knows_nat (n : Nat) : o.Knows τ b (.nat n) := fun _ _ _ => trivial

theorem knows_typeIs (t : JsonType) : o.Knows τ b (.typeIs o.data t) := o.knows_data

theorem knows_len : o.Knows τ b (.len o.data) := o.knows_data

theorem knows_var (h : n ∈ τ.reads ∨ n ∈ τ.sets) : o.Knows τ b (.var n) :=
  fun _ _ ho => h.elim (ho.reads n) fun hs => (ho.sets n hs).1

namespace Knows

variable {e e' : Expr} {items : List Expr}

theorem mono (h : o.Knows τ b e) (hσ : τ.Within σ) : o.Knows σ b e :=
  fun Γ a ho => h Γ a (ho.mono hσ)

theorem lift (h : o.Knows .plain b e) : o.Knows τ b e := h.mono τ.plain_within

theorem later (h : o.Knows τ b e) (hg : Growth b c) : o.Knows τ c e :=
  fun Γ a ho => h Γ a (ho.before hg)

theorem call (hn : b.HasRoutine n) (h : ∀ e ∈ items, o.Knows τ b e) :
    o.Knows τ b (.callName n items) :=
  fun Γ a ho => ho.seen.within_call hn fun e he => h e he Γ a ho

theorem binary (h : o.Knows τ b e) (h' : o.Knows τ b e') (op : BinaryOp) :
    o.Knows τ b (.binary op e e') :=
  fun Γ a ho => ⟨h Γ a ho, h' Γ a ho⟩

theorem plus (h : o.Knows τ b e) (h' : o.Knows τ b e') : o.Knows τ b (e.plus e') :=
  fun Γ a ho => Expr.within_plus (h Γ a ho) (h' Γ a ho)

theorem has (h : o.Knows τ b e) (h' : o.Knows τ b e') : o.Knows τ b (.has e e') :=
  fun Γ a ho => ⟨h Γ a ho, h' Γ a ho⟩

theorem negate (h : o.Knows τ b e) : o.Knows τ b e.negate :=
  fun Γ a ho => Expr.within_negate (h Γ a ho)

theorem any (h : ∀ e ∈ items, o.Knows τ b e) : o.Knows τ b (.any items) :=
  fun Γ a ho => Expr.within_any fun e he => h e he Γ a ho

theorem all (h : ∀ e ∈ items, o.Knows τ b e) : o.Knows τ b (.all items) :=
  fun Γ a ho => Expr.within_all fun e he => h e he Γ a ho

end Knows
end Occurrence

theorem makes_inject (o : Occurrence) (v : Json) :
    Makes (Occurrence.inject v) a fun e b => o.Knows .plain b e := by
  unfold Occurrence.inject
  split
  · have hplain : (Descriptor.json v).IsPlain := by
      constructor <;> intro _ <;> simp [Descriptor.json]
    refine (makes_value (by constructor <;> decide) (by decide) hplain).bind
      fun n b _ _ _ hn => .pure ?_
    obtain ⟨⟨k, rfl⟩, hheld⟩ := hn
    exact fun Γ _ h => h.seen.reserved _ (Stem.reserved_name (by decide) k) hheld
  · exact .pure fun _ _ _ => trivial

theorem makes_valueCode : Makes o.valueCode a fun e b => o.Knows .plain b e := by
  unfold Occurrence.valueCode
  split
  · rename_i code hc
    exact .pure fun Γ _ h => h.code code hc
  · exact makes_inject o o.value

/-! ## Reports -/

theorem Plan.fits_failIf {callable : Name → Bool → Prop} {H : Name → Prop}
    (h : o.site.Seen H Γ.reads) {condition : Expr} (hc : condition.Within Γ.reads)
    {params : List (String × Expr)} (hp : ∀ p ∈ params, p.2.Within Γ.reads) :
    (o.failIf condition params).Fits callable Γ := by
  have hreport := Occurrence.within_ownRecord h hp
  unfold Occurrence.failIf
  split
  · trivial
  · split
    · exact hreport
    · exact ⟨hc, hreport, trivial⟩

section FailIf

variable (o) (condition : Expr) (params : List (String × Expr))

@[simp] theorem Plan.escapes_failIf : (o.failIf condition params).escapes = false := by
  unfold Occurrence.failIf Occurrence.report
  split <;> [rfl; split <;> rfl]

@[simp] theorem Plan.declared_failIf : (o.failIf condition params).declared = [] := by
  unfold Occurrence.failIf Occurrence.report
  split <;> [rfl; split <;> rfl]

@[simp] theorem Plan.composes_failIf : (o.failIf condition params).composes = false := by
  unfold Occurrence.failIf Occurrence.report
  split <;> [rfl; split <;> rfl]

end FailIf

namespace Suits

variable {p q : Plan} {condition : Expr} {params : List (String × Expr)}

theorem nothing : Suits τ o a .nothing b :=
  ⟨fun _ _ => trivial, rfl, by simp [Plan.declared], by simp [Plan.composes]⟩

theorem mono (h : Suits τ o a p b) (hσ : τ.Within σ) : Suits σ o a p b :=
  { h with fits := fun Γ hΓ => h.fits Γ (hΓ.mono hσ) }

theorem lift (h : Suits .plain o a p b) : Suits τ o a p b := h.mono τ.plain_within

theorem later (h : Suits τ o a p b) (hg : Growth b c) (hn : b.names ≤ c.names) : Suits τ o a p c :=
  { h with
    fits := fun Γ hΓ => (h.fits Γ (hΓ.before hg)).mono fun _ _ => hg.calls
    declared := fun n hd => (h.declared n hd).mono le_rfl hn }

theorem earlier (h : Suits τ o b p c) (hn : a.names ≤ b.names) : Suits τ o a p c :=
  { h with
    fits := fun Γ hΓ => h.fits Γ (hΓ.later hn)
    declared := fun n hd => (h.declared n hd).mono hn le_rfl }

theorem failIf (hc : o.Knows τ b condition) (hp : ∀ p ∈ params, o.Knows τ b p.2) :
    Suits τ o a (o.failIf condition params) b where
  fits := fun Γ h => Plan.fits_failIf h.seen (hc Γ a h) fun p hmem => hp p hmem Γ a h
  stays := by simp
  declared := by simp
  composes := by simp

theorem failUnless (hc : o.Knows τ b condition) (hp : ∀ p ∈ params, o.Knows τ b p.2) :
    Suits τ o a (o.failUnless condition params) b :=
  failIf hc.negate hp

theorem quiet {stmts : List Stmt}
    (hq : ∀ Γ : Context, Γ.Offers a b o τ → Stmt.QuietBlock Γ.reads stmts)
    (ht : ∀ n ∈ Stmt.targetsOf stmts, n ∈ τ.sets ∨ NewName a b n)
    (hd : ∀ n ∈ Stmt.declaredOf stmts, NewName a b n) (hl : Stmt.leavesOf stmts = false) :
    Suits τ o a (.quiet stmts) b where
  fits := fun Γ h => by
    refine ⟨hq Γ h, fun n hn => ?_⟩
    rcases ht n hn with hs | hnew
    · rintro (hm | hr)
      · exact (h.sets n hs).2.2 hm
      · exact hr.2 (h.sets n hs).2.1
    · exact (h.host.fresh hnew).not_fixed
  stays := hl
  declared := hd
  composes := by simp [Plan.composes]

theorem seq (hp : Suits τ o a p b) (hq : Suits (τ.declare p.declared) o b q c) (hg : Growth b c)
    (hab : a.names ≤ b.names) (hbc : b.names ≤ c.names) : Suits τ o a (.seq p q) c where
  fits := fun Γ h => ⟨(hp.fits Γ.loose (h.loose.before hg)).mono fun _ _ => hg.calls,
    hq.fits _ (h.loose.declare hab hp.declared)⟩
  stays := by simp [Plan.escapes, hp.stays, hq.stays]
  declared := fun n hn => by
    rcases List.mem_append.1 hn with hn | hn
    · exact (hp.declared n hn).mono le_rfl hbc
    · exact (hq.declared n hn).mono hab le_rfl
  composes := fun h => by
    simp only [Plan.composes, Bool.or_eq_true] at h
    exact h.elim hp.composes hq.composes

theorem branch (hc : o.Knows τ b condition) (hp : Suits (τ.given o.site.data condition) o a p b)
    (hq : Suits τ o a q b) : Suits τ o a (.branch condition p q) b where
  fits := fun Γ h => ⟨hc Γ a h, hp.fits _ (h.loose.given condition), hq.fits _ h.loose⟩
  stays := by simp [Plan.escapes, hp.stays, hq.stays]
  declared := by simp [Plan.declared]
  composes := fun h => by
    simp only [Plan.composes, Bool.or_eq_true] at h
    exact h.elim hp.composes hq.composes

theorem when (hc : o.Knows τ b condition) (hp : Suits (τ.given o.site.data condition) o a p b) :
    Suits τ o a (.when condition p) b :=
  branch hc hp .nothing

theorem guarded {guard : Option Expr} (hc : ∀ e ∈ guard, o.Knows .plain b e)
    (hp : Suits .plain o a p b) : Suits .plain o a (.guarded guard p) b := by
  cases guard with
  | none => exact hp
  | some e => exact when (hc e rfl) hp.lift

theorem settle {settlement : Settlement} (hb : NewName a b before)
    (hp : Suits τ o b p c) (hab : a.names ≤ b.names) (hbc : b.names ≤ c.names)
    (hs : ∀ Γ : Context, Γ.Offers c c o (τ.declare p.declared) → settlement.Within Γ.reads)
    (hk : o.keyword ∈ compositions) : Suits τ o a (.settle before p settlement) c where
  fits := fun _ h => ⟨h.host.fresh hb, hp.fits _ (h.marked hab hb),
    hs _ ((h.later hab).declare hbc hp.declared), hp.stays⟩
  stays := hp.stays
  declared := fun n hn => (hp.declared n hn).mono hab le_rfl
  composes := fun _ => hk

theorem loop {var : Name} {along : Traversal} (hv : NewName a b var) (hab : a.names ≤ b.names)
    (ho : ∀ Γ : Context, Γ.Offers a c o τ → along.Within Γ.reads)
    (hf : ∀ Γ : Context, Γ.Offers b c o (τ.inLoop o.site.data var along p.breaks) →
      p.Fits c.Calls Γ)
    (hk : p.composes = true → o.keyword ∈ compositions) : Suits τ o a (.loop var along p) c where
  fits := fun Γ h => ⟨ho Γ h, h.host.fresh hv, hf _ (h.inLoop hab hv along p.breaks)⟩
  stays := rfl
  declared := by simp [Plan.declared]
  composes := hk

end Suits

theorem makes_planEach {α : Type} {plan : α → Planner Plan} {parts : List α}
    (h : ∀ x ∈ parts, ∀ a, Makes (plan x) a (Suits τ o a)) :
    Makes (Applicator.planEach plan parts) a (Suits τ o a) := by
  have hall : Makes (parts.mapM plan) a fun ps b => Suits τ o a (.all ps) b := by
    refine Makes.mapM (R := fun a b ps => Suits τ o a (.all ps) b) (fun a => Suits.nothing)
      (fun x hx a => ?_) a
    refine (h x hx a).mono fun p b _ _ hn hp => ?_
    exact fun c ps hg hn' hps => hp.seq (hps.mono (τ.within_declare _)) hg hn hn'
  exact hall.bind fun ps b _ _ _ hps => .pure hps

/-! ## Inner schemas -/

/-- A step into the data that can be taken in a context: data is there to step into, and what leads
on can be read. -/
def DataStep.Ready (Γ : Context) (data : Name) : DataStep → Prop
  | property _ => Γ.solid data
  | dynamic key => Γ.solid data ∧ key.Within Γ.reads
  | item index => Γ.solid data ∧ index.Within Γ.reads
  | replace name => Γ.Holds name

/-- The site of an inner schema, and the step that leads there. -/
structure Entered (site : Site) (step : Option DataStep) (before : Name) (a : Assembly Session)
    (r : Site × Option Descent) (b : Assembly Session) : Prop where
  errorsBefore : r.1.errorsBefore = before
  hosts : ∀ (c : Assembly Session) (Γ : Context) (t : Trial), Growth b c → Γ.Hosts a c site →
    (∀ s ∈ step, s.Ready Γ site.data) → t.before = before → t.descent = r.2 →
      (Γ.inTrial t).Hosts b c r.1
  descent : ∀ (c : Assembly Session) (Γ : Context), Growth b c → Γ.Hosts a c site →
    (∀ s ∈ step, s.Ready Γ site.data) → ∀ d ∈ r.2, d.Fits Γ ∧ d.name ≠ before

theorem Context.Hosts.inTrial (h : Γ.Hosts a c site)
    (hn : a.names ≤ b.names) {t : Trial} (hb : b.names.Old t.before)
    (hd : ∀ d ∈ t.descent, b.names.Old d.name) : (Γ.inTrial t).Hosts b c site := by
  refine h.extend (fun n hr => .inl hr) (fun n hr => ?_) id fun n hb => .inl hb
  rcases hr with (hr | ⟨d, hmem, rfl⟩) | hs | hm | rfl
  · exact (h.old n (.inl hr)).mono hn
  · exact hd d hmem
  · exact hs.elim
  · exact (h.old n (.inr (.inr hm))).mono hn
  · exact hb

theorem makes_descend (hb : a.names.Old before)
    (he : site.errorsBefore = before) {key segment : Expr} (step : DataStep)
    (hready : ∀ (c : Assembly Session) (Γ : Context), Growth a c → Γ.Hosts a c site →
      step.Ready Γ site.data → Γ.solid site.data ∧ key.Within Γ.reads ∧ segment.Within Γ.reads) :
    Makes (Occurrence.descend site key segment) a (Entered site (some step) before a) := by
  refine (makes_fresh Occurrence.dataStem).bind fun d b _ hg hn hd => .pure ⟨he, ?_, ?_⟩
  · rintro c Γ t hgc h hs hbefore hdesc
    have hstep := hready c Γ (hg.trans hgc) h (hs step rfl)
    have hold : ∀ d' ∈ t.descent, b.names.Old d'.name := by
      rw [hdesc]
      rintro d' ⟨⟩
      exact hd.2
    have hin := h.inTrial hn (by rw [hbefore]; exact hb.mono hn) hold
    have hread : (Γ.inTrial t).reads d := .inr ⟨⟨d, site.data, key⟩, hdesc, rfl⟩
    refine ⟨⟨hin.seen.reserved, hread, fun n hmem => ?_, ?_, hin.seen.root⟩, hin.old, ?_⟩
    · rcases List.mem_append.1 hmem with hmem | hmem
      · exact hin.seen.levels n hmem
      · rw [List.mem_singleton.1 hmem]
        exact hread
    · exact Expr.within_plus hin.seen.path (hstep.2.2.mono fun n hr => .inl hr)
    · exact ⟨hread, id, .inr (.inr ⟨⟨d, site.data, key⟩, hdesc, rfl⟩)⟩
  · rintro c Γ hgc h hs d' ⟨⟩
    have hstep := hready c Γ (hg.trans hgc) h (hs step rfl)
    refine ⟨⟨h.fresh hd, h.data, hstep.1, hstep.2.1⟩, ?_⟩
    rintro rfl
    exact hd.1 hb

theorem hosts_innerSite :
    Γ.Hosts a c (Occurrence.innerSite site inner before) ↔ Γ.Hosts a c site := by
  constructor <;> rintro ⟨⟨h₁, h₂, h₃, h₄, h₅⟩, h₆, h₇⟩ <;>
    exact ⟨⟨h₁, h₂, h₃, h₄, h₅⟩, h₆, h₇⟩

theorem Entered.of_inner {step : Option DataStep} {r : Site × Option Descent}
    (h : Entered (Occurrence.innerSite site inner before) step before a r b) :
    Entered site step before a r b :=
  ⟨h.errorsBefore, fun c Γ t hg hΓ => h.hosts c Γ t hg (hosts_innerSite.2 hΓ),
    fun c Γ hg hΓ => h.descent c Γ hg (hosts_innerSite.2 hΓ)⟩

theorem Expr.within_indexSegment {e : Expr} (h : e.Within R) :
    (Occurrence.indexSegment e).Within R := by
  unfold Occurrence.indexSegment
  split
  · trivial
  · exact within_plus trivial h

theorem makes_enter (hb : a.names.Old before) :
    Makes (Occurrence.enter site inner before) a (Entered site inner.step before a) := by
  have hhere : ∀ (c : Assembly Session) (Γ : Context) (t : Trial), Γ.Hosts a c site →
      t.before = before → t.descent = none → (Γ.inTrial t).Hosts a c site := by
    intro c Γ t h hbefore hdesc
    exact h.inTrial le_rfl (by rw [hbefore]; exact hb) (by simp [hdesc])
  unfold Occurrence.enter
  split
  · refine .pure ⟨rfl, fun c Γ t _ h _ hbefore hdesc => ?_, by simp⟩
    exact hosts_innerSite.2 (hhere c Γ t h hbefore hdesc)
  · rename_i name hstep
    rw [hstep]
    refine (makes_descend hb rfl _ fun c Γ _ _ hr => ?_).mono
      fun r b _ _ _ hr => hr.of_inner
    exact ⟨hr, trivial, trivial⟩
  · rename_i key hstep
    rw [hstep]
    refine (makes_primitive .escapePointer).bind fun escape b _ _ hn hescape => ?_
    refine (makes_descend (hb.mono hn) rfl (.dynamic key) fun c Γ hg h hr => ?_).mono
      fun r c _ _ _ hr => ?_
    · exact ⟨hr.1, hr.2, Expr.within_plus trivial
        (h.seen.within_call (hg.hasRoutine hescape) (by simpa using hr.2))⟩
    · have hin := hr.of_inner
      exact ⟨hin.errorsBefore, fun d Γ t hg h => hin.hosts d Γ t hg (h.later hn),
        fun d Γ hg h => hin.descent d Γ hg (h.later hn)⟩
  · rename_i index hstep
    rw [hstep]
    refine (makes_descend hb rfl (.item index) fun c Γ _ _ hr => ?_).mono
      fun r b _ _ _ hr => hr.of_inner
    exact ⟨hr.1, hr.2, Expr.within_indexSegment hr.2⟩
  · rename_i name hstep
    rw [hstep]
    refine .pure ⟨rfl, fun c Γ t _ h hs hbefore hdesc => ?_, by simp⟩
    have hin : (Γ.inTrial t).Hosts a c (Occurrence.innerSite site inner before) :=
      hosts_innerSite.2 (hhere c Γ t h hbefore hdesc)
    have hholds : Γ.Holds name := hs _ rfl
    exact ⟨⟨hin.seen.reserved, .inl hholds.1, hin.seen.levels, hin.seen.path, hin.seen.root⟩,
      hin.old, .inl hholds.1, id, hholds.2.2.imp id .inl⟩

/-- A schema that is tried, with the name of its verdict. -/
structure Attempted (o : Occurrence) (inner : Inner) (breaks : Bool) (a : Assembly Session)
    (r : Name × Plan) (b : Assembly Session) : Prop where
  fits : ∀ Γ : Context, Γ.Hosts a b o.site → (∀ s ∈ inner.step, s.Ready Γ o.site.data) →
    r.2.Fits b.Calls Γ
  valid : NewName a b r.1
  declared : r.2.declared = [r.1]
  escapes : r.2.escapes = breaks
  breaks : r.2.breaks = breaks
  composes : r.2.composes = inner.composite

theorem makes_attempt (hv : Visits o.visit) (inner : Inner) (breaks : Bool) : Makes (o.attempt inner breaks) a (Attempted o inner breaks a) := by
  refine (makes_fresh Occurrence.errorsStem).bind fun before b _ hgb hnb hbefore => ?_
  refine (makes_enter hbefore.2).bind fun r c _ hgc hnc hr => ?_
  obtain ⟨site, descent⟩ := r
  refine (hv site c).bind fun body d _ hgd hnd hbody => ?_
  refine (makes_fresh Occurrence.validStem).bind fun valid e _ hge hne hvalid => .pure ?_
  have hlate : ∀ {n}, NewName d e n → NewName a e n := fun h =>
    h.mono (le_trans hnb (le_trans hnc hnd)) le_rfl
  refine ⟨fun Γ h hs => ?_, hlate hvalid, rfl, ?_, ?_, ?_⟩
  · have hlater := h.later hnb
    have hgce := hgd.trans hge
    refine ⟨h.fresh hbefore, h.fresh (hlate hvalid), hr.descent e Γ hgce hlater hs, ?_, hbody.stays⟩
    refine (hbody.fits _ ((hr.hosts e Γ _ hgce hlater hs rfl rfl).before hge) ?_).mono
      fun _ _ => hge.calls
    rw [hr.errorsBefore]
    rfl
  · simp [Plan.escapes, hbody.stays]
  · simp [Plan.breaks, Plan.breaks_eq_false hbody.stays]
  · simp [Plan.composes, hbody.composes]

def DataStep.Granted (o : Occurrence) (τ : Terms) : DataStep → Prop
  | property _ => τ.firm = true
  | dynamic key => τ.firm = true ∧ ∀ b, o.Knows τ b key
  | item index => τ.firm = true ∧ ∀ b, o.Knows τ b index
  | replace name => name ∈ τ.parts

theorem DataStep.Granted.ready {step : DataStep} (h : step.Granted o τ)
    (hΓ : Γ.Offers a b o τ) : step.Ready Γ o.site.data := by
  cases step with
  | property name => exact hΓ.firm h
  | dynamic key | item key => exact ⟨hΓ.firm h.1, h.2 b Γ a hΓ⟩
  | replace name => exact hΓ.parts name h

theorem Attempted.fits_of_offers {breaks : Bool}
    (h : Attempted o inner breaks a r b) (hs : ∀ s ∈ inner.step, s.Granted o τ)
    (hΓ : Γ.Offers a b o τ) : r.2.Fits b.Calls Γ :=
  h.fits Γ hΓ.host fun s hs' => (hs s hs').ready hΓ

theorem Attempted.suits (h : Attempted o inner false a r b) (hs : ∀ s ∈ inner.step, s.Granted o τ)
    (hk : inner.composite = true → o.keyword ∈ compositions) : Suits τ o a r.2 b where
  fits := fun _ hΓ => h.fits_of_offers hs hΓ
  stays := h.escapes
  declared := fun n hn => by
    rw [h.declared, List.mem_singleton] at hn
    exact hn ▸ h.valid
  composes := fun hc => hk (h.composes ▸ hc)

theorem makes_require (hv : Visits o.visit)
    (hs : ∀ s ∈ inner.step, s.Granted o τ) (hc : inner.composite = false) :
    Makes (o.require inner) a (Suits τ o a) := by
  refine (makes_attempt hv inner false).bind fun r b _ _ _ hr => .pure ?_
  exact hr.suits hs (by simp [hc])

end SchemaCompiler

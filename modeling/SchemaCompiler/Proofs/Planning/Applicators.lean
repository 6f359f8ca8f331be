import SchemaCompiler.Proofs.Planning.Suits

/-!
# The plans of applicators

Keywords that apply other schemas make plans that suit them, if the other schemas get plans that fit
where they stand. Variables that remember verdicts and counts are set between the attempts, never
inside of them.
-/
namespace SchemaCompiler

open Occurrence Applicator Inner Terms

variable {o : Occurrence} {τ : Terms} {a b : Assembly Session} {valid count key : Name}
  {Γ : Context} (hv : Visits o.visit) (hk : o.keyword ∈ compositions)

/-! ## Variables of a keyword -/

theorem Stmt.targetsOf_eq_flatMap (stmts : List Stmt) : targetsOf stmts = stmts.flatMap targets := by
  induction stmts with
  | nil => rfl
  | cons s rest ih => rw [targetsOf, ih, List.flatMap_cons]

theorem Stmt.leavesOf_eq_any (stmts : List Stmt) : leavesOf stmts = stmts.any leaves := by
  induction stmts with
  | nil => rfl
  | cons s rest ih => rw [leavesOf, ih, List.any_cons]

theorem Suits.assigns (pairs : List (Name × Expr))
    (h : ∀ p ∈ pairs, p.1 ∈ τ.sets ∧ o.Knows τ b p.2) :
    Suits τ o a (.quiet (pairs.map fun p => .assign p.1 p.2)) b := by
  refine Suits.quiet (fun Γ hΓ => ?_) (fun n hn => ?_) ?_ ?_
  · have hquiet : ∀ R : Name → Prop, (∀ n, Γ.reads n → R n) →
        Stmt.QuietBlock R (pairs.map fun p => .assign p.1 p.2) := by
      induction pairs with
      | nil => exact fun _ _ => trivial
      | cons p rest ih =>
        intro R hR
        have hp := h p (by simp)
        refine ⟨⟨hR _ (hΓ.sets _ hp.1).1, (hp.2 Γ a hΓ).mono hR⟩, ?_⟩
        exact ih (fun q hq => h q (by simp [hq])) _ fun n hn => .inl (hR n hn)
    exact hquiet _ fun _ => id
  · simp only [Stmt.targetsOf_eq_flatMap, List.flatMap_map, Stmt.targets, List.mem_flatMap,
      List.mem_singleton] at hn
    obtain ⟨p, hp, rfl⟩ := hn
    exact .inl (h p hp).1
  · simp [Stmt.declaredOf, Stmt.declared]
  · simp [Stmt.leavesOf_eq_any, Stmt.leaves]

theorem Suits.declares (pairs : List (Name × Json)) (h : ∀ p ∈ pairs, NewName a b p.1) :
    Suits τ o a (.quiet (pairs.map fun p => .declare p.1 (some (.lit p.2)) false)) b := by
  refine Suits.quiet (fun Γ hΓ => ?_) (fun n hn => ?_) (fun n hn => ?_) ?_
  · have hquiet : ∀ (pairs : List (Name × Json)) (R : Name → Prop),
        Stmt.QuietBlock R (pairs.map fun p => .declare p.1 (some (.lit p.2)) false) := by
      intro pairs
      induction pairs with
      | nil => exact fun _ => trivial
      | cons p rest ih => exact fun R => ⟨trivial, ih _⟩
    exact hquiet pairs _
  · simp only [Stmt.targetsOf_eq_flatMap, List.flatMap_map, Stmt.targets, List.mem_flatMap,
      List.mem_singleton] at hn
    obtain ⟨p, hp, rfl⟩ := hn
    exact .inr (h p hp)
  · simp only [Stmt.declaredOf, List.flatMap_map, Stmt.declared, List.mem_flatMap,
      List.mem_singleton] at hn
    obtain ⟨p, hp, rfl⟩ := hn
    exact h p hp
  · simp [Stmt.leavesOf_eq_any, Stmt.leaves]

/-! ## Combinations -/

include hv in
theorem makes_planAllOf : Makes (planAllOf o) a (Suits .plain o a) := by
  refine makes_planEach (fun x _ a => ?_)
  dsimp only
  split
  · exact .pure .nothing
  · exact makes_require hv (by simp [here]) rfl

include hv hk in
theorem makes_planAlternatives
    (parts : List (Json × Nat)) (hvalid : valid ∈ τ.sets) :
    Makes (planAlternatives o valid parts) a (Suits τ o a) := by
  induction parts generalizing τ a with
  | nil => exact .pure .nothing
  | cons x rest ih =>
    refine (makes_attempt hv _ false).bind fun r b _ hgb hb hr => ?_
    obtain ⟨branch, plan⟩ := r
    have hplan : Suits τ o a plan b := hr.suits (by simp [here, composed, inside])
      fun _ => hk
    have hassign : Suits (τ.declare plan.declared) o b (.quiet [.assign valid (.var branch)]) b := by
      refine Suits.assigns [(valid, .var branch)] ?_
      rw [hr.declared]
      simpa [declare, hvalid] using knows_var (.inr (by simp))
    have hfirst : Suits τ o a (.seq plan _) b :=
      hplan.seq hassign (.refl b) hb le_rfl
    refine (ih hvalid).bind fun others c _ hgc hc hothers => .pure ?_
    split
    · exact hfirst.later hgc hc
    · refine hfirst.seq (Suits.when (Knows.negate (knows_var (.inr ?_))) ?_) hgc hb hc
      · exact List.mem_append.2 (.inl hvalid)
      · exact (hothers.mono (τ.within_declare _)).mono (within_given _ _ _)

include hv hk in
theorem makes_planAnyOf : Makes (planAnyOf o) a (Suits .plain o a) := by
  refine (makes_fresh errorsStem).bind fun before b _ _ hb hbefore => ?_
  refine (makes_fresh validStem).bind fun valid c _ _ hc hvalid => ?_
  refine (makes_planAlternatives hv hk (τ := plain.declare [valid]) _ (by simp [declare])).bind fun body d _ hgd hd hbody => .pure ?_
  have hdeclare : Suits .plain o b _ c :=
    Suits.declares [(valid, .bool false)] (by simpa using hvalid)
  refine Suits.settle hbefore (hdeclare.seq hbody hgd hc hd) hb (le_trans hc hd) ?_ hk
  intro Γ h
  have hread : Γ.reads valid := (h.sets valid (by simp [declare, Plan.declared,
    Stmt.declaredOf, Stmt.declared])).1
  exact ⟨hread, within_ownRecord h.seen (by simp)⟩

theorem suits_tally {branch passing : Name} (hb : branch ∈ τ.sets) (hv : valid ∈ τ.sets)
    (hp : passing ∈ τ.sets) (i : Nat) : Suits τ o a (tally branch valid passing i) b := by
  have hfirst : Suits τ o a (.when (.var branch)
      (.quiet [.assign valid (.bool true), .assign passing (.nat i)])) b := by
    refine Suits.when (knows_var (.inr hb)) (Suits.mono ?_ (τ.within_given _ _))
    refine Suits.assigns [(valid, .bool true), (passing, .nat i)] ?_
    simpa [hv, hp] using ⟨knows_lit _, knows_nat i⟩
  unfold tally
  split
  · exact hfirst
  · refine Suits.branch (Knows.all ?_) (Suits.mono ?_ (τ.within_given _ _)) hfirst
    · simpa using ⟨knows_var (.inr hb), knows_var (.inr hv)⟩
    · have hpair : o.Knows τ b (.array [.var passing, .nat i]) := fun Γ a h =>
        ⟨(h.sets _ hp).1, trivial, trivial⟩
      refine Suits.assigns [(valid, .bool false), (passing, .array [.var passing, .nat i])] ?_
      simpa [hv, hp] using ⟨knows_lit _, hpair⟩

include hv hk in
theorem makes_planOneOf : Makes (planOneOf o) a (Suits .plain o a) := by
  refine (makes_fresh errorsStem).bind fun before b _ _ hb hbefore => ?_
  refine (makes_fresh validStem).bind fun valid c _ _ hc hvalid => ?_
  refine (makes_fresh passingStem).bind fun passing d _ _ hd hpassing => ?_
  have hdeclare : Suits .plain o b (.quiet [.declare valid (some (.bool false)) false,
      .declare passing (some .null) false]) d := by
    refine Suits.declares [(valid, .bool false), (passing, .null)] ?_
    simpa using ⟨hvalid.mono le_rfl hd, hpassing.mono hc le_rfl⟩
  refine (makes_planEach (o := o) (τ := plain.declare [valid, passing]) (fun x _ a => ?_)).bind
    fun body e _ hge he hbody => .pure ?_
  · obtain ⟨schema, i⟩ := x
    refine (makes_attempt hv _ false).bind fun r b _ _ hb hr => .pure ?_
    refine (hr.suits (by simp [here, composed]) fun _ => hk).seq ?_ (.refl b) hb
      le_rfl
    rw [hr.declared]
    exact suits_tally (by simp [declare]) (by simp [declare]) (by simp [declare]) i
  · have hbd := le_trans hc hd
    refine Suits.settle hbefore (hdeclare.seq hbody hge hbd he) hb (le_trans hbd he) ?_ hk
    intro Γ h
    have hread : ∀ n ∈ [valid, passing], Γ.reads n := fun n hn =>
      (h.sets n (List.mem_append_right _ (List.mem_append_left _ hn))).1
    exact ⟨hread valid (by simp), within_ownRecord h.seen (by simpa using hread passing (by simp))⟩

include hv hk in
theorem makes_planNot : Makes (planNot o) a (Suits .plain o a) := by
  refine (makes_fresh errorsStem).bind fun before b _ _ hb hbefore => ?_
  refine (makes_attempt hv _ false).bind fun r c _ _ hc hr => .pure ?_
  obtain ⟨valid, plan⟩ := r
  refine Suits.settle hbefore (hr.suits (by simp [here, composed]) fun _ => hk) hb hc
    (fun Γ h => ?_) hk
  rw [hr.declared] at h
  exact ⟨(h.sets valid (by simp [declare])).1, within_ownRecord h.seen (by simp)⟩

include hv in
theorem makes_clause {taken : Name} (hvalid : valid ∈ τ.sets)
    (htaken : taken ∈ τ.sets) (keyword : String) (schema : Option Json) :
    Makes (clause o valid taken keyword schema) a fun r b =>
      ∀ p ∈ r, Suits τ o a p b := by
  cases schema with
  | none => exact .pure (by simp)
  | some schema =>
    refine (makes_attempt hv _ false).bind fun r b _ _ hb hr => .pure ?_
    obtain ⟨ok, plan⟩ := r
    simp only [Option.mem_def, Option.some.injEq, forall_eq']
    refine (hr.suits (by simp [here, inside]) (by simp [here, inside])).seq
      (Suits.assigns [(valid, .var ok), (taken, .str keyword)] ?_) (.refl b) hb le_rfl
    rw [hr.declared]
    simpa [declare, hvalid, htaken] using ⟨knows_var (.inr (by simp)), knows_str keyword⟩

theorem suits_select {matched : Name} (hm : matched ∈ τ.sets) {yes no : Option Plan}
    (hy : ∀ p ∈ yes, Suits τ o a p b) (hn : ∀ p ∈ no, Suits τ o a p b) :
    Suits τ o a (select matched yes no) b := by
  have hvar : o.Knows τ b _ := knows_var (.inr hm)
  cases yes with
  | some p =>
    have hp := (hy p rfl).mono (τ.within_given o.site.data (.var matched))
    cases no with
    | some q => exact Suits.branch hvar hp (hn q rfl)
    | none => exact Suits.when hvar hp
  | none =>
    cases no with
    | some q => exact Suits.when hvar.negate ((hn q rfl).mono (τ.within_given _ _))
    | none => exact .nothing

include hv hk in
theorem makes_planIf : Makes (planIf o) a (Suits .plain o a) := by
  unfold planIf
  dsimp only
  split
  · exact .pure .nothing
  · refine (makes_fresh validStem).bind fun valid b _ _ hb hvalid => ?_
    refine (makes_fresh clauseStem).bind fun taken c _ _ hc htaken => ?_
    refine (makes_fresh errorsStem).bind fun before d _ hgd hd hbefore => ?_
    refine (makes_attempt hv _ false).bind fun r e _ hge he hr => ?_
    obtain ⟨matched, test⟩ := r
    have hdeclare : Suits .plain o a (.quiet [.declare valid (some (.bool true)) false,
        .declare taken (some .null) false]) c := by
      refine Suits.declares [(valid, .bool true), (taken, .null)] ?_
      simpa using ⟨hvalid.mono le_rfl hc, htaken.mono hb le_rfl⟩
    have htest : Suits (plain.declare [valid, taken]) o c (.settle before test .drop) e :=
      Suits.settle hbefore (hr.suits (by simp [here, composed]) fun _ => hk) hd he
        (fun _ _ => trivial) hk
    have hτ : ∀ {n}, n = valid ∨ n = taken ∨ n = matched →
        n ∈ ((plain.declare [valid, taken]).declare [matched]).sets := by
      simp [declare]
    refine (makes_clause hv (hτ (.inl rfl)) (hτ (.inr (.inl rfl))) "then" _).bind
      fun yes f _ hgf hf hyes => ?_
    refine (makes_clause hv (hτ (.inl rfl)) (hτ (.inr (.inl rfl))) "else" _).bind
      fun no g _ hgg hg hno => .pure ?_
    have hselect : Suits _ o e
        _ g :=
      suits_select (hτ (.inr (.inr rfl))) (fun p hp => (hyes p hp).later hgg hg)
        fun p hp => (hno p hp).earlier hf
    have hreport : Suits _ o g
        (o.failUnless (.var valid) [("failingKeyword", .var taken)]) g :=
      Suits.failUnless (knows_var (.inr (hτ (.inl rfl))))
        (by simpa using knows_var (.inr (hτ (.inr (.inl rfl)))))
    have hrest := hselect.seq ((hreport.mono (within_declare _ _)).seq .nothing (.refl g)
      le_rfl le_rfl) (.refl g) (le_trans hf hg)
      le_rfl
    have hdeclared : (Plan.settle before test .drop).declared = [matched] := hr.declared
    have hce := le_trans hd he
    have heg := le_trans hf hg
    exact hdeclare.seq (htest.seq (hdeclared ▸ hrest) (hgf.trans hgg) hce heg)
      ((hgd.trans hge).trans (hgf.trans hgg)) (le_trans hb hc) (le_trans hce heg)

/-! ## Arrays -/

include hv in
theorem makes_planTuple (keyword : String) :
    Makes (planTuple keyword o) a (Suits .plain o a) := by
  refine makes_planEach (fun x _ a => ?_)
  obtain ⟨schema, i⟩ := x
  dsimp only
  split
  · exact .pure .nothing
  · have hstep : (DataStep.item (.nat i)).Granted o
        (plain.given o.site.data (.binary .gt (.len o.data) (.nat i))) :=
      ⟨by simp [given, Occurrence.data, Expr.firms], fun _ => knows_nat i⟩
    refine (makes_require hv (by simpa [along, inside] using hstep) rfl).bind fun plan b _ _ _ hp => .pure (Suits.when (knows_len.binary (knows_nat i) _) hp)

/-- In a round of a loop over the items of the data, the step to the item can be taken. -/
theorem granted_item (i : Name) (start : Expr) (breaks : Bool) :
    (DataStep.item (.var i)).Granted o
      (τ.inLoop o.site.data i (.range start (.len o.data)) breaks) :=
  ⟨by simp [inLoop, Occurrence.data, Traversal.firms],
    fun _ => knows_var (.inl (by simp [inLoop]))⟩

include hv in
theorem makes_planRest (keyword : String) (start : Nat) :
    Makes (planRest keyword start o) a (Suits .plain o a) := by
  unfold planRest
  split
  · exact .pure .nothing
  · exact .pure (Suits.failIf (knows_len.binary (knows_nat start) _) (by simpa using knows_nat start))
  · refine (makes_fresh Assertion.indexStem).bind fun i b _ _ hb hi => ?_
    refine (makes_attempt hv _ true).bind fun r c _ _ hc hr => .pure ?_
    refine Suits.loop hi hb (fun Γ h => ⟨trivial, h.seen.data⟩) (fun Γ h => ?_) ?_
    · refine hr.fits_of_offers ?_ h
      simpa [along, inside] using granted_item i (.nat start) _
    · simp [hr.composes, here, along, inside]

include hv in
theorem makes_planItems : Makes (planItems o) a (Suits .plain o a) := by
  unfold planItems
  split
  · exact makes_planTuple hv "items"
  · exact makes_planRest hv "items" _

include hv in
theorem makes_planAdditionalItems : Makes (planAdditionalItems o) a (Suits .plain o a) := by
  unfold planAdditionalItems
  split
  · exact makes_planRest hv "additionalItems" _
  · exact .pure .nothing

theorem fits_countItem (hv : valid ∈ τ.sets) (hc : count ∈ τ.sets) (min : Nat)
    (max : Option Nat) (h : Γ.Offers a b o τ) : (countItem valid count min max).Fits b.Calls Γ := by
  have hcount : o.Knows τ b (.var count) := knows_var (.inr hc)
  have hwhen : Suits τ o a (.when (.var valid)
      (.quiet [.assign count (.plus (.var count) (.nat 1))])) b := by
    refine Suits.when (knows_var (.inr hv)) (Suits.mono ?_ (τ.within_given _ _))
    refine Suits.assigns [(count, .plus (.var count) (.nat 1))] ?_
    simpa [hc] using hcount.plus (knows_nat 1)
  refine ⟨hwhen.fits _ h.loose, ?_⟩
  split
  · exact ⟨⟨.inl (h.sets count hc).1, trivial⟩, trivial, trivial⟩
  · trivial

theorem breaks_countItem (valid count : Name) (min : Nat) (max : Option Nat) :
    (countItem valid count min max).breaks = false := by
  unfold countItem
  split <;> rfl

theorem within_containsSettlement (h : o.site.Seen a.Has Γ.reads)
    (hc : Γ.reads count) (min : Nat) (max : Option Nat) :
    (containsSettlement o count min max).Within Γ.reads := by
  cases max with
  | none => exact ⟨⟨hc, trivial⟩, within_ownRecord h (by simp)⟩
  | some max =>
    refine ⟨Expr.within_all ?_, within_record h (by simp) trivial⟩
    simp only [List.mem_cons, List.not_mem_nil, or_false]
    rintro e (rfl | rfl)
    · exact ⟨hc, trivial⟩
    · exact ⟨hc, trivial⟩

include hv hk in
theorem makes_planContains : Makes (planContains o) a (Suits .plain o a) := by
  unfold planContains
  dsimp only
  refine (makes_fresh errorsStem).bind fun before b _ _ hb hbefore => ?_
  refine (makes_fresh countStem).bind fun count c _ _ hc hcount => ?_
  refine (makes_fresh Assertion.indexStem).bind fun i d _ hgd hd hi => ?_
  refine (makes_attempt hv _ false).bind fun r e _ hge he hr => .pure ?_
  obtain ⟨valid, plan⟩ := r
  have hdeclare : Suits .plain o b _ c :=
    Suits.declares [(count, .ofNat 0)] (by simpa using hcount)
  have hbreaks : (plan.seq (countItem valid count (containsBounds o).1
      (containsBounds o).2)).breaks = false := by
    simp [Plan.breaks, hr.breaks, breaks_countItem]
  refine Suits.settle hbefore (hdeclare.seq (Suits.loop hi hd ?_ (fun Γ h => ?_) fun _ => hk)
    (hgd.trans hge) hc (le_trans hd he)) hb
    (le_trans hc (le_trans hd he)) (fun Γ h => ?_) hk
  · exact fun Γ h => ⟨trivial, h.seen.data⟩
  · refine ⟨hr.fits_of_offers ?_ h.loose, ?_⟩
    · simpa [along, inside, composed] using granted_item i (.nat 0) _
    · have hnew : ∀ n ∈ plan.declared, NewName d e n := by
        rw [hr.declared]
        simpa using hr.valid
      refine fits_countItem ?_ ?_ _ _ (h.loose.declare he hnew)
      · simp [declare, hr.declared]
      · rw [hbreaks]
        simp [declare, inLoop, Plan.declared, Stmt.declaredOf, Stmt.declared]
  · refine within_containsSettlement h.seen (h.sets count ?_).1 _ _
    simp [declare, Plan.declared, Stmt.declaredOf, Stmt.declared]

/-! ## Objects -/

include hv in
theorem makes_planProperties : Makes (planProperties o) a (Suits .plain o a) := by
  refine makes_planEach (fun x _ a => ?_)
  obtain ⟨name, schema⟩ := x
  dsimp only
  split
  · exact .pure .nothing
  · have hstep : (DataStep.property name).Granted o
        (plain.given o.site.data (.has o.data (.str name))) := by
      simp [DataStep.Granted, given, Occurrence.data, Expr.firms]
    refine (makes_require hv (by simpa [along, inside] using hstep) rfl).bind fun plan b _ _ _ hp => .pure (Suits.when (o.knows_data.has (knows_str name)) hp)

/-- In a round of a loop over the keys of the data, the step to the property can be taken. -/
theorem granted_key (key : Name) (breaks : Bool) :
    (DataStep.dynamic (.var key)).Granted o (τ.inLoop o.site.data key (.keys o.data) breaks) :=
  ⟨by simp [inLoop, Occurrence.data, Traversal.firms],
    fun _ => knows_var (.inl (by simp [inLoop]))⟩

theorem knows_key (key : Name) (breaks : Bool) :
    o.Knows (τ.inLoop o.site.data key (.keys o.data) breaks) b (.var key) :=
  (granted_key key breaks).2 b

include hv in
theorem makes_planPatternProperties : Makes (planPatternProperties o) a (Suits .plain o a) := by
  refine makes_planEach (fun x _ a => ?_)
  obtain ⟨source, schema⟩ := x
  refine (makes_pattern source).bind fun pattern b _ _ hb hpattern => ?_
  refine (makes_fresh keyStem).bind fun key c _ hgc hc hkey => ?_
  refine (makes_attempt hv _ true).bind fun r d _ hgd hd hr => .pure ?_
  refine Suits.loop (hkey.mono hb le_rfl) (le_trans hb hc)
    (fun Γ h => h.seen.data) (fun Γ h => ⟨?_, ?_, trivial⟩) ?_
  · exact Knows.call ((hgc.trans hgd).hasRoutine hpattern) (by simpa using knows_key key _) Γ c h
  · refine hr.fits_of_offers ?_ ((h.loose.given _).mono (within_given _ _ _))
    simpa [along, inside] using granted_key key _
  · simp [Plan.when, Plan.composes, hr.composes, here, along, inside]

theorem makes_unnamed (hk : ∀ b, o.Knows τ b (.var key)) :
    Makes (unnamed o key) a fun tests b => ∀ e ∈ tests, o.Knows τ b e := by
  unfold unnamed
  split
  · split
    · refine (makes_inject o _).bind fun e b _ _ _ he => .pure ?_
      simpa using (he.lift.has (hk b)).negate
    · refine .pure fun e he => ?_
      obtain ⟨p, -, rfl⟩ := List.mem_map.1 he
      exact (hk a).binary (knows_str _) _
  · exact .pure (by simp)

theorem makes_unmatched (hk : ∀ b, o.Knows τ b (.var key)) :
    Makes (unmatched o key) a fun tests b => ∀ e ∈ tests, o.Knows τ b e := by
  refine Makes.mapM (R := fun _ b tests => ∀ e ∈ tests, o.Knows τ b e) (by simp) (fun x _ a => ?_) a
  obtain ⟨source, schema⟩ := x
  refine (makes_pattern source).bind fun pattern b _ _ _ hp => .pure fun c tests hg _ ht => ?_
  have hcall : o.Knows τ c (.callName pattern [.var key]) :=
    Knows.call (hg.hasRoutine hp) (by simpa using hk c)
  simpa using ⟨hcall.negate, ht⟩

include hv in
theorem makes_planAdditional
    (hs : (DataStep.dynamic (.var key)).Granted o τ) :
    Makes (planAdditional o key) a fun p b =>
      (∀ Γ : Context, Γ.Offers a b o τ → p.Fits b.Calls Γ) ∧ p.composes = false ∧ p.breaks = true := by
  unfold planAdditional
  split
  · exact .pure ⟨fun Γ h => within_ownRecord h.seen (by simpa using hs.2 a Γ a h), rfl, rfl⟩
  · refine (makes_attempt hv _ true).bind fun r b _ _ _ hr => .pure ⟨fun Γ h => ?_, ?_, hr.breaks⟩
    · refine hr.fits_of_offers ?_ h
      simpa [along, inside] using hs
    · simp [hr.composes, here, along, inside]

include hv in
theorem makes_planAdditionalProperties :
    Makes (planAdditionalProperties o) a (Suits .plain o a) := by
  unfold planAdditionalProperties
  split
  · exact .pure .nothing
  · refine (makes_fresh keyStem).bind fun key b _ _ hb hkey => ?_
    have hknows := fun b => knows_key (o := o) (τ := .plain) (b := b) key true
    refine (makes_unnamed hknows).bind fun unnamed c _ _ hc hunnamed => ?_
    refine (makes_unmatched hknows).bind fun unmatched d _ hgd hd hunmatched => ?_
    refine (makes_planAdditional hv (granted_key (τ := .plain) key true)).bind
      fun plan e _ hge he hplan => .pure ?_
    obtain ⟨hfits, hcomposes, hbreaks⟩ := hplan
    have hbody : (Plan.when (.all (unnamed ++ unmatched)) plan).breaks = true := by
      simp [Plan.when, Plan.breaks, hbreaks]
    refine Suits.loop hkey hb (fun Γ h => h.seen.data) (fun Γ h => ?_) ?_
    · rw [hbody] at h
      refine ⟨Knows.all (fun e he => ?_) Γ b h, ?_, trivial⟩
      · exact (List.mem_append.1 he).elim (fun he => (hunnamed e he).later (hgd.trans hge))
          fun he => (hunmatched e he).later hge
      · exact hfits _ (((h.later (le_trans hc hd)).loose.given _).mono
          (within_given _ _ _))
    · simp [Plan.when, Plan.composes, hcomposes]

include hv hk in
theorem makes_planPropertyNames : Makes (planPropertyNames o) a (Suits .plain o a) := by
  unfold planPropertyNames
  split
  · exact .pure .nothing
  · refine (makes_fresh keyStem).bind fun key b _ _ hb hkey => ?_
    refine (makes_attempt hv _ false).bind fun r c _ _ hc hr => .pure ?_
    obtain ⟨valid, plan⟩ := r
    refine Suits.loop hkey hb (fun Γ h => h.seen.data) (fun Γ h => ?_) fun _ => hk
    have hread : Γ.reads key := h.reads key (by simp [inLoop])
    refine ⟨hr.fits_of_offers ?_ h.loose, ?_⟩
    · simp [along, inside, composed, DataStep.Granted, inLoop,
        Occurrence.data]
    · have hvalid : (Γ.loose.declare plan.declared).reads valid := .inr (by simp [hr.declared])
      refine ⟨Expr.within_negate hvalid, ?_, trivial⟩
      refine within_ownRecord (h.seen.mono fun n hn => .inl hn) ?_
      simp only [List.mem_singleton, forall_eq]
      exact .inl hread

end SchemaCompiler

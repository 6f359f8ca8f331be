import SchemaCompiler.Proofs.Planning.Suits

/-!
# The plans of assertions

Keywords that say something of one value make plans that suit them.
-/
namespace SchemaCompiler

variable {o : Occurrence}

open Occurrence Assertion

variable {a b : Assembly Session} {equal : Name} {R : Name → Prop} {τ : Terms}

theorem Suits.all {ps : List Plan} (h : ∀ p ∈ ps, Suits .plain o a p a) :
    Suits .plain o a (.all ps) a := by
  induction ps with
  | nil => exact .nothing
  | cons p ps ih =>
    exact (h p (by simp)).seq (ih fun q hq => h q (by simp [hq])).lift (.refl a)
      le_rfl le_rfl

theorem makes_planType : Makes (Core.planType o) a (Suits .plain o a) := by
  refine .pure (Suits.failUnless (Knows.any fun e he => ?_) ?_)
  · obtain ⟨t, -, rfl⟩ := List.mem_map.1 he
    exact knows_typeIs t
  · simp [knows_str]

/-! ## Equality -/

theorem makes_alternative (he : a.HasRoutine equal) (item : Json) :
    Makes (alternative o equal item) a fun e b => o.Knows .plain b e := by
  unfold alternative
  split
  · refine (makes_inject o item).bind fun e b _ hg _ hk =>
      .pure (Knows.call (hg.hasRoutine he) ?_)
    simpa using ⟨o.knows_data, hk⟩
  · exact .pure (o.knows_data.binary (knows_lit item) _)

theorem makes_alternatives (he : a.HasRoutine equal) (items : List Json) :
    Makes (items.mapM (alternative o equal)) a fun es b =>
      ∀ e ∈ es, o.Knows .plain b e := by
  induction items generalizing a with
  | nil => exact .pure (by simp)
  | cons item items ih =>
    rw [List.mapM_cons]
    refine (makes_alternative he item).bind fun e b _ hg _ hk => ?_
    refine (ih (hg.hasRoutine he)).bind fun es c _ hg' _ hes => .pure ?_
    simpa using ⟨hk.later hg', hes⟩

theorem quiet_search {found item : Name} (he : equal.Routine) (hr : R equal) {values : Expr}
    (hd : R o.site.data) (hv : values.Within R) :
    Stmt.QuietBlock R (search o equal found item values) := by
  refine ⟨trivial, ⟨hv.mono fun n hn => .inl hn, ⟨?_, ⟨⟨?_, trivial⟩, trivial, trivial⟩, trivial⟩,
    trivial⟩, trivial⟩
  · exact Expr.within_callName he (by simp [hr]) (by simp [Occurrence.data, hd])
  · simp [Stmt.declared]

theorem makes_planEnum : Makes (planEnum o) a (Suits .plain o a) := by
  refine (makes_primitive .equal).bind fun equal b _ _ hb he => ?_
  refine (makes_valueCode).bind fun values c _ hgc hc hv => ?_
  have hab := le_trans hb hc
  have hparams : ∀ d, Growth c d → ∀ p ∈ [("allowedValues", values)], o.Knows .plain d p.2 := by
    intro d hg
    simpa using hv.later hg
  cases unrolled? o with
  | some items =>
    refine (makes_alternatives (hgc.hasRoutine he) items).bind fun tests d _ hg _ ht =>
      .pure (Suits.failUnless (Knows.any ht) (hparams d hg))
  | none =>
    refine (makes_fresh validStem).bind fun found d _ hgd hd hfound => ?_
    refine (makes_fresh itemStem).bind fun item e _ hge hde hitem => .pure ?_
    have hg := hgd.trans hge
    have he := (hgc.trans hg).hasRoutine he
    have hfound' : NewName a e found := hfound.mono hab hde
    have hitem' : NewName a e item :=
      hitem.mono (le_trans hab hd) le_rfl
    have hquiet : Suits .plain o a (.quiet (search o equal found item values)) e := by
      refine Suits.quiet (fun Γ h => quiet_search he.1 (h.seen.reserved _ he.1.reserved he.2)
        h.seen.data (hv.later hg Γ a h)) ?_ ?_ rfl
      · simp only [search, Stmt.targetsOf, Stmt.targets, List.cons_append,
          List.nil_append, List.mem_cons, List.not_mem_nil, or_false]
        rintro n (rfl | rfl | rfl) <;> exact .inr (by assumption)
      · simpa [Stmt.declaredOf, search, Stmt.declared] using hfound'
    refine hquiet.seq (Suits.failUnless (knows_var (.inr ?_)) fun p hp => (hparams e hg p hp).lift)
      (.refl e) (le_trans hab (le_trans hd hde)) le_rfl
    simp [Terms.declare, Plan.declared, Stmt.declaredOf, search, Stmt.declared]

theorem makes_planConst : Makes (planConst o) a (Suits .plain o a) := by
  refine (makes_valueCode).bind fun value b _ _ _ hv => ?_
  split
  · exact .pure (Suits.failIf (o.knows_data.binary hv _) (by simpa using hv))
  · refine (makes_primitive .equal).bind fun equal c _ hg _ he => .pure ?_
    have hv := hv.later hg
    exact Suits.failUnless (Knows.call he (by simpa using ⟨o.knows_data, hv⟩)) (by simpa using hv)

/-! ## Numbers and sizes -/

theorem makes_planLimit (fails : BinaryOp) (comparison : String) : Makes (planLimit fails comparison o) a (Suits .plain o a) := by
  refine (makes_valueCode).bind fun limit b _ _ _ hv => .pure ?_
  exact Suits.failIf (o.knows_data.binary hv _) (by simpa using ⟨knows_str comparison, hv⟩)

theorem makes_planMultiple : Makes (planMultiple o) a (Suits .plain o a) := by
  refine (makes_valueCode).bind fun divisor b _ _ _ hv => .pure ?_
  have hquotient : o.Knows .plain b _ :=
    o.knows_data.binary hv .div
  exact Suits.failIf hquotient.negate (by simpa using hv)

theorem makes_sizeCode (type : JsonType) :
    Makes (sizeCode type o) a fun e b => o.Knows .plain b e := by
  unfold sizeCode
  split
  · refine (makes_primitive .codePoints).bind fun n b _ _ _ hn => .pure ?_
    exact Knows.call hn (by simpa using o.knows_data)
  · exact .pure o.knows_len

theorem makes_planSize (type : JsonType) (fails : BinaryOp) : Makes (planSize type fails o) a (Suits .plain o a) := by
  refine (makes_valueCode).bind fun limit b _ _ _ hv => ?_
  refine (makes_sizeCode type).bind fun size c _ hg _ hs => .pure ?_
  have hv := hv.later hg
  exact Suits.failIf (hs.binary hv _) (by simpa using hv)

/-! ## Texts -/

theorem makes_planPattern : Makes (planPattern o) a (Suits .plain o a) := by
  refine (makes_pattern _).bind fun pattern b _ _ _ hp => .pure ?_
  exact Suits.failUnless (Knows.call hp (by simpa using o.knows_data)) (by simp [knows_str])

theorem Format.isPlain_descriptor (f : Format) (name : String) : (f.descriptor name).IsPlain := by
  unfold descriptor
  split
  · exact Descriptor.isPlain_keyed (by simp) (by simp) (by simp) (by simp)
  · exact Descriptor.isPlain_keyed (by simp) (by simp) (by simp) (by simp)
  · exact Descriptor.isPlain_keyed (by simp) (by simp) (by simp) (by simp)

theorem makes_planFormat : Makes (planFormat o) a (Suits .plain o a) := by
  unfold planFormat
  split
  · exact .pure .nothing
  · dsimp only
    split
    · split
      · exact .throw _
      · exact .pure .nothing
    · rename_i f _
      split
      · exact .throw _
      · refine (makes_routine (by decide) (f.isPlain_descriptor _)).bind
          fun test b _ _ _ ht => .pure (Suits.failIf (Knows.all ?_) (by simp [knows_str]))
        have hcall : o.Knows .plain b (.callName test [o.data]) :=
          Knows.call ht (by simpa using o.knows_data)
        have hawait : o.Knows .plain b (if f.isAsync then Expr.await (.callName test [o.data])
            else .callName test [o.data]) := by
          split
          · exact hcall
          · exact hcall
        simp only [List.mem_cons, List.not_mem_nil, or_false]
        rintro e (rfl | rfl)
        · refine Knows.any fun e he => ?_
          obtain ⟨t, -, rfl⟩ := List.mem_map.1 he
          exact knows_typeIs t
        · exact hawait.negate

/-! ## Arrays -/

theorem quiet_searchPair {earlier later i j : Name} (he : equal.Routine) (hr : R equal)
    (hd : R o.site.data) : Stmt.QuietBlock R (searchPair o equal earlier later i j) := by
  have hequal : ∀ {S : Name → Prop}, S equal → S o.site.data → S i → S j →
      (Expr.callName equal [.index o.data (.var i), .index o.data (.var j)]).Within S := by
    intro S hr hd hi hj
    refine Expr.within_callName he hr ?_
    simp only [List.mem_cons, List.not_mem_nil, or_false]
    rintro e (rfl | rfl)
    · exact ⟨hd, hi⟩
    · exact ⟨hd, hj⟩
  simp only [searchPair, Stmt.QuietBlock, Stmt.Quiet, Stmt.declared, List.mem_singleton,
    and_true, true_and, Expr.within_null, Expr.within_nat,
    Expr.within_var, Expr.within_differs, or_true, true_or]
  exact ⟨.inl (.inl hd), Expr.within_plus (Or.inr rfl) trivial, .inl (.inl (.inl hd)),
    hequal (.inl (.inl (.inl (.inl hr)))) (.inl (.inl (.inl (.inl hd)))) (.inl (.inr rfl))
      (.inr rfl)⟩

theorem makes_planUnique : Makes (planUnique o) a (Suits .plain o a) := by
  unfold planUnique
  split
  · exact .pure .nothing
  · refine (makes_primitive .equal).bind fun equal b _ _ hb he => ?_
    refine (makes_fresh earlierStem).bind fun earlier c _ hgc hc hearlier => ?_
    refine (makes_fresh laterStem).bind fun later d _ hgd hd hlater => ?_
    refine (makes_fresh indexStem).bind fun i e _ hge hi hindex => ?_
    refine (makes_fresh innerIndexStem).bind fun j f _ hgf hj hinner => .pure ?_
    have he := (hgc.trans (hgd.trans (hge.trans hgf))).hasRoutine he
    have hab := hb
    have hac := le_trans hab hc
    have had := le_trans hac hd
    have hae := le_trans had hi
    have hearlier' : NewName a f earlier :=
      hearlier.mono hab (le_trans hd (le_trans hi hj))
    have hlater' : NewName a f later := hlater.mono hac (le_trans hi hj)
    have hindex' : NewName a f i := hindex.mono had hj
    have hinner' : NewName a f j := hinner.mono hae le_rfl
    have hquiet : Suits .plain o a (.quiet (searchPair o equal earlier later i j)) f := by
      refine Suits.quiet (fun Γ h => quiet_searchPair he.1
        (h.seen.reserved _ he.1.reserved he.2) h.seen.data) ?_ ?_ rfl
      · simp only [searchPair, Stmt.targetsOf, Stmt.targets, List.cons_append,
          List.nil_append, List.mem_cons, List.not_mem_nil, or_false]
        rintro n (rfl | rfl | rfl | rfl | rfl | rfl) <;> exact .inr (by assumption)
      · simpa [Stmt.declaredOf, searchPair, Stmt.declared] using ⟨hearlier', hlater'⟩
    have hknown : ∀ n, n = earlier ∨ n = later →
        o.Knows (Terms.plain.declare
          (Plan.quiet (searchPair o equal earlier later i j)).declared) f (.var n) := by
      intro n hn
      refine knows_var (.inr ?_)
      simpa [Terms.plain, Terms.declare, Plan.declared, Stmt.declaredOf, searchPair,
        Stmt.declared] using hn
    refine hquiet.seq (Suits.failIf ((hknown earlier (.inl rfl)).binary (knows_lit _) _) ?_)
      (.refl f) (le_trans hae hj) le_rfl
    simpa using ⟨hknown earlier (.inl rfl), hknown later (.inr rfl)⟩

/-! ## Objects -/

theorem knows_lacks {p : Expr} (h : o.Knows τ b p) : o.Knows τ b (lacks o p) :=
  (o.knows_data.has h).negate

theorem suits_demandAll (ps : List Expr) (h : ∀ p ∈ ps, o.Knows .plain b p) :
    Suits τ o a (demandAll o ps) b := by
  induction ps generalizing τ with
  | nil => exact .nothing
  | cons p ps ih =>
    have hp := h p (by simp)
    have hps := fun τ => ih (τ := τ) fun q hq => h q (by simp [hq])
    exact ⟨fun Γ hΓ => ⟨knows_lacks hp.lift Γ a hΓ,
      within_ownRecord hΓ.seen (by simpa [missing] using hp.lift Γ a hΓ),
      (hps τ.frozen).fits _ hΓ.loose.frozen, (hps τ).stays⟩, (hps τ).stays,
      by simp [demandAll, Plan.declared], (hps τ).composes⟩

theorem makes_planRequired : Makes (planRequired o) a (Suits .plain o a) := by
  unfold planRequired
  split
  · refine (makes_valueCode).bind fun names b _ _ hb hn => ?_
    refine (makes_fresh propertyStem).bind fun p c _ hg hc hp => .pure ?_
    refine Suits.loop (hp.mono hb le_rfl) (le_trans hb hc)
      (fun Γ h => hn.later hg Γ a h) (fun Γ h => ?_) (by simp)
    have hread : Γ.reads p := h.reads p (by simp [Terms.inLoop])
    exact Plan.fits_failIf h.seen (knows_lacks (knows_var (.inl (by simp [Terms.inLoop]))) Γ c h)
      (by simpa [missing] using hread)
  · refine .pure (suits_demandAll _ fun p hp => ?_)
    obtain ⟨s, -, rfl⟩ := List.mem_map.1 hp
    exact knows_str s

theorem makes_planDependent : Makes (planDependent o) a (Suits .plain o a) := by
  refine .pure (Suits.all fun p hp => ?_)
  obtain ⟨⟨property, names⟩, -, rfl⟩ := List.mem_map.1 hp
  dsimp only
  unfold dependents
  split
  · exact .nothing
  · refine Suits.when (o.knows_data.has (knows_str property)) (Suits.all fun p hp => ?_).lift
    obtain ⟨e, he, rfl⟩ := List.mem_map.1 hp
    obtain ⟨s, -, rfl⟩ := List.mem_map.1 he
    exact Suits.failIf (knows_lacks (knows_str s)) (by simp [missing, knows_str])

end SchemaCompiler

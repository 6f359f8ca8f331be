import SchemaCompiler.Proofs.Planning.Applicators
import SchemaCompiler.Proofs.Planning.Assertions
import SchemaCompiler.Proofs.Planning.Pointers
import SchemaCompiler.Proofs.Planning.References

/-!
# The plans of schemas

The plans of keywords are put together group by group. A test of the type of the data that is left
out because `type` comes first is one that `type` ensures. So the plan of a schema fits where it
stands, if those of its keywords do, and the keywords that are always there see to that.
-/
namespace SchemaCompiler

open Occurrence Dialect

variable {o : Occurrence} {site : Site} {a b c : Assembly Session} {Γ : Context}
  {around : List Enclosure} {d : Dialect} {pointer : String} {e : Expr} {p q : Plan} {k : Keyword}
  {visit : Site → Planner Plan} {v : Json} {before : Name} {members : List (String × Json)}
  {w : Setting} {m : Mode} {ρ : Locals} {f : Finding} {t : JsonType} {types : List JsonType}
  {group : KeywordGroup}

/-! ## One keyword -/

theorem Context.Hosts.inside (h : Γ.Hosts a c site) (around : List Enclosure) :
    Γ.Hosts a c (site.inside around) :=
  ⟨⟨h.seen.reserved, h.seen.data, h.seen.levels, h.seen.path, h.seen.root⟩, h.old, h.data⟩

theorem makes_planTest (test : Json → Json → Bool) (path : Option String) : Makes (planTest test path o) a (Suits .plain o a) := by
  have hplain : (Descriptor.keyed ("keyword:" ++ o.keyword) (.keyword test)
      (path.map StoredValue.imported)).IsPlain :=
    Descriptor.isPlain_keyed (by simp) (by simp) (by simp) (by simp)
  refine (makes_routine (by decide) hplain).bind fun name b _ _ _ hname => ?_
  refine (makes_valueCode).bind fun value c _ hg _ hvalue => .pure ?_
  have hname := hg.hasRoutine hname
  exact Suits.failUnless (Knows.call hname (by simpa using ⟨hvalue, o.knows_data⟩)) (by simp)

theorem makes_planExpansion (d : Dialect) (hv : Visits o.visit) (expand : Json → Json → Json) : Makes (d.planExpansion expand o) a (Suits .plain o a) := by
  unfold planExpansion
  dsimp only
  split
  · exact .throw _
  · exact makes_require hv (by simp [Inner.here]) rfl

/-- A pointer into the data starts from the root or from a level and takes steps by literals. -/
theorem Site.dataPointer_induction {P : Expr → Prop} (hroot : P (.var site.rootData))
    (hlevels : ∀ n ∈ site.levels, P (.var n)) (hnat : ∀ e n, P e → P (.index e (.nat n)))
    (hstr : ∀ e s, P e → P (.index e (.str s))) (he : site.dataPointer pointer = .ok e) : P e := by
  obtain ⟨start, rest, hstart, rfl, -⟩ := of_dataPointer he
  refine List.foldlRecOn _ _ ?_ fun e he token _ => ?_
  · unfold startOf at hstart
    split at hstart
    · cases hstart
      exact hroot
    · simp only [Option.bind_eq_bind, Option.bind_eq_some_iff] at hstart
      obtain ⟨up, -, n, hn, heq⟩ := hstart
      cases heq
      exact hlevels _ (List.mem_reverse.1 (List.mem_of_getElem? hn))
  · unfold Expr.towards
    split
    · split
      · exact hnat e _ he
      · exact hstr e _ he
    · exact hstr e _ he

theorem Site.within_dataPointer {H R : Name → Prop} (h : site.Seen H R)
    (he : site.dataPointer pointer = .ok e) : e.Within R :=
  dataPointer_induction h.root h.levels (fun _ _ he => ⟨he, trivial⟩)
    (fun _ _ he => ⟨he, trivial⟩) he

theorem knows_typeTest {τ : Terms} (h : o.Knows τ b e) (types : List JsonType) :
    o.Knows τ b (typeTest types e) := by
  refine Knows.any fun e' he => ?_
  obtain ⟨t, -, rfl⟩ := List.mem_map.1 he
  exact h

def Occurrence.onData (o : Occurrence) (code : Name) (around : List Enclosure) : Occurrence :=
  { o with dataCode := some (.var code), site := o.site.inside around }

theorem Suits.of_onData {code : Name} (h : Suits .plain (o.onData code around) a p b) :
    Suits (Terms.plain.declare [code]) o a p b where
  fits := fun Γ hΓ => by
    refine h.fits Γ ⟨hΓ.host.inside around, ?_, nofun, nofun, nofun, nofun⟩
    rintro e ⟨⟩
    exact (hΓ.sets code (by simp [Terms.declare])).1
  stays := h.stays
  declared := h.declared
  composes := h.composes

theorem makes_planOnData (k : Keyword) {plan : Occurrence → Planner Plan}
    (hp : ∀ code around a, Makes (plan (o.onData code around)) a
      (Suits .plain (o.onData code around) a)) :
    Makes (planOnData k o plan) a (Suits .plain o a) := by
  unfold planOnData
  split
  · exact .throw _
  · rename_i pointer hpointer
    refine (makes_fresh dataSchemaStem).bind fun code b _ _ hb hcode => ?_
    refine (hp code _ b).bind fun body c _ hgc hc hbody => .pure ?_
    have hknown : o.Knows (Terms.plain.declare [code]) c (.var code) :=
      knows_var (.inr (by simp [Terms.declare]))
    have hbody := hbody.of_onData
    have hquiet : Suits .plain o a (.quiet [.declare code (some pointer) true]) b := by
      refine Suits.quiet (fun Γ h => ⟨Site.within_dataPointer h.seen hpointer, trivial⟩) ?_ ?_ rfl
      · simpa [Stmt.targetsOf, Stmt.targets] using Or.inr hcode
      · simpa [Stmt.declaredOf, Stmt.declared] using hcode
    refine hquiet.seq (Suits.when (hknown.binary (knows_lit _) _) (Suits.mono ?_
      (Terms.within_given _ _ _))) hgc hb hc
    split
    · exact hbody
    · exact Suits.branch (knows_typeTest hknown _).negate
        (Suits.report (by simp) (knows_str _)) hbody

def Keyword.Proper (k : Keyword) : Prop :=
  match k.kind with
  | .code plan => ∀ o : Occurrence, o.keyword = k.keyword → Visits o.visit →
      ∀ a, Makes (plan o) a (Suits .plain o a)
  | .script _ => False
  | _ => True

/-- The plan of a keyword of a schema. -/
structure Placed (site : Site) (keyword : String) (a : Assembly Session) (p : Plan)
    (b : Assembly Session) : Prop where
  fits : ∀ Γ : Context, Γ.Hosts a b site → p.Fits b.Calls Γ
  stays : p.escapes = false
  composes : p.composes = true → keyword ∈ compositions

theorem Suits.placed (hs : o.site = site.inside around) (hd : o.dataCode = none)
    (h : Suits .plain o a p b) : Placed site o.keyword a p b where
  fits := fun Γ hΓ => h.fits Γ ⟨hs ▸ hΓ.inside around, by simp [hd], nofun, nofun, nofun, nofun⟩
  stays := h.stays
  composes := h.composes

theorem makes_planKeyword (hv : Visits visit) (hk : k.Proper) (group : Option JsonType) (v : Json) :
    Makes (d.planKeyword visit site group k v) a (Placed site k.keyword a) := by
  unfold planKeyword
  dsimp only
  generalize hguard : keywordGuard k site group = guard
  generalize hinner : Occurrence.mk k.keyword v none
    _ k.template d.options.policy d.formats
    visit = inner
  have hsite : inner.site = site.inside (guard.toList.map fun _ => .always .branch) := by
    rw [← hinner]
  have hvisit : Visits inner.visit := by
    rw [← hinner]
    exact hv
  have hkeyword : inner.keyword = k.keyword := by rw [← hinner]
  have hknown : ∀ b, ∀ e ∈ guard, inner.Knows .plain b e := by
    rintro b e rfl
    simp only [keywordGuard] at hguard
    split at hguard
    · cases hguard
    · cases hguard
      rw [show (Expr.var site.data) = inner.data by rw [← hinner]; rfl]
      exact knows_typeTest inner.knows_data _
  have hplaced : ∀ {p b}, Suits .plain inner a p b → Placed site k.keyword a _ b :=
    fun hp => hkeyword ▸ (Suits.guarded (hknown _) hp).placed hsite (by rw [← hinner])
  have honValue : ∀ plan : Occurrence → Planner Plan,
      (∀ o : Occurrence, o.keyword = k.keyword → Visits o.visit →
        ∀ a, Makes (plan o) a (Suits .plain o a)) →
      Makes (if d.refersToData k v then do
          let p ← planOnData k inner plan
          pure (Plan.guarded guard p)
        else do
          let p ← plan inner
          pure (Plan.guarded guard p)) a (Placed site k.keyword a) := by
    intro plan hplan
    split
    · refine (makes_planOnData k (fun code around a => ?_)).bind fun p b _ _ _ hp =>
        .pure (hplaced hp)
      exact hplan (inner.onData code around) hkeyword hvisit a
    · exact (hplan inner hkeyword hvisit a).bind fun p b _ _ _ hp => .pure (hplaced hp)
  unfold Keyword.Proper at hk
  split
  · exact .pure ⟨fun _ _ => trivial, rfl, by simp [Plan.composes]⟩
  · exact (makes_planExpansion d hvisit _).bind fun p b _ _ _ hp => .pure (hplaced hp)
  · rename_i plan hkind
    rw [hkind] at hk
    exact honValue plan hk
  · rename_i test path hkind
    exact honValue _ fun o _ _ a => makes_planTest test path
  · rename_i script hkind
    rw [hkind] at hk
    exact hk.elim

/-! ## Groups of keywords -/

theorem Plan.Ensures.next {test : Expr} (h : p.Ensures test) :
    (Plan.next before p q).Ensures test := by
  intro w m ρ f hf he
  obtain ⟨g, hg, hthen⟩ := bind_eq_ok.1 hf
  refine h w m ρ g hg ?_
  rcases Finding.andThen_eq_ok.1 hthen with ⟨-, r, -, rfl⟩ | ⟨-, rfl⟩
  · exact (List.append_eq_nil_iff.1 he).1
  · exact he

/-- The plan of keywords of a schema, behind the start of the schema. -/
structure Cascaded (site : Site) (a : Assembly Session) (p : Plan) (b : Assembly Session) :
    Prop where
  fits : ∀ Γ : Context, Γ.Hosts a b site → Γ.node = some site.errorsBefore → p.Fits b.Calls Γ
  stays : p.escapes = false
  composes : p.composes = true → site.schema.composes = true

theorem Context.Hosts.knowing (h : Γ.Hosts a c site) (p : Plan) :
    (Γ.knowing p).Hosts a c site := ⟨h.seen, h.old, h.data⟩

theorem Cascaded.next (hp : Cascaded site a p b) (hstays : q.escapes = false)
    (hq : ∀ Γ : Context, Γ.Hosts b c site → Γ.node = some site.errorsBefore →
      (∀ test, p.Ensures test → Γ.known test) → q.Fits c.Calls Γ)
    (hcomposes : q.composes = true → site.schema.composes = true) (hg : Growth b c)
    (hn : a.names ≤ b.names) : Cascaded site a (.next site.errorsBefore p q) c where
  fits := fun Γ hΓ hnode => by
    refine ⟨hnode, (hp.fits _ (hΓ.frozen.before hg) hnode).mono fun _ _ => hg.calls, ?_, hstays⟩
    exact hq _ ((hΓ.frozen.later hn).knowing p) hnode fun test => .inr
  stays := by simp [Plan.escapes, hp.stays, hstays]
  composes := fun h => by
    simp only [Plan.composes, Bool.or_eq_true] at h
    exact h.elim hp.composes hcomposes

theorem Cascaded.of_inside (h : Cascaded (site.inside around) a p b) : Cascaded site a p b :=
  ⟨fun Γ hΓ => h.fits Γ (hΓ.inside around), h.stays, h.composes⟩

theorem makes_planCascade (hv : Visits visit) (group : Option JsonType)
    (keywords : List (Keyword × Json)) (hk : ∀ x ∈ keywords, x.1.Proper ∧
      (x.1.keyword ∈ compositions → site.schema.composes = true)) :
    Makes (d.planCascade visit group site keywords) a (Cascaded site a) := by
  induction keywords generalizing site a with
  | nil => exact .pure ⟨fun _ _ _ => trivial, rfl, by simp [Plan.composes]⟩
  | cons x rest ih =>
    obtain ⟨k, v⟩ := x
    have hfirst := hk (k, v) (by simp)
    refine (makes_planKeyword hv hfirst.1 group v).bind fun first b _ hgb hb hplaced => ?_
    have hrest : ∀ x ∈ rest, x.1.Proper ∧ (x.1.keyword ∈ compositions →
        (site.inside [⟨.branch, some false⟩]).schema.composes = true) :=
      fun x hx => hk x (by simp [hx])
    refine (ih hrest).bind fun others c _ hgc hc hothers => .pure ?_
    have hothers := hothers.of_inside
    have hcascaded : Cascaded site a first b :=
      ⟨fun Γ hΓ _ => hplaced.fits Γ hΓ, hplaced.stays, fun h => hfirst.2 (hplaced.composes h)⟩
    split
    · exact { hcascaded with
        fits := fun Γ hΓ hnode =>
          (hcascaded.fits Γ (hΓ.before hgc) hnode).mono fun _ _ => hgc.calls }
    · exact hcascaded.next hothers.stays (fun Γ hΓ hnode _ => hothers.fits Γ hΓ hnode)
        hothers.composes hgc hb

def Pins (site : Site) (types : List JsonType) (p : Plan) : Prop :=
  ∀ group t, isPinned types group = true → KeywordGroup.type? group = some t →
    p.Ensures (.typeIs (.var site.data) t)

theorem Pins.nil (site : Site) (p : Plan) : Pins site [] p := by
  intro group t h
  simp [isPinned] at h

theorem Pins.next (h : Pins site types p) : Pins site types (.next before p q) :=
  fun group t hpinned ht => (h group t hpinned ht).next

theorem mem_groupKeywords_iff : (k, v) ∈ d.groupKeywords members group ↔
      k ∈ d.vocabulary.keywords ∧ isActive k = true ∧ group ∈ k.groups ∧
        d.isSuperseded members k.keyword = false ∧ Assoc.get? k.keyword members = some v := by
  unfold groupKeywords
  simp only [List.mem_filterMap, List.mem_filter, Option.map_eq_some_iff, Prod.mk.injEq]
  constructor
  · rintro ⟨k, ⟨hk, hfilter⟩, v, hv, rfl, rfl⟩
    simp only [Bool.and_eq_true, List.contains_iff_mem, Bool.not_eq_true'] at hfilter
    exact ⟨hk, hfilter.1.1, hfilter.1.2, hfilter.2, hv⟩
  · rintro ⟨hk, hactive, hgroup, hsuperseded, hv⟩
    exact ⟨k, ⟨hk, by simp [hactive, hgroup, hsuperseded]⟩, v, hv, rfl, rfl⟩

theorem mem_groupKeywords {x : Keyword × Json} (h : x ∈ d.groupKeywords members group) :
    x.1 ∈ d.vocabulary.keywords ∧ Assoc.get? x.1.keyword members = some x.2 := by
  obtain ⟨hk, -, -, -, hv⟩ := mem_groupKeywords_iff.1 h
  exact ⟨hk, hv⟩

theorem composes_of_get? {keyword : String} (hm : site.schema = .object members)
    (hv : Assoc.get? keyword members = some v) (hk : keyword ∈ compositions) :
    site.schema.composes = true := by
  rw [hm]
  exact List.any_eq_true.2 ⟨keyword, hk, by simp [Json.get?, hv]⟩

theorem fits_typedGroup {body : Plan} (hΓ : Γ.Hosts a c site) (hb : body.Fits b.Calls Γ)
    (hk : ∀ t, isPinned types group = true → group.type? = some t →
      Γ.known (.typeIs (.var site.data) t)) :
    (typedGroup site types group body).Fits b.Calls Γ := by
  unfold typedGroup
  split
  · rename_i t ht
    exact ⟨hΓ.seen.data, fun hpinned => hk t hpinned ht, hb⟩
  · exact hb

section TypedGroup

variable (site) (types : List JsonType) (group : KeywordGroup) (body : Plan)

@[simp] theorem escapes_typedGroup : (typedGroup site types group body).escapes = body.escapes := by
  unfold typedGroup
  split <;> rfl

@[simp] theorem composes_typedGroup :
    (typedGroup site types group body).composes = body.composes := by
  unfold typedGroup
  split <;> rfl

end TypedGroup

theorem makes_planGroups (hv : Visits visit) (hd : ∀ k ∈ d.vocabulary.keywords, k.Proper)
    (hm : site.schema = .object members) (types : List JsonType) (groups : List KeywordGroup)
    (done : Option Plan) (hdone : ∀ p ∈ done, Cascaded site a p b ∧ Pins site types p)
    (ht : done = none → types = []) (hab : a.names ≤ b.names) :
    Makes (d.planGroups visit site members types done groups) b (Cascaded site a) := by
  induction groups generalizing done b with
  | nil =>
    cases done with
    | none => exact .pure ⟨fun _ _ _ => trivial, rfl, by simp [Plan.composes]⟩
    | some p => exact .pure (hdone p rfl).1
  | cons group rest ih =>
    unfold planGroups
    dsimp only
    split
    · exact ih done hdone ht hab
    · have hkeywords : ∀ x ∈ d.groupKeywords members group, x.1.Proper ∧
          (x.1.keyword ∈ compositions → site.schema.composes = true) := fun x hx =>
        ⟨hd _ (mem_groupKeywords hx).1, composes_of_get? hm (mem_groupKeywords hx).2⟩
      refine (@makes_planCascade (site.inside _) b d visit hv group.type? _ hkeywords).bind
        fun body c _ hgc hc hbody => ?_
      have hgroup : Cascaded site b body c := hbody.of_inside
      cases done with
      | none =>
        have hnil : types = [] := ht rfl
        refine ih _ (fun p hp => ?_) (by simp) (le_trans hab hc)
        cases hp
        subst hnil
        refine ⟨⟨fun Γ hΓ hnode => ?_, by simp [hgroup.stays], by simpa using hgroup.composes⟩,
          .nil site _⟩
        refine fits_typedGroup hΓ (hgroup.fits Γ (hΓ.later hab) hnode) fun t hp => ?_
        simp [isPinned] at hp
      | some earlier =>
        obtain ⟨hearlier, hpins⟩ := hdone earlier rfl
        refine ih _ (fun p hp => ?_) (by simp) (le_trans hab hc)
        cases hp
        refine ⟨hearlier.next (by simp [hgroup.stays]) (fun Γ hΓ hnode hknown => ?_)
          (by simpa using hgroup.composes) hgc hab, hpins.next⟩
        exact fits_typedGroup hΓ (hgroup.fits Γ hΓ hnode) fun t hp ht =>
          hknown _ (hpins group t hp ht)

/-! ## The type first -/

theorem Expr.eq_of_isFalse (h : e.isFalse = true) : e = .lit (.bool false) := by
  unfold isFalse at h
  split at h
  · rfl
  · cases h

theorem Setting.errors_report {record : Expr} {breaks : Bool}
    (h : w.report m record breaks ρ = .ok f) : f.errors ≠ [] := by
  obtain ⟨v, -, rfl⟩ := map_eq_ok.1 h
  simp

theorem Plan.test_of_failIf {condition : Expr} {params : List (String × Expr)}
    (h : (o.failIf condition params).meaning w m ρ = .ok f) (he : f.errors = []) {b : Bool}
    (hb : w.test ρ condition = .ok b) : b = false := by
  unfold Occurrence.failIf at h
  split at h
  · rename_i hfalse
    rw [Expr.eq_of_isFalse hfalse] at hb
    exact Setting.eq_of_test_lit hb
  · split at h
    · exact absurd he (Setting.errors_report h)
    · simp only [Plan.when, Plan.meaning, hb] at h
      cases b with
      | false => rfl
      | true => exact absurd he (Setting.errors_report h)

theorem KeywordGroup.holds_of_type? {t' : JsonType}
    (ht : group.type? = some t) (hg : KeywordGroup.of t' = group) (h : t'.holds v = true) :
    t.holds v = true := by
  subst hg
  cases t' <;> cases ht <;> cases v <;> simp_all [JsonType.holds]

theorem ensures_planType (hp : isPinned types group = true) (ht : group.type? = some t)
    (params : List (String × Expr)) :
    (o.failUnless (.any (types.map fun t => .typeIs o.data t)) params).Ensures
      (.typeIs (.var o.site.data) t) := by
  intro w m ρ f hf he b hb
  rw [Setting.test_typeIs] at hb
  obtain ⟨v, hv, rfl⟩ := map_eq_ok.1 hb
  have htypes : ∀ e ∈ types.map (fun t => Expr.typeIs o.data t),
      w.test ρ e = .ok ((fun e => match e with
        | .typeIs _ t => t.holds v
        | _ => false) e) := by
    intro e hmem
    obtain ⟨t', -, rfl⟩ := List.mem_map.1 hmem
    rw [Setting.test_typeIs, Occurrence.data, hv]
    rfl
  have hany := Setting.test_any htypes
  have hnegate := Setting.test_negate w ρ (.any (types.map fun t => .typeIs o.data t))
  rw [hany] at hnegate
  have hfalse := Plan.test_of_failIf hf he hnegate
  simp only [Bool.not_eq_false', List.any_map, List.any_eq_true] at hfalse
  obtain ⟨t', hmem, hholds⟩ := hfalse
  simp only [isPinned, Bool.and_eq_true, List.all_eq_true] at hp
  exact KeywordGroup.holds_of_type? ht (by simpa using hp.2 t' hmem) hholds

/-- A dialect whose keywords make plans that suit them, `type` among them. -/
structure Dialect.Proper (d : Dialect) : Prop where
  keywords : ∀ k ∈ d.vocabulary.keywords, k.Proper
  type : ∃ k ∈ d.vocabulary.keywords, d.vocabulary.get? "type" = some k ∧ k.keyword = "type" ∧
    k.kind = .code Core.planType ∧ k.types = [] ∧ k.takesData = false

theorem Dialect.planKeyword_type (hkind : k.kind = .code Core.planType) (htypes : k.types = [])
    (hdata : k.takesData = false) (v : Json) : d.planKeyword visit site none k v = pure
      (let o : Occurrence := ⟨k.keyword, v, none, site.inside [], k.template, d.options.policy,
        d.formats, visit⟩
      o.failUnless
        (.any (((Core.typeNames v).filterMap JsonType.ofName?).map fun t => .typeIs o.data t))
        [("type", .str (",".intercalate (Core.typeNames v)))]) := by
  simp only [planKeyword, keywordGuard, hkind, htypes, refersToData, hdata, Bool.and_false]
  rfl

theorem pins_planType (htype : Assoc.get? "type" members = some v) (params : List (String × Expr)) :
    Pins o.site (Core.typesOf members) (o.failUnless
      (.any (((Core.typeNames v).filterMap JsonType.ofName?).map fun t => .typeIs o.data t))
      params) := by
  intro group t hp ht
  have htypes : Core.typesOf members = (Core.typeNames v).filterMap JsonType.ofName? := by
    rw [Core.typesOf, htype]
  rw [htypes] at hp
  exact ensures_planType hp ht _

theorem makes_planMembers (hd : d.Proper) (hv : Visits visit) (hm : site.schema = .object members) : Makes (d.planMembers visit site members) a (Cascaded site a) := by
  obtain ⟨k, hmem, hget, hkeyword, hkind, htypes, hdata⟩ := hd.type
  refine .of_coherent fun ha => ?_
  unfold planMembers
  rw [hget]
  cases htype : Assoc.get? "type" members with
  | none =>
    refine makes_planGroups hv hd.keywords hm _ _ none (by simp) (fun _ => ?_) le_rfl
    rw [Core.typesOf, htype]
  | some v =>
    have hplaced : Makes (d.planKeyword visit site none k v) a _ :=
      makes_planKeyword hv (hd.keywords k hmem) none v
    rw [planKeyword_type hkind htypes hdata v] at hplaced
    obtain ⟨-, -, -, -, hfirst⟩ := hplaced ha
    dsimp only
    rw [planKeyword_type hkind htypes hdata v]
    refine makes_planGroups hv hd.keywords hm _ _ _ (fun p hp => ?_) (by simp) le_rfl
    cases hp
    refine ⟨⟨fun Γ hΓ _ => hfirst.fits Γ hΓ, hfirst.stays, fun hc => ?_⟩,
      pins_planType htype _⟩
    have hcomposition := hfirst.composes hc
    rw [hkeyword] at hcomposition
    exact absurd hcomposition (by decide)

/-! ## Whole schemas -/

/-- The plan of a schema stands for itself: it weighs no errors but those of its own keywords. -/
theorem Cascaded.planned (h : Cascaded site a p b) : Planned site a (.schema site.schema p) b where
  fits := fun Γ hΓ hnode => ⟨h.fits Γ hΓ hnode, h.composes⟩
  stays := h.stays
  declared := rfl
  composes := rfl

theorem visits_planSchema (hd : d.Proper) (hv : Visits visit) : Visits (d.planSchema visit) := by
  intro site a
  unfold planSchema
  split
  · refine .pure (Cascaded.planned ⟨fun _ _ _ => trivial, rfl, by simp [Plan.composes]⟩)
  · refine .pure (Cascaded.planned ⟨fun Γ hΓ _ => ?_, rfl, by simp [Plan.composes]⟩)
    exact Site.within_record hΓ.seen _ _ (by simp) trivial
  · rename_i members hm
    exact (makes_planMembers hd hv hm).bind fun p b _ _ _ hp => .pure hp.planned
  · exact .throw _

theorem visits_planTo (hd : d.Proper) (depth : Nat) : Visits (d.planTo depth) := by
  induction depth with
  | zero => exact fun site a => .throw _
  | succ depth ih => exact visits_planSchema hd ih

end SchemaCompiler

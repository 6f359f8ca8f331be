import SchemaCompiler.Proofs.TypeDefinition.Parsing.Members

/-!
# Parsing forms

The code for a form reads what the scan of the form reads, provided the code for names does. The
proof follows the forms; arrays and objects share what is said about a variable in which parts are
collected up to a closing token.
-/
namespace SchemaCompiler.TypeDefinition.Parser

open Gen Machine Text

variable {basis : Basis} {a b c : Assembly Progress} {s t : State} {rounds : Nat} {σ α : Type}
  {render : σ → Json} {out found foundAt pos : Name} {x : Emit Expr} {closing tag message : String}
  {scan : (String → Scan Json) → Scan Json} {Q : α → Post Progress}

/-! ## Parts in a variable -/

def Collects {σ : Type} (render : σ → Json) (out : Name) (x : σ) (s : State) : Prop :=
  s.get? out = some (render x)

theorem steady_collects (h : Settled a out) (x : σ) : Steady a [] fun _ => Collects render out x :=
  steady_get h (by simp)

theorem readsValue_collected [Inhabited σ] {opening : String} {stem : LocalStem} {e : Expr}
    {init : σ} {scan : (String → Scan Json) → σ → Scan σ} {finish : σ → Scan Unit}
    {member close : Name → Emit Unit} (ha : Ready basis rounds a) (hopening : opening ≠ "")
    (hclosing : closing ≠ "") (hinit : ∀ w s, Gives w e (render init) s)
    (hmember : ∀ out b pos, Ready basis rounds b → b.session.position = .moving pos →
      Settled b out → out ≠ textName →
        Gathers basis (Collects render out) [out] (member out) b scan)
    (hclose : ∀ out b, Ready basis rounds b → Settled b out →
      Emits (close out) b fun _ c code => ∀ x,
        Acts basis b c [] code (fun _ => Collects render out x) (fun _ => finish x)
          fun _ _ => Collects render out x) : ReadsValue basis (do
      expect basis.options opening
      let _ ← promote
      let out ← declare stem e
      listed basis.options closing (member out)
      close out
      return .var out) a fun call => do
        Scan.token basis.ws opening
        let x ← Scan.listed basis.ws closing (scan call) init
        finish x
        return render x := by
  refine .bind ((emits_expect ha hopening).mono fun _ b code₁ hb => ?_)
  have hb' := ha.later hb.later
  refine .bind ((emits_promote hb').mono fun pos c code₂ ⟨hpos, hc⟩ => ?_)
  have hc' := hb'.later hc.later
  refine .bind (emits_declare fun out d hd => ?_)
  obtain ⟨hcd, hd', hout, htext⟩ := hc'.fresh hd
  have hposd := hcd.position_eq hpos
  refine .bind ((emits_listed hd' hposd (steady_collects hout) hclosing fun e hde =>
    hmember out e pos (hd'.later hde) (hde.position_eq hposd) (hde.settled hout) htext).mono
      fun _ e code₃ he => ?_)
  have hde := (he init).later
  refine .bind_pure ((hclose out e (hd'.later hde) (hde.settled hout)).mono fun _ f code₄ hf => ?_)
  have hout' := (hf init).later.settled (hde.settled hout)
  refine hb.over steady_true fun _ => hc.prepare steady_true (does_let hc'.placed hd
    (List.Subset.refl [out]) steady_true (fun w _ s _ => hinit w s) ?_)
  refine ((he init).under fun _ _ h => h.1).seq (List.Subset.refl _) fun x => ?_
  exact ((hf x).conclude fun _ _ _ _ _ _ _ _ h => ⟨_, rfl, rfl, .var hout' h⟩).widen

theorem emits_expect_collected (ha : Ready basis rounds a) (hclosing : closing ≠ "")
    (hout : Settled a out) : Emits (expect basis.options closing) a fun _ b code => ∀ x,
      Acts basis a b [] code (fun _ => Collects render out x)
        (fun _ => Scan.token basis.ws closing) fun _ _ => Collects render out x :=
  (emits_expect ha hclosing).mono fun _ _ _ hb x =>
    (hb.keep (steady_collects hout x)).mono (fun _ _ h => h) fun _ _ _ h => h.2

theorem emits_push (hx : ReadsValue basis x a scan) (hout : Settled a out)
    (htext : out ≠ textName) :
    Gathers basis (Collects .array out) [out] (do let value ← x; emit (.push out value)) a
      fun call items => do let v ← scan call; return items ++ [v] := by
  refine .bind (hx.mono fun r b code hb => emits_emit fun items => ?_)
  refine hb.then (steady_collects hout items) fun v => does_set (hb.later.settled hout) htext (by simp)
    (fun st _ cs s _ h => ?_) (does_nil rfl fun _ _ h => h)
  exact ⟨_, sets_push h.2 h.1.gives, State.get?_put_self _ _ _⟩

theorem emits_entry (ha : Ready basis rounds a)
    (hx : ∀ b, Later basis a b → ReadsValue basis x b scan) (hout : Settled a out)
    (htext : out ≠ textName) : Gathers basis (Collects .object out) [out] (do
      let (_, key) ← scalar basis.options .parseString
      expect basis.options ":"
      let value ← x
      emit (.setIndex out (.var key) value)) a fun call members => do
        let key ← Scan.text basis.ws
        Scan.token basis.ws ":"
        let v ← scan call
        return Assoc.insert key v members := by
  refine .bind ((emits_text ha).mono fun r b code₁ ⟨hkey, hb⟩ => ?_)
  refine .bind ((emits_expect (ha.later hb.later) (by decide)).mono fun _ c code₂ hc => ?_)
  have hac := hb.later.trans hc.later
  refine .bind ((hx c hac).mono fun value d code₃ hd => emits_emit fun members => ?_)
  refine hb.then (steady_collects hout members) fun k => ?_
  have hkeep : Steady b [] fun _ s => s.get? r.2 = some (.string k) ∧ Collects .object out members s :=
    (steady_get hkey.2 (by simp)).and ((steady_collects hout members).later hb.later)
  refine Does.under (hc.over hkeep fun _ => hd.then (hkeep.later hc.later) fun v => ?_)
    fun _ _ h => ⟨h.1.1, h.2⟩
  refine does_set ((hac.trans hd.later).settled hout) htext (by simp) (fun st _ cs s _ h => ?_)
    (does_nil rfl fun _ _ h => h)
  exact ⟨_, sets_setIndex h.2.2 (gives_var h.2.1) h.1.gives, State.get?_put_self _ _ _⟩

/-! ## Null -/

theorem readsValue_nullable (ha : Ready basis rounds a)
    (hx : ∀ b, Later basis a b → ReadsValue basis x b scan) : ReadsValue basis (do
      skipBlanks basis.options
      let _ ← promote
      let out ← declare valueStem .null
      ifElse (← isAt "null") (advance 4) do
        let value ← x
        assign out value
      return .var out) a (fun call => do
        Scan.skip basis.ws
        if ← Scan.isAt "null" then
          Scan.advance "null"
          return .null
        else scan call) := by
  refine .bind ((emits_skipBlanks ha).mono fun _ b code₁ hb => ?_)
  have hb' := ha.later hb.later
  refine .bind ((emits_promote hb').mono fun pos c code₂ ⟨hpos, hc⟩ => ?_)
  have hc' := hb'.later hc.later
  refine .bind (emits_declare fun out d hd => ?_)
  obtain ⟨hcd, hd', hout, htext⟩ := hc'.fresh hd
  refine .bind (emits_isAt (.bind_pure (emits_ifElse ?_)))
  refine (emits_advance hd' "null").mono fun _ e code₃ he => ?_
  have hae := hb.later.trans (hc.later.trans (hcd.trans he.later))
  refine .bind ((hx e hae).mono fun value f code₄ hf => emits_assign ?_)
  have hsettled : Settled f out := hf.later.settled (he.later.settled hout)
  refine hb.over steady_true fun _ => hc.prepare steady_true (does_let hc'.placed hd
    (List.Subset.refl [out]) steady_true (fun _ _ _ _ => gives_lit _) ?_)
  refine does_isAt (he.later.trans hf.later) fun q => does_ite (hcd.position_eq hpos) he.later hf.later
    (tells_atCode rfl (by decide) fun _ _ h => h.2) (fun hq => ?_) fun _ => ?_
  · refine (((he.frame (steady_get hout (by simp))).under fun cs s h => ⟨?_, h.1.1⟩).conclude fun _ _ _ _ _ _ _ _ h => ⟨.null, rfl, rfl, .var hsettled h.2⟩).widen
    exact List.isPrefixOf_iff_prefix.1 (h.2.trans hq)
  · refine (hf.under fun _ _ _ => trivial).followed fun v => does_set hsettled htext
      (by simp) (fun st _ cs s _ h => ?_) (does_nil rfl fun _ _ h => .var hsettled h)
    exact ⟨v, sets_assign h.gives, State.get?_put_self _ _ _⟩

/-! ## Tags -/

def tagJson : Option String → Json
  | none => .null
  | some value => .string value

/-- The variables of a tag and of the place where it was found. -/
structure Seeking (a : Assembly Progress) (found foundAt : Name) : Prop where
  found_settled : Settled a found
  foundAt_settled : Settled a foundAt
  found_ne : found ≠ textName
  foundAt_ne : foundAt ≠ textName
  distinct : found ≠ foundAt

theorem Seeking.later (h : Seeking a found foundAt) (hab : Later basis a b) :
    Seeking b found foundAt :=
  ⟨hab.settled h.found_settled, hab.settled h.foundAt_settled, h.found_ne, h.foundAt_ne, h.distinct⟩

def Found (found foundAt : Name) (tag : Option String) (s : State) : Prop :=
  s.get? found = some (tagJson tag) ∧ Marked foundAt s

theorem Seeking.steady (h : Seeking a found foundAt) (ha : Placed a) (tag : Option String) :
    Steady a [] fun _ => Found found foundAt tag :=
  (steady_get h.found_settled (by simp)).and (steady_marked ha h.foundAt_settled (by simp) (by simp))

section

variable (ha : Ready basis rounds a) (hpos : a.session.position = .moving pos)

include ha hpos

theorem emits_found (hs : Seeking a found foundAt) : Emits (do
      skipBlanks basis.options
      ifThen (← isAt "\"").negate (failHere "discriminator tag must be a string")
      assign foundAt (.var pos)
      let (_, value) ← scalar basis.options .parseString
      assign found (.var value)
      emit .leave) a fun _ b code =>
        Does basis a b [found, foundAt] code (fun _ _ => True) (fun _ => do
          Scan.skip basis.ws
          Scan.check (← Scan.isAt "\"")
          let value ← Scan.text basis.ws
          return (some value, false)) (fun z => flowOf z.2)
          fun z _ t => z.2 = false ∧ Found found foundAt z.1 t := by
  refine .bind ((emits_skipBlanks ha).mono fun _ b code₁ hb => ?_)
  have hb' := ha.later hb.later
  have hsb := hs.later hb.later
  refine .bind (emits_isAt (.bind (emits_ifThen (emits_failHere ?_))))
  refine .bind (emits_assign (.bind ((emits_text hb').mono fun r c code₂ ⟨_, hc⟩ => ?_)))
  refine .bind (emits_assign (emits_emit ?_))
  refine hb.over steady_true fun _ => does_isAt hc.later fun q => ?_
  refine does_check (tells_atCode rfl (by decide) fun _ _ h => h.2).negate blames_here hc.later
    fun _ => ?_
  refine does_set hsb.foundAt_settled hs.foundAt_ne (by simp) (fun st _ cs s hat _ => ?_)
    (hc.then (steady_marked hb'.placed hsb.foundAt_settled (by simp) (by simp)) fun value =>
      does_set (hsb.later hc.later).found_settled hs.found_ne (by simp) (fun st _ cs s _ h => ?_)
        (does_leave rfl fun _ _ h => ⟨rfl, h⟩))
  · obtain ⟨v, hv, hmarked⟩ := At.marked_put (hb.later.position_eq hpos ▸ hat) hs.foundAt_ne
    exact ⟨v, sets_assign hv, hmarked⟩
  · exact ⟨_, sets_assign (gives_var h.1.1), State.get?_put_self _ _ _,
      h.2.put hs.distinct.symm hs.found_ne _⟩

theorem emits_readOver :
    Emits (do
      let _ ← scalar basis.options .parseValue
      skipBlanks basis.options
      ifThen (← isAt ",").negate (emit .leave)
      advance 1) a fun _ b code => ∀ (so : Option String) k inv, (Steady a [] fun _ => inv) →
        Does basis a b [] code (fun cs s => inv s ∧ cs.length ≤ k) (fun _ => do
          let _ ← Scan.scalar basis.ws .parseValue
          Scan.skip basis.ws
          if ← Scan.isAt "," then
            Scan.advance ","
            return (so, true)
          else return (so, false)) (fun z => flowOf z.2)
          fun z cs t => z.1 = so ∧ inv t ∧ (z.2 = true → cs.length < k) := by
  refine .bind ((emits_scalar ha (.inr (.inr rfl))).mono fun r b code₁ ⟨_, hb⟩ => ?_)
  have hb' := ha.later hb.later
  refine .bind ((emits_skipBlanks hb').mono fun _ c code₂ hc => ?_)
  have hac := hb.later.trans hc.later
  refine .bind (emits_isAt (.bind (emits_ifThen (emits_emit ?_))))
  refine (emits_advance (hb'.later hc.later) ",").mono fun _ d code₃ hd so k inv hinv => ?_
  have hkeep := hinv.and (steady_length k)
  refine hb.over hkeep fun _ => hc.over (hkeep.later hb.later) fun _ => does_isAt hd.later fun q => ?_
  refine does_leaving (hac.position_eq hpos) (.refl c) hd.later
    (tells_atCode rfl (by decide) fun _ _ h => h.2).negate (fun hq => ?_) fun hq => ?_
  · obtain rfl : q = false := by simpa using hq
    exact does_leave rfl fun _ _ h => ⟨rfl, rfl, h.1.1, nofun⟩
  · obtain rfl : q = true := by simpa using hq
    exact acts_comma (hinv.later hac) hd rfl

theorem emits_scanTag (hs : Seeking a found foundAt) :
    Gathers basis (Found found foundAt) [found, foundAt] (scanTag basis.options tag pos found foundAt)
      a fun _ => Scan.repeated (Scan.seek basis.ws tag) := by
  refine emits_loop (.bind ((emits_text ha).mono fun r b code₁ ⟨hkey, hb⟩ => ?_))
  have hb' := ha.later hb.later
  refine .bind ((emits_expect hb' (by decide)).mono fun _ c code₂ hc => ?_)
  have hc' := hb'.later hc.later
  have hac := hb.later.trans hc.later
  have hposc := hac.position_eq hpos
  refine .bind (emits_ifThen ((emits_found hc' hposc (hs.later hac)).mono
    fun _ d code₃ hd => ?_))
  have hd' := hc'.later hd.later
  have had := hac.trans hd.later
  refine (emits_readOver hd' (had.position_eq hpos)).mono fun _ e code₄ he => ?_
  have hde := (he none 0 _ steady_true).later
  refine acts_repeated hpos (had.trans hde) fun x k => ?_
  have hkeep := (hs.steady ha.placed x).and (steady_length k)
  refine hb.then hkeep fun key => Does.under (hc.over ((steady_get hkey.2 (by simp)).and
    (hkeep.later hb.later)) fun _ => ?_) fun _ _ h => ⟨h.1.1, h.2⟩
  refine does_leaving hposc hd.later hde (tells_equals fun _ _ h => h.1) (fun heq => ?_) fun hne => ?_
  · simp only [if_pos (show key = tag by simpa using heq)]
    exact hd.mono (fun _ _ _ => trivial) fun z cs t h => ⟨by rw [h.1]; rfl, h.2, by simp [h.1]⟩
  · simp only [if_neg (show key ≠ tag by simpa using hne)]
    refine ((he x k _ ((hs.steady ha.placed x).later had)).mono (fun _ _ h => h.2) ?_).widen
    rintro z cs t ⟨rfl, h⟩
    exact h

theorem emits_search {x : Name → Name → Emit α}
    (hx : ∀ found foundAt b code, Seeking b found foundAt →
      Acts basis a b [] code (fun _ _ => True) (fun _ => Scan.search basis.ws tag)
        (fun y _ => Found found foundAt y) →
      Emits (x found foundAt) b fun r c code' => Q r c (code ++ code')) : Emits (do
      let found ← declare tagStem .null
      let foundAt ← declare tagStartStem (.var pos)
      skipBlanks basis.options
      ifThen (← isAt "\x7d").negate (scanTag basis.options tag pos found foundAt)
      x found foundAt) a Q := by
  refine .bind (emits_declare fun found b hb => ?_)
  obtain ⟨hab, hb', hfound, htext⟩ := ha.fresh hb
  refine .bind (emits_declare fun foundAt c hc => ?_)
  obtain ⟨hbc, hc', hfoundAt, htext'⟩ := hb'.fresh hc
  have hposb := hab.position_eq hpos
  have hseek : Seeking c found foundAt :=
    ⟨hbc.settled hfound, hfoundAt, htext, htext', hfound.ne_fresh hc⟩
  refine .bind ((emits_skipBlanks hc').mono fun _ d code₁ hd => ?_)
  have hposd := hd.later.position_eq (hbc.position_eq hposb)
  refine .bind (emits_isAt (.bind (emits_ifThen ?_)))
  refine (emits_scanTag (hc'.later hd.later) hposd (hseek.later hd.later)).mono fun _ e code₂ he => ?_
  have hde := (he none).later
  refine (hx found foundAt e (.declare found (some .null) false :: .declare foundAt _
    false :: (code₁ ++ [.branch (atCode "\x7d" d.session.position).negate code₂ []]))
    (hseek.later (hd.later.trans hde)) ?_).mono fun r c code' h => by simpa using h
  refine does_let ha.placed hb (List.Subset.refl [found]) steady_true (fun _ _ _ _ => gives_lit _) ?_
  refine does_mark hb'.placed hc hposb (show [found, foundAt] ⊆ [foundAt, found] by simp)
    ((steady_get hfound (by simp)).and steady_true) ?_
  refine Does.under (hd.over (hseek.steady hc'.placed none) fun _ => does_isAt hde fun q => ?_)
    fun _ _ h => ⟨h.2.1, h.1⟩
  refine does_ite_not hposd hde (.refl e) (tells_atCode rfl (by decide) fun _ _ h => h.2).negate
    (fun _ => ?_) fun _ => does_nil rfl fun _ _ h => h.1
  exact (he none).under fun _ _ h => h.1

theorem emits_findTag {objectStart : Name} {x : Name → Name → Emit α} (hobject : Settled a objectStart)
    (hx : ∀ found foundAt b code, Seeking b found foundAt →
      Acts basis a b [] code (fun _ => Marked objectStart) (fun _ => Scan.findTag basis.ws tag)
        (fun value _ => Found found foundAt (some value)) →
      Emits (x found foundAt) b fun r c code' => Q r c (code ++ code')) : Emits (do
      let membersStart ← constant startStem (.var pos)
      let found ← declare tagStem .null
      let foundAt ← declare tagStartStem (.var pos)
      skipBlanks basis.options
      ifThen (← isAt "\x7d").negate (scanTag basis.options tag pos found foundAt)
      ifThen (.equals (.var found) .null) (failAt message (.var objectStart))
      assign pos (.var membersStart)
      x found foundAt) a Q := by
  refine .bind (emits_constant fun start b hb => ?_)
  obtain ⟨hab, hb', hstart, htext⟩ := ha.fresh hb
  have hposb := hab.position_eq hpos
  refine emits_search hb' hposb fun found foundAt c code₁ hseek hc => ?_
  refine .bind (emits_ifThen (emits_failAt (.bind (emits_assign ?_))))
  refine (hx found foundAt c (.declare start _ true :: (code₁ ++
    [.branch _ [.throw _] [],
      .assign pos (.var start)])) hseek ⟨hab.trans hc.later, ?_⟩).mono fun r d code' h => by simpa using h
  intro st hst s cs hat hmarked
  obtain ⟨before, hplace, hbehind⟩ := hat.place
  rw [hpos] at hbehind
  have hposc := hc.later.position_eq hposb
  have hposNe : pos ≠ textName := (ha.placed pos hpos).2
  refine (sets_declare (gives_var hbehind)).yields ?_
  have hkeep := hc.keep ((steady_get (v := some (Json.ofNat (byteLength before))) hstart (by simp)).and
    (steady_marked hb'.placed (hab.settled hobject) (by simp) (by simp)))
  rw [Scan.findTag_eq]
  refine (hkeep.yields st hst _ cs (hat.put_fresh ha.placed hb _) ⟨State.get?_put_self _ _ _,
    hmarked.put (hobject.ne_fresh hb) htext _⟩).append
      fun y f t _ ⟨hf, hat', hle, hkeeps, hy⟩ => .inl ⟨hf, ?_⟩
  refine yields_branch_cons (gives_equals (gives_var hy.1.1) (gives_lit .null)).truth ?_
  obtain ⟨_ | value, rest⟩ := y
  · exact yields_complain (hy.2.2 st.text hat'.text_eq)
  · refine (sets_assign (gives_var hy.2.1)).yields (yields_nil ⟨rfl, ?_, Nat.le_refl _, ?_, ?_, ?_⟩)
    · rw [hposc]
      exact hat'.put_position hposNe hplace
    · exact ((keeps_put_fresh hb s _).trans (hkeeps.of_later hab)).put (fun hn => absurd hpos hn.2) _
    · exact (State.get?_put_of_ne (fun he : found = pos => hseek.found_settled.2 (he ▸ hposc))
        _ _).trans hy.1.1
    · exact hy.1.2.put (fun he : foundAt = pos => hseek.foundAt_settled.2 (he ▸ hposc)) hposNe _

end

def Selects (basis : Basis) (tag : String) (found foundAt out seen : Name)
    (scan : (String → Scan Json) → String → Scan Json) (a b : Assembly Progress)
    (code : List Stmt) : Prop :=
  ∀ value, Acts basis a b [out, seen] code
    (fun _ s => Found found foundAt (some value) s ∧
      Gathered out (some seen) ([(tag, .string value)], false) s)
    (fun call => scan call value) fun v _ t => t.get? out = some v

theorem readsValue_tagged {arms : Name → Name → Name → List (Expr × Emit Unit)}
    {scan : (String → Scan Json) → String → Scan Json} (ha : Ready basis rounds a)
    (harms : ∀ found foundAt out seen b pos, Ready basis rounds b → b.session.position = .moving pos →
      Gathering b out (some seen) → Settled b found → ∀ message,
      EmitsArms (failAt message (.var foundAt)) (arms found out seen) b
        (Selects basis tag found foundAt out seen scan b)) :
    ReadsValue basis (tagged basis.options tag arms) a (fun call => do
      Scan.skip basis.ws
      Scan.token basis.ws "\x7b"
      let value ← Scan.findTag basis.ws tag
      scan call value) := by
  refine .bind ((emits_skipBlanks ha).mono fun _ b code₁ hb => ?_)
  have hb' := ha.later hb.later
  refine .bind ((emits_promote hb').mono fun pos c code₂ ⟨hpos, hc⟩ => ?_)
  have hc' := hb'.later hc.later
  refine .bind (emits_constant fun objectStart d hd => ?_)
  obtain ⟨hcd, hd', hobject, -⟩ := hc'.fresh hd
  refine .bind ((emits_expect hd' (by decide)).mono fun _ e code₃ he => ?_)
  have he' := hd'.later he.later
  have hpose := he.later.position_eq (hcd.position_eq hpos)
  refine emits_findTag he' hpose (he.later.settled hobject) fun found foundAt f code₄ hseek hf => ?_
  have hf' := he'.later hf.later
  refine .bind (emits_declare fun out g hg => ?_)
  obtain ⟨hfg, hg', hout, htext⟩ := hf'.fresh hg
  refine .bind (emits_declare fun seen i hi => ?_)
  obtain ⟨hgi, hi', hseen, htext'⟩ := hg'.fresh hi
  have hgathering : Gathering i out (some seen) := by
    refine ⟨hgi.settled hout, htext, ?_, ?_⟩
    · rintro _ ⟨⟩
      exact hseen
    · rintro _ ⟨⟩
      exact ⟨htext', (hout.ne_fresh hi).symm⟩
  have hposi := hgi.position_eq (hfg.position_eq (hf.later.position_eq hpose))
  refine .bind_pure (emits_choose ((harms found foundAt out seen i pos hi' hposi hgathering
    (hgi.settled (hfg.settled hseek.found_settled)) _).mono fun j code₅ hj => ?_))
  refine hb.over steady_true fun _ => hc.prepare steady_true (does_mark hc'.placed hd hpos
    (List.nil_subset _) steady_true ?_)
  refine he.over ((steady_marked hd'.placed hobject (by simp) (by simp)).and steady_true) fun _ => ?_
  refine (hf.under fun _ _ h => h.1).seq (List.nil_subset _) fun value => ?_
  have htag : ∀ w (cs : List Char) s, Found found foundAt (some value) s →
      Gives w _ _ s := fun w _ s h => by
    have hmembers : List.Forall₂ (fun m v => m.1 = v.1 ∧ Gives w m.2 v.2 s) [(tag, .var found)]
        [(tag, .string value)] := .cons ⟨rfl, gives_var h.1⟩ .nil
    exact gives_object hmembers
  refine does_let hf'.placed hg (List.Subset.refl [out]) (hseek.steady hf'.placed _) htag ?_
  refine does_let hg'.placed hi (show [out, seen] ⊆ [seen, out] by simp)
    ((steady_get hout (by simp)).and ((hseek.steady hf'.placed _).later hfg))
    (fun _ _ _ _ => gives_lit _) ?_
  refine (hj value).mono (fun _ _ h => ⟨h.2.2, h.2.1, ?_⟩) fun _ _ _ h =>
    .var ((hj default).later.settled hgathering.out_settled) h
  rintro _ ⟨⟩
  exact h.1

/-! ## Forms -/

def RefsRead (basis : Basis) (rounds : Nat) (known : String → Prop) (onRef : String → Emit Expr)
    (scan : (String → Scan Json) → String → Scan Json) : Prop :=
  ∀ name, known name → ∀ a, Ready basis rounds a →
    ReadsValue basis (onRef name) a fun call => scan call name

theorem readsValue_enum (ha : Ready basis rounds a) (texts : List String) :
    ReadsValue basis (tested basis.options (fun value =>
      return .any (texts.map fun v => .equals (.var value) (.str v))) message) a fun _ => do
        let text ← Scan.text basis.ws
        Scan.check (texts.contains text)
        return .string text :=
  readsValue_tested ha fun b _ _ => emits_pure
    ⟨rfl, .refl b, rfl, fun _ _ _ _ hv => truth_enum hv texts⟩

variable {known : String → Prop} {onRef : String → Emit Expr}
  {onScan : (String → Scan Json) → String → Scan Json}

def MembersRead (basis : Basis) (rounds : Nat) (onRef : String → Emit Expr)
    (onScan : (String → Scan Json) → String → Scan Json) (members : List (String × Form)) : Prop :=
  ∀ out seen, ArmsRead basis rounds out seen
    (fun key => memberArms basis.options onRef out key members)
    fun call k => Form.scanKnown basis.ws (onScan call) k members

theorem readsValue_properties {required optional : List (String × Form)} {additional : Bool}
    (ha : Ready basis rounds a) (hrequired : MembersRead basis rounds onRef onScan required)
    (hoptional : MembersRead basis rounds onRef onScan optional) :
    ReadsValue basis (ofForm basis.options onRef (.properties required optional additional)) a
      fun call => (Form.properties required optional additional).scan basis.ws (onScan call) := by
  by_cases hempty : (required.isEmpty && optional.isEmpty && !additional) = true
  · simp only [ofForm, Form.scan, if_pos hempty]
    refine .bind ((emits_expect ha (by decide)).mono fun _ b code₁ hb => ?_)
    refine .bind_pure ((emits_expect (ha.later hb.later) (by decide)).mono fun _ c code₂ hc => ?_)
    exact hb.over steady_true fun _ => hc.conclude fun _ _ _ _ _ _ _ _ _ => ⟨_, rfl, rfl, .empty⟩
  · simp only [ofForm, Form.scan, if_neg hempty]
    have hgathered : ∀ out (so : List _ × Bool) s, Gathered out none so s ↔
        Collects (fun so : List _ × Bool => .object so.1) out so s :=
      fun out so s => ⟨And.left, fun h => ⟨h, fun _ hn => by cases hn⟩⟩
    refine readsValue_collected ha (by decide) (by decide) (fun _ _ => gives_object .nil) ?_ ?_
    · intro out b pos hb hpos hout htext
      have hg : Gathering b out none := ⟨hout, htext, by simp, by simp⟩
      refine (emits_member hb hpos hg (armsRead_append (hrequired out none)
        (hoptional out none))).mono fun _ c code hc so => ?_
      exact (hc so).mono (fun _ s => (hgathered out so s).2) fun so _ t => (hgathered out so t).1
    · exact fun out b hb hout => (emits_closeObject hb hout).mono fun _ c code hc so => hc so.1

variable (hrefs : RefsRead basis rounds known onRef onScan)

include hrefs

set_option linter.unusedSectionVars false in
mutual
theorem readsValue_form : (form : Form) → form.WellFormed known → ∀ a, Ready basis rounds a →
    ReadsValue basis (ofForm basis.options onRef form) a
      fun call => form.scan basis.ws (onScan call)
  | .empty, _, _, ha => readsValue_scalar ha (.inr (.inr rfl))
  | .ref name, hf, a, ha => hrefs name hf a ha
  | .type t, _, _, ha => readsValue_ofType ha t
  | .enum texts, _, _, ha => readsValue_enum ha texts
  | .elements item, hf, a, ha =>
    readsValue_collected ha (by decide) (by decide) (fun _ _ => gives_array .nil)
      (fun _ b _ hb _ hout htext => emits_push (readsValue_form item hf b hb) hout htext)
      fun _ _ hb hout => emits_expect_collected hb (by decide) hout
  | .values item, hf, a, ha =>
    readsValue_collected ha (by decide) (by decide) (fun _ _ => gives_object .nil)
      (fun _ b _ hb _ hout htext => emits_entry hb
        (fun c hbc => readsValue_form item hf c (hb.later hbc)) hout htext)
      fun _ _ hb hout => emits_expect_collected hb (by decide) hout
  | .nullable form, hf, a, ha =>
    readsValue_nullable ha fun b hab => readsValue_form form hf b (ha.later hab)
  | .properties required optional _, hf, a, ha =>
    readsValue_properties ha (armsRead_members required hf.2.1) (armsRead_members optional hf.2.2)
  | .discriminator tag mapping, hf, a, ha =>
    readsValue_tagged ha fun found foundAt out seen b pos hb hpos hg hfound message =>
      emitsArms_mapping tag found foundAt out seen pos message mapping hf.2.1 hf.2.2 b hb hpos hg
        hfound

theorem armsRead_members : (members : List (String × Form)) → Form.AllWellFormed known members →
    MembersRead basis rounds onRef onScan members
  | [], _, _, _ => armsRead_nil
  | (_, form) :: rest, hf, out, seen =>
    armsRead_cons (fun a ha => readsValue_form form hf.1 a ha)
      (armsRead_members rest hf.2 out seen)

theorem emitsArms_mapping (tag : String) (found foundAt out seen pos : Name) (message : String) :
    (mapping : List (String × Form)) → (∀ m ∈ mapping, m.2.LeavesOut tag) →
    Form.AllWellFormed known mapping → ∀ a, Ready basis rounds a →
    a.session.position = .moving pos → Gathering a out (some seen) → Settled a found →
    EmitsArms (failAt message (.var foundAt))
      (mappingArms basis.options onRef tag found out seen mapping) a
      (Selects basis tag found foundAt out seen
        (fun call value => Form.scanMapped basis.ws (onScan call) tag value mapping) a)
  | [], _, _, a, _, _, _, _ =>
    emits_failAt fun _ => does_fails (.refl a) (blames_var fun _ _ h => h.1.2)
  | (name, form) :: rest, hout, hf, a, ha, hpos, hg, hfound => by
    refine Emits.mono (emits_selected tag out seen pos form (hout (name, form) (by simp)) hf.1
      a ha hpos hg) fun _ b code₁ hb => ?_
    have hab := (hb default).later
    have hposb := hab.position_eq hpos
    refine (emitsArms_mapping tag found foundAt out seen pos message rest
      (fun m hm => hout m (by simp [hm])) hf.2 b (ha.later hab) hposb (hg.later hab)
      (hab.settled hfound)).mono fun c code₂ hc value => ?_
    simp only [Form.scanMapped]
    refine does_branch hpos hab (hc default).later (tells_equals fun _ _ h => h.1.1) (fun heq => ?_)
      fun hne => ?_
    · simp only [if_pos (show value = name by simpa using heq)]
      exact (hb value).under fun _ _ h => h.2
    · simp only [if_neg (show value ≠ name by simpa using hne)]
      exact hc value

theorem emits_selected (tag : String) (out seen pos : Name) : (form : Form) → form.LeavesOut tag →
    form.WellFormed known → ∀ a, Ready basis rounds a → a.session.position = .moving pos →
    Gathering a out (some seen) →
    Emits (selected basis.options onRef tag out seen form) a fun _ b code => ∀ value,
      Acts basis a b [out, seen] code
        (fun _ => Gathered out (some seen) ([(tag, .string value)], false))
        (fun call => Form.scanSelected basis.ws (onScan call) tag value form)
        fun v _ t => t.get? out = some v
  | .properties required optional additional, _, hf, a, ha, hpos, hg => by
    have hmember : Gathers basis _ [out, seen]
        (member basis.options out _ additional (some (tag, seen))) a _ :=
      emits_member ha hpos hg (armsRead_append (armsRead_members required hf.2.1 out (some seen))
        (armsRead_members optional hf.2.2 out (some seen)))
    refine .bind ((emits_separated ha hpos hg.steady hmember).mono fun _ b code₁ hb => ?_)
    have hab := (hb default).later
    refine (emits_closeObject (ha.later hab) (hab.settled hg.out_settled)).mono
      fun _ c code₂ hc value => ?_
    refine (hb _).seq (List.Subset.refl _) fun so => ?_
    exact (((hc so.1).under fun _ _ h => h.1).conclude
      fun _ _ _ _ _ _ _ _ h => ⟨_, rfl, rfl, h⟩).widen
end

end SchemaCompiler.TypeDefinition.Parser

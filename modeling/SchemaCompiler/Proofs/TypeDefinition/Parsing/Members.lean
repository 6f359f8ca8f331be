import SchemaCompiler.Proofs.TypeDefinition.Parsing.Scalars

/-!
# Parsing members of objects

The members of an object are gathered in a variable. Besides, a mark says whether the tag has been
read, where there is one. A member is read by the arm for its name, and what reads it is described
by the scans of the names that are known.
-/
namespace SchemaCompiler.TypeDefinition.Parser

open Gen Machine Text

variable {basis : Basis} {a b c : Assembly Progress} {touched : List Name} {s t : State}
  {rounds : Nat} {out key start pos : Name} {seen : Option Name} {so : List (String × Json) × Bool}
  {required : List (String × Form)} {arms : Name → List (Expr × Emit Unit)}
  {known : (String → Scan Json) → String → Option (Scan Json)} {pre : List Char → State → Prop}
  {k name : String} {additional : Bool} {tag : Option (String × Name)}

/-! ## Gathering -/

/-- The variables in which the members of an object are gathered, and a mark kept. -/
structure Gathering (a : Assembly Progress) (out : Name) (seen : Option Name) : Prop where
  out_settled : Settled a out
  out_ne : out ≠ textName
  seen_settled : ∀ n ∈ seen, Settled a n
  seen_ne : ∀ n ∈ seen, n ≠ textName ∧ n ≠ out

def Gathered (out : Name) (seen : Option Name) (so : List (String × Json) × Bool) (s : State) :
    Prop :=
  s.get? out = some (.object so.1) ∧ ∀ n ∈ seen, s.get? n = some (.bool so.2)

theorem Gathering.later (h : Gathering a out seen) (hab : Later basis a b) : Gathering b out seen :=
  ⟨hab.settled h.out_settled, h.out_ne, fun n hn => hab.settled (h.seen_settled n hn), h.seen_ne⟩

theorem Gathering.steady (h : Gathering a out seen) (so : List (String × Json) × Bool) :
    Steady a [] fun _ => Gathered out seen so := by
  intro _ _ s t hk _ hs
  refine ⟨(hk out h.out_settled (by simp)).trans hs.1, fun n hn => ?_⟩
  exact (hk n (h.seen_settled n hn) (by simp)).trans (hs.2 n hn)

theorem Gathered.put_out (hg : Gathering a out seen) (h : Gathered out seen so s)
    (members : List (String × Json)) :
    Gathered out seen (members, so.2) (s.put out (.object members)) :=
  ⟨State.get?_put_self _ _ _, fun n hn =>
    (State.get?_put_of_ne (hg.seen_ne n hn).2 s _).trans (h.2 n hn)⟩

/-! ## The end of an object -/

theorem emits_requireAll (basis : Basis) :
    Emits (requireAll out required) a fun _ b code => b = a ∧ ∀ members,
      Acts basis a a [] code (fun _ s => s.get? out = some (.object members))
        (fun _ => Scan.check ((required.map Prod.fst).all (Assoc.contains · members)))
        fun _ _ t => t.get? out = some (.object members) := by
  induction required with
  | nil => exact emits_pure ⟨rfl, fun members => does_nil rfl fun _ _ h => h⟩
  | cons property rest ih =>
    obtain ⟨name, form⟩ := property
    refine Emits.bind (emits_ifThen (emits_failHere ?_))
    refine ih.mono fun _ b code ⟨hb, hrest⟩ => ⟨hb, fun members => ?_⟩
    have hcheck : Scan.check (((name, form) :: rest).map Prod.fst |>.all (Assoc.contains · members)) =
        (Scan.check (Assoc.contains name members) >>= fun _ =>
          Scan.check ((rest.map Prod.fst).all (Assoc.contains · members))) := by
      simp only [List.map_cons, List.all_cons]
      cases Assoc.contains name members <;> rfl
    rw [hcheck]
    refine does_check (Tells.negate fun st _ cs s _ hout => Gives.truth ?_) blames_here (.refl a)
      fun _ => hrest members
    exact gives_has (gives_var hout) (gives_lit _)

theorem emits_closeObject (ha : Ready basis rounds a) (hout : Settled a out) :
    Emits (closeObject basis.options out required) a fun _ b code => ∀ members,
      Acts basis a b [] code (fun _ s => s.get? out = some (.object members))
        (fun _ => Scan.close basis.ws (required.map Prod.fst) members)
        fun _ _ t => t.get? out = some (.object members) := by
  refine .bind ((emits_expect ha (by decide)).mono fun _ b code₁ hb => ?_)
  refine (emits_requireAll basis).mono fun _ c code₂ ⟨hc, hcheck⟩ members => ?_
  subst hc
  exact hb.over (steady_get hout (by simp)) fun _ => hcheck members

/-! ## Arms -/

abbrev MemberScan := (String → Scan Json) → String → List (String × Json) × Bool →
  Scan (List (String × Json) × Bool)

/-- Code reads the value of a member whose name is in a variable. Another variable says where the
member starts. -/
def ReadsMember (basis : Basis) (a : Assembly Progress) (key start out : Name) (seen : Option Name)
    (scan : MemberScan) (b : Assembly Progress) (code : List Stmt) : Prop :=
  ∀ k so, Acts basis a b (out :: seen.toList) code
    (fun _ s => Gathered out seen so s ∧ s.get? key = some (.string k) ∧ Marked start s)
    (fun call => scan call k so) fun so _ => Gathered out seen so

/-- The variables of a member, besides those in which members are gathered. -/
structure Member (a : Assembly Progress) (key start : Name) : Prop where
  key_settled : Settled a key
  start_settled : Settled a start

theorem Member.later (h : Member a key start) (hab : Later basis a b) : Member b key start :=
  ⟨hab.settled h.key_settled, hab.settled h.start_settled⟩

def ArmsRead (basis : Basis) (rounds : Nat) (out : Name) (seen : Option Name)
    (arms : Name → List (Expr × Emit Unit))
    (known : (String → Scan Json) → String → Option (Scan Json)) : Prop :=
  ∀ a pos key start, Ready basis rounds a → a.session.position = .moving pos → Gathering a out seen →
    Member a key start → ∀ otherwise more (scan : MemberScan),
    (∀ b, Later basis a b →
      EmitsArms otherwise more b (ReadsMember basis b key start out seen scan)) →
    EmitsArms otherwise (arms key ++ more) a (ReadsMember basis a key start out seen
      fun call k so => Scan.knownOr (known call k) k so (scan call k so))

theorem armsRead_nil : ArmsRead basis rounds out seen (fun _ => []) fun _ _ => none :=
  fun a _ _ _ _ _ _ _ _ _ _ h => h a (.refl a)

theorem armsRead_append {arms' : Name → List (Expr × Emit Unit)}
    {known' : (String → Scan Json) → String → Option (Scan Json)}
    (h : ArmsRead basis rounds out seen arms known)
    (h' : ArmsRead basis rounds out seen arms' known') :
    ArmsRead basis rounds out seen (fun key => arms key ++ arms' key)
      fun call k => (known call k).or (known' call k) := by
  intro a pos key start ha hpos hg hm otherwise more scan hmore
  have hor : ∀ call k so, Scan.knownOr ((known call k).or (known' call k)) k so (scan call k so) =
      Scan.knownOr (known call k) k so (Scan.knownOr (known' call k) k so (scan call k so)) := by
    intro call k so
    cases known call k <;> rfl
  simp only [hor, List.append_assoc]
  refine h a pos key start ha hpos hg hm otherwise _ _ fun b hab => ?_
  exact h' b pos key start (ha.later hab) (hab.position_eq hpos) (hg.later hab) (hm.later hab)
    otherwise more scan fun c hbc => hmore c (hab.trans hbc)

theorem tells_equals (hk : ∀ cs s, pre cs s → s.get? key = some (.string k)) :
    Tells a pre (.equals (.var key) (.str name)) (k == name) :=
  fun _ _ cs s _ h => (gives_equals (gives_var (hk cs s h)) (gives_lit _)).truth

theorem acts_setIndex {key : Expr} {r : Expr} {v : Json} (hg : Gathering a out seen)
    (hpre : ∀ cs s, pre cs s → Gathered out seen so s ∧ (∀ w, Gives w key (.string k) s) ∧
      ∀ w, Gives w r v s) : Acts basis a a (out :: seen.toList) [.setIndex out key r] pre
      (fun _ => pure (Assoc.insert k v so.1, so.2)) fun so _ => Gathered out seen so := by
  refine does_set hg.out_settled hg.out_ne (by simp) (fun st _ cs s _ h => ?_)
    (does_nil rfl fun _ _ h => h)
  obtain ⟨hso, hkey, hr⟩ := hpre cs s h
  exact ⟨_, sets_setIndex hso.1 (hkey _) (hr _), hso.put_out hg _⟩

theorem armsRead_cons {x : Emit Expr} {scan : (String → Scan Json) → Scan Json}
    (hx : ∀ a, Ready basis rounds a → ReadsValue basis x a scan)
    (h : ArmsRead basis rounds out seen arms known) : ArmsRead basis rounds out seen
      (fun key => (.equals (.var key) (.str name), do
        let value ← x
        emit (.setIndex out (.str name) value)) :: arms key)
      fun call k => if k = name then some (scan call) else known call k := by
  intro a pos key start ha hpos hg hm otherwise more rest hmore
  refine Emits.bind ((hx a ha).mono fun r b code₁ hb => emits_emit ?_)
  have hposb := hb.later.position_eq hpos
  have hgb := hg.later hb.later
  refine (h b pos key start (ha.later hb.later) hposb hgb (hm.later hb.later) otherwise more rest
    fun c hbc => hmore c (hb.later.trans hbc)).mono fun c code₂ hc k so => ?_
  refine does_branch hpos hb.later (hc k so).later (tells_equals fun _ _ h => h.2.1) (fun heq => ?_)
    (fun hne => ?_)
  · obtain rfl : k = name := by simpa using heq
    simp only [if_true]
    refine Does.under (hb.then (hg.steady so) fun v => ?_) fun _ _ h => h.1
    exact acts_setIndex hgb fun _ _ h => ⟨h.2, fun _ => gives_lit (.string k), fun _ => h.1.gives⟩
  · have hne' : k ≠ name := by simpa using hne
    simp only [if_neg hne']
    exact hc k so

def otherMember (basis : Basis) (out key : Name) (additional : Bool) (e : Expr) : Emit Unit :=
  if additional then do
    let (_, value) ← scalar basis.options .parseValue
    emit (.setIndex out (.var key) (.var value))
  else failAt "unexpected property" e

section

variable (ha : Ready basis rounds a) (hpos : a.session.position = .moving pos)

include ha

theorem emits_additional (hg : Gathering a out seen)
    (hm : Member a key start) :
    Emits (otherMember basis out key additional (.var start)) a fun _ b code =>
      ReadsMember basis a key start out seen
        (fun _ k so => Scan.unknown basis.ws additional none k so) b code := by
  cases additional with
  | false => exact emits_failAt fun k so => does_fails (.refl a) (blames_var fun _ _ h => h.2.2)
  | true =>
    refine .bind ((emits_scalar ha (.inr (.inr rfl))).mono fun r b code ⟨_, hb⟩ => ?_)
    refine emits_emit fun k so => ?_
    refine Does.under (hb.then ((hg.steady so).and (steady_get hm.key_settled (by simp)))
      fun v => ?_) fun _ _ h => ⟨h.1, h.2.1⟩
    exact acts_setIndex (hg.later hb.later) fun _ _ h =>
      ⟨h.2.1, fun _ => gives_var h.2.2, fun _ => gives_var h.1.1⟩

include hpos

theorem emitsArms_tagArm {mark : Name} {tag : String} (hg : Gathering a out (some mark))
    (hm : Member a key start) : EmitsArms (otherMember basis out key additional (.var start))
      [tagArm basis.options start key tag mark] a (ReadsMember basis a key start out (some mark)
        fun _ k so => Scan.unknown basis.ws additional (some tag) k so) := by
  refine Emits.bind (emits_ifThen (emits_failAt ?_))
  refine .bind (emits_assign (.bind_pure ((emits_text ha).mono fun r b code₁ ⟨_, hb⟩ => ?_)))
  refine (emits_additional (ha.later hb.later) (hg.later hb.later) (hm.later hb.later)).mono
    fun _ c code₂ hc k so => ?_
  refine does_branch hpos hb.later (hc k so).later (tells_equals fun _ _ h => h.2.1) (fun heq => ?_)
    (fun hne => ?_)
  · obtain rfl : k = tag := by simpa using heq
    simp only [Scan.unknown]
    refine does_check (fun st _ cs s _ h => (gives_var ?_).truth) (blames_var fun _ _ h => h.2.2)
      hb.later fun _ => ?_
    · rw [Bool.not_not]
      exact h.1.2 mark rfl
    have hread : Acts basis a b [] code₁ (fun _ => Gathered out (some mark) (so.1, true))
        _
        fun so _ => Gathered out (some mark) so :=
      (hb.keep (hg.steady _)).conclude fun _ _ _ _ _ _ _ _ h => ⟨_, rfl, rfl, h.2⟩
    refine does_set (hg.seen_settled mark rfl) (hg.seen_ne mark rfl).1 (by simp)
      (fun st _ cs s _ h => ⟨.bool true, sets_assign (gives_lit _), ?_, ?_⟩) hread.widen
    · exact (State.get?_put_of_ne (hg.seen_ne mark rfl).2.symm s _).trans h.1.1
    · rintro _ ⟨⟩
      exact State.get?_put_self _ _ _
  · have hne' : tag ≠ k := by rintro rfl; simp at hne
    simpa [Scan.unknown, hne'] using hc k so

/-- The arms for the members that are not known by name, among which the tag may be. -/
def tagArms (options : Options) (start key : Name) :
    Option (String × Name) → List (Expr × Emit Unit)
  | some (tag, seen) => [tagArm options start key tag seen]
  | none => []

theorem emitsArms_tagArms (hg : Gathering a out (tag.map Prod.snd)) (hm : Member a key start) :
    EmitsArms (otherMember basis out key additional (.var start)) (tagArms basis.options start key tag) a
      (ReadsMember basis a key start out (tag.map Prod.snd)
        fun _ k so => Scan.unknown basis.ws additional (tag.map Prod.fst) k so) := by
  cases tag with
  | none => exact emits_additional ha hg hm
  | some t => exact emitsArms_tagArm ha hpos hg hm

/-! ## Members -/

theorem emits_member (hg : Gathering a out (tag.map Prod.snd))
    (harms : ArmsRead basis rounds out (tag.map Prod.snd) arms known) :
    Gathers basis (Gathered out (tag.map Prod.snd)) (out :: (tag.map Prod.snd).toList)
      (member basis.options out arms additional tag) a
      fun call => Scan.member basis.ws (known call) additional (tag.map Prod.fst) := by
  refine .bind ((emits_text ha).mono fun r b code₁ ⟨hr, hb⟩ => ?_)
  obtain ⟨start, key⟩ := r
  have hb' := ha.later hb.later
  refine .bind ((emits_expect hb' (by decide)).mono fun _ c code₂ hc => emits_choose ?_)
  have hc' := hb'.later hc.later
  have hac := hb.later.trans hc.later
  have hm : Member c key start := ⟨hc.later.settled hr.2, hc.later.settled hr.1⟩
  refine EmitsArms.mono (harms c pos key start hc' (hac.position_eq hpos) (hg.later hac) hm
    _ _ _
    fun d hcd => emitsArms_tagArms (hc'.later hcd) ((hac.trans hcd).position_eq hpos)
      (hg.later (hac.trans hcd)) (hm.later hcd)) fun d code₃ hd so => ?_
  refine hb.then (hg.steady so) fun k => hc.over ?_ fun _ => ?_
  · exact ((steady_get hr.2 (by simp)).and (steady_marked hb'.placed hr.1 (by simp) (by simp))).and
      ((hg.steady so).later hb.later)
  · exact (hd k so).under fun _ _ h => ⟨h.2, h.1⟩

end

end SchemaCompiler.TypeDefinition.Parser

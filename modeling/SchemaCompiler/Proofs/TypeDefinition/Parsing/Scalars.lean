import SchemaCompiler.Proofs.Number.Bounds
import SchemaCompiler.Proofs.TypeDefinition.Parsing.Code

/-!
# Parsing scalars

The code for scalars reads what the scans of their types read. What holds the value that was read is
either a variable that later code leaves alone, or the empty object.
-/
namespace SchemaCompiler.TypeDefinition.Parser

open Gen Machine Text

variable {basis : Basis} {a b c : Assembly Progress} {s t : State} {rounds : Nat} {w : Watch}
  {e : Expr} {v : Json} {value : Name}

/-- What an emission gives as a value holds it. -/
inductive Holding (a : Assembly Progress) (s : State) : Expr → Json → Prop
  | empty : Holding a s (.object []) (.object [])
  | var {n : Name} {v : Json} (hn : Settled a n) (hv : s.get? n = some v) : Holding a s (.var n) v

theorem Holding.gives (h : Holding a s e v) : Gives w e v s := by
  cases h with
  | empty => exact gives_object .nil
  | var _ hv => exact gives_var hv

theorem steady_holding : Steady a [] fun _ s => Holding a s e v := by
  intro _ _ s t hk _ h
  cases h with
  | empty => exact .empty
  | var hn hv => exact .var hn ((hk _ hn (by simp)).trans hv)

def ReadsValue (basis : Basis) (x : Emit Expr) (a : Assembly Progress)
    (scan : (String → Scan Json) → Scan Json) : Prop :=
  Emits x a fun r b code =>
    Acts basis a b [] code (fun _ _ => True) scan fun v _ t => Holding b t r v

theorem readsValue_scalar (ha : Ready basis rounds a) {routine : Primitive} (hr : IsReader routine) :
    ReadsValue basis (do return .var (← scalar basis.options routine).2) a
      fun _ => Scan.scalar basis.ws routine :=
  .bind_pure ((emits_scalar ha hr).mono fun _ _ _ ⟨hr, hb⟩ =>
    hb.mono (fun _ _ h => h) fun _ _ _ h => .var hr.2 h.1)

/-- A test of a text that has been read into a variable. -/
structure Tests (basis : Basis) (a b : Assembly Progress) (p : String → Bool) (value : Name)
    (c : Expr) : Prop where
  later : Later basis a b
  position_eq : b.session.position = a.session.position
  truth : ∀ st, Serves st b → ∀ s text, s.get? value = some (.string text) →
    Truth st.watch c (p text) s

theorem readsValue_tested (ha : Ready basis rounds a) {test : Name → Emit Expr} {message : String}
    {p : String → Bool}
    (htest : ∀ b value, Ready basis rounds b → Emits (test value) b fun c d code =>
      code = [] ∧ Tests basis b d p value c) :
    ReadsValue basis (tested basis.options test message) a fun _ => do
      let text ← Scan.text basis.ws
      Scan.check (p text)
      return .string text := by
  refine .bind ((emits_text ha).mono fun r b code ⟨hr, hb⟩ => ?_)
  refine .bind ((htest b r.2 (ha.later hb.later)).mono fun c d code' ⟨hcode, hd⟩ => ?_)
  subst hcode
  refine .bind_pure (emits_ifThen (emits_failAt ?_))
  refine hb.seq (by simp) fun text => Does.earlier ?_ hd.later hd.position_eq
  refine does_check (Tells.negate fun st hst _ s _ h => hd.truth st hst s text h.1)
    (blames_var fun _ _ h => h.2) (.refl d) fun _ => ?_
  exact does_nil rfl fun _ _ h => .var (hd.later.settled hr.2) h.1

theorem truth_enum {text : String} (hv : s.get? value = some (.string text)) (texts : List String) :
    Truth w (.any (texts.map fun v => .equals (.var value) (.str v))) (texts.contains text) s := by
  have hall : List.Forall₂ (fun e b => Truth w e b s)
      (texts.map fun v => .equals (.var value) (.str v)) (texts.map fun v => text == v) := by
    rw [List.forall₂_map_left_iff, List.forall₂_map_right_iff]
    exact List.forall₂_same.2 fun v _ => (gives_equals (gives_var hv) (gives_lit _)).truth
  have hany := truth_folded (by simp [Unfolded, Expr.equals]) hall false
  have hcontains : (texts.map fun v => text == v).any id = texts.contains text := by
    rw [List.any_map, List.contains_eq_any_beq]
    rfl
  rwa [hcontains] at hany

theorem tests_isTimestamp (value : Name) (ha : Ready basis rounds a) :
    Emits (do
      let test ← primitive .isTimestamp
      return Expr.callName test [.var value] : Emit Expr) a fun c b code =>
        code = [] ∧ Tests basis a b Calendar.isTimestamp value c := by
  refine .bind_pure (emits_primitive ha.tidy fun test b hb => ⟨rfl, later_holds hb, ?_, ?_⟩)
  · rw [hb.session_eq]
  · intro st hst s text hv
    have hargs : List.Forall₂ (fun e v => Gives st.watch e v s) [.var value] [.string text] :=
      .cons (gives_var hv) .nil
    exact (gives_routine (hst.routine hb) hargs rfl (st.watch.plain rfl)).truth

/-- A value is put in a variable, and the program moves over the token that stands for it. -/
theorem acts_literal {token : String} {out : Name} {code : List Stmt} {q : Bool}
    (hout : Settled a out) (htext : out ≠ textName)
    (hb : Acts basis a b [] code (fun cs _ => token.toList <+: cs) (fun _ => Scan.advance token)
      fun _ _ _ => True) (hq : q = true) :
    Acts basis a b [out] ([.assign out (.lit v)] ++ code)
      (fun cs _ => token.toList.isPrefixOf cs = q)
      (fun _ => do Scan.advance token; return v) fun y _ t => t.get? out = some y := by
  have hset : Acts basis a b [out] code _
      _ fun y _ t => t.get? out = some y :=
    ((hb.frame (steady_get hout (by simp))).conclude fun _ _ _ _ _ _ _ _ h =>
      ⟨v, rfl, rfl, h.2⟩).widen
  refine does_set hout htext (by simp) (fun st _ cs s _ h => ?_) hset
  exact ⟨v, sets_assign (gives_lit v), List.isPrefixOf_iff_prefix.1 (h.trans hq),
    State.get?_put_self _ _ _⟩

theorem readsValue_boolean (ha : Ready basis rounds a) :
    ReadsValue basis (boolean basis.options) a fun _ => ScalarType.scan basis.ws .boolean := by
  refine .bind ((emits_skipBlanks ha).mono fun _ b code₁ hb => ?_)
  have hb' := ha.later hb.later
  refine .bind ((emits_promote hb').mono fun pos c code₂ ⟨hpos, hc⟩ => ?_)
  have hc' := hb'.later hc.later
  refine .bind (emits_declare fun out d hd => ?_)
  obtain ⟨hcd, hd', hout, htext⟩ := hc'.fresh hd
  refine .bind (emits_isAt (.bind (emits_isAt (.bind_pure (emits_choose ?_)))))
  refine Emits.bind (emits_assign ((emits_advance hd' "true").mono fun _ e code₃ he => ?_))
  have he' := hd'.later he.later
  refine Emits.bind (emits_assign ((emits_advance he' "false").mono fun _ f code₄ hf => ?_))
  refine emits_failHere ?_
  have hposd := hcd.position_eq hpos
  have hpose := he.later.position_eq hposd
  refine hb.over steady_true fun _ => hc.prepare steady_true ?_
  refine does_let hc'.placed hd (List.Subset.refl [out]) steady_true (fun _ _ _ _ => gives_lit _) ?_
  have hholds : ∀ y (rest : List Char) t, t.get? out = some y → Holding f t (.var out) y :=
    fun _ _ _ h => .var (hf.later.settled (he.later.settled hout)) h
  refine does_isAt (he.later.trans hf.later) fun q => does_ite hposd he.later hf.later
    (tells_atCode rfl (by decide) fun _ _ h => h.2) (fun hq => ?_) fun _ => ?_
  · exact (acts_literal hout htext he hq).mono (fun _ _ h => h.2) hholds
  refine does_isAt hf.later fun q => does_ite hpose hf.later (.refl f)
    (tells_atCode (hpose.trans hposd.symm) (by decide) fun _ _ h => h.2) (fun hq => ?_)
    fun _ => does_fails (.refl f) blames_here
  exact (acts_literal (he.later.settled hout) htext hf hq).mono (fun _ _ h => h.2) hholds

theorem truth_between {w : Watch} {n : Json.Number} {low high : Int}
    (hv : s.get? value = some (.number n)) (hlow : low.natAbs < 2 ^ 53)
    (hhigh : high.natAbs < 2 ^ 53) :
    Truth w (.all [.typeIs (.var value) .integer, .binary .ge (.var value) (intCode low),
      .binary .le (.var value) (intCode high)]) (isBetween low high (.number n)) s := by
  have hvalue : Gives w (.var value) (.number n) s := gives_var hv
  have hge : Gives w (.binary .ge (.var value) (intCode low))
      (.bool (n.toBinary64.compare (Binary64.ofInt low) != .lt)) s :=
    gives_binary hvalue (gives_lit _) rfl
  have hle : Gives w (.binary .le (.var value) (intCode high))
      (.bool (n.toBinary64.compare (Binary64.ofInt high) != .gt)) s :=
    gives_binary hvalue (gives_lit _) rfl
  have hall := truth_folded (by simp [Unfolded])
    (.cons (gives_typeIs hvalue .integer).truth (.cons hge.truth (.cons hle.truth .nil))) true
  have hfits : [JsonType.integer.holds (.number n),
      n.toBinary64.compare (Binary64.ofInt low) != .lt,
      n.toBinary64.compare (Binary64.ofInt high) != .gt].all id = isBetween low high (.number n) := by
    cases hn : n.integer? with
    | none => simp [JsonType.holds, isBetween, hn, Json.Number.integer?_eq_none_iff.1 hn]
    | some i =>
      have hintegral : n.isIntegral = true := by
        cases h : n.isIntegral with
        | true => rfl
        | false => rw [Json.Number.integer?_eq_none_iff.2 h] at hn; cases hn
      rw [Json.Number.compare_toBinary64 hn hlow, Json.Number.compare_toBinary64 hn hhigh]
      rw [Bool.eq_iff_iff]
      simp [JsonType.holds, hintegral, isBetween, hn, compare_lt_iff_lt, compare_gt_iff_gt]
  rwa [hfits] at hall

theorem readsValue_integer (ha : Ready basis rounds a) {type : ScalarType} {low high : Int}
    (hbounds : type.bounds? = some (low, high)) :
    ReadsValue basis (integer basis.options type low high) a fun _ => type.scan basis.ws := by
  refine .bind ((emits_scalar ha (.inr (.inl rfl))).mono fun r b code ⟨hr, hb⟩ => ?_)
  refine .bind_pure (emits_ifThen (emits_failAt ?_))
  simp only [ScalarType.scan, hbounds]
  have hnumber : ∀ cs v rest, Scan.scalar basis.ws .parseNumber cs = some (v, rest) →
      ∃ n, v = .number n := fun cs v rest hy => by
    obtain ⟨-, n, -, rfl, -⟩ := Scan.numeral_of_value hy
    exact ⟨n, rfl⟩
  refine (hb.learn fun _ => hnumber).seq (by simp) fun v => does_check (Tells.negate ?_) (blames_var fun _ _ h => h.2.2)
    (.refl b) fun _ => does_nil rfl fun _ _ h => .var hr.2 h.2.1
  rintro st - cs s - ⟨⟨n, rfl⟩, hv, -⟩
  refine truth_between hv ?_ ?_
  all_goals
    cases type <;> cases hbounds <;> decide

theorem readsValue_ofType (ha : Ready basis rounds a) (type : ScalarType) :
    ReadsValue basis (ofType basis.options type) a fun _ => type.scan basis.ws := by
  unfold ofType
  split
  · rename_i low high hbounds
    exact readsValue_integer ha hbounds
  · rename_i hbounds
    cases type with
    | boolean => exact readsValue_boolean ha
    | string =>
      exact .bind_pure ((emits_text ha).mono fun r b code ⟨hr, hb⟩ =>
        hb.conclude fun _ _ _ _ _ _ _ _ h => ⟨_, rfl, rfl, .var hr.2 h.1⟩)
    | timestamp => exact readsValue_tested ha fun b value hb => tests_isTimestamp value hb
    | float32 | float64 => exact readsValue_scalar ha (.inr (.inl rfl))
    | _ => cases hbounds

end SchemaCompiler.TypeDefinition.Parser

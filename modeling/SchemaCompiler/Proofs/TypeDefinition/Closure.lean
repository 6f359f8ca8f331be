import SchemaCompiler.Proofs.Compiler.Closure
import SchemaCompiler.Proofs.TypeDefinition.Linking
import SchemaCompiler.Proofs.TypeDefinition.WellFormed
import SchemaCompiler.Proofs.Writing
import SchemaCompiler.TypeDefinition.Parser
import SchemaCompiler.TypeDefinition.Serializer

/-!
# Programs for type definitions are closed

The functions of parsers and serializers use their parameters, their variables, routines and each
other. Whatever a function is begun for is finished, so every name of the program is that of a routine
or a function, and linking gives a program that is closed and minimal.
-/
namespace SchemaCompiler

open Gen Assoc

variable {K : Name → Prop} {out text data f : Name} {tag : String} {e : Expr} {additional : Bool}
  {σ : Type} {schema : Schema} {stem : LocalStem}

attribute [local simp] Expr.names Expr.namesOfItems Expr.namesOfMembers Expr.callName Expr.equals
  Expr.differs Expr.str Expr.nat Expr.bool Expr.null Stmt.names

theorem Gen.adds_ifNot {I : Kept σ} {yes : Gen σ Unit} (he : ∀ n ∈ e.names, K n)
    (hy : Adds I K yes) : Adds I K (ifThen e.negate yes) :=
  adds_ifThen (fun n hn => he n (Expr.mem_names_negate hn)) hy

/-! ## Linking -/

namespace Library

variable {l : Library}

theorem Tidy.not_means (h : l.Tidy) {e : ValueScope.Entry} (he : e ∈ l.scope.entries) (f : Name) :
    ¬ e.Means l.scope f := by
  obtain ⟨routine, k, rfl, -⟩ := h.routines e he
  simp [ValueScope.Entry.Means, routineEntry]

theorem Neat.linkable (h : l.Neat) (hhas : ∀ n, l.scope.names.Given n → l.Has n) :
    ValueScope.Linkable l.functions l.scope where
  functions_nodup := h.nodup
  entries_nodup := h.tidy.distinct
  disjoint := fun e he => get?_eq_none_iff.1 (h.tidy.get?_functions he)
  follow := fun e he f hf => absurd hf (h.tidy.not_means he f)
  means := fun e he f hf => absurd hf (h.tidy.not_means he f)
  uses := fun f hf n hn => ((h.inScope f hf).uses n hn).imp_right (Or.imp_right (hhas n))
  apart := fun f hf n hn => by
    have hfree := (h.inScope f hf).free n hn
    constructor <;> intro hmem
    · obtain ⟨⟨m, g⟩, hg, rfl⟩ := List.mem_map.1 hmem
      obtain ⟨stem, k, hm, hk, -⟩ := h.tidy.functions m g ((get?_eq_some_iff h.nodup).2 hg)
      exact hfree (h.reserved m ⟨stem, k, hm, hk⟩)
    · obtain ⟨e, he, rfl⟩ := List.mem_map.1 hmem
      obtain ⟨routine, k, rfl, hk⟩ := h.tidy.routines e he
      exact hfree (h.reserved _ ⟨Gen.routineStem, k, rfl, hk⟩)

end Library

namespace TypeDefinition

/-! ## Functions of names -/

/-- What a type definition is compiled under: its names, the functions that they have already, and how
many more may be begun inside each other. -/
structure Terms where
  fails : Prop
  definitions : List (String × Form)
  base : Defined
  rounds : Nat

variable {q : Terms}

/-- Functions belong to names of the definition, and there are rounds for those that have none. -/
structure Covers (q : Terms) (defined : Defined) (functions : List (Name × FunctionDef)) : Prop where
  base : ∀ name f, get? name q.base = some f → get? name defined = some f
  known : ∀ name f, get? name defined = some f → contains name q.definitions = true
  made : ∀ f ∈ functions.map Prod.fst, ∃ name, get? name defined = some f
  room : q.fails ∨ room q.definitions defined ≤ q.rounds

/-- A function is begun for a name. -/
def Terms.begin (q : Terms) (name : String) (f : Name) (defined : Defined) : Terms :=
  { q with base := insert name f defined, rounds := q.rounds - 1 }

namespace Covers

variable {defined later : Defined} {functions functions' : List (Name × FunctionDef)} {name : String}
  {form : Form}

variable (h : Covers q defined functions)

include h

theorem begin (hform : get? name q.definitions = some form)
    (hnew : get? name defined = none) (f : Name) :
    Covers (q.begin name f defined) (insert name f defined) functions where
  base := fun _ _ => id
  known := fun other g hg => by
    rw [get?_insert] at hg
    split at hg
    · next heq => simp [Terms.begin, contains, heq, hform]
    · exact h.known other g hg
  made := fun g hg => by
    obtain ⟨other, hother⟩ := h.made g hg
    have hne : other ≠ name := fun heq => by rw [heq, hnew] at hother; cases hother
    exact ⟨other, by rw [get?_insert_of_ne hne, hother]⟩
  room := h.room.imp_right fun hroom => by
    have hless := room_insert (f := f) hform hnew
    simp only [Terms.begin]
    omega

theorem finish (hnew : get? name defined = none) {f : Name}
    (h' : Covers (q.begin name f defined) later functions') (g : FunctionDef) :
    Covers q later (insert f g functions') := by
  have hkept : ∀ other k, get? other defined = some k → get? other later = some k := by
    intro other k hk
    have hne : other ≠ name := fun heq => by rw [heq, hnew] at hk; cases hk
    exact h'.base other k (by rw [Terms.begin, get?_insert_of_ne hne, hk])
  refine ⟨fun other k hk => hkept other k (h.base other k hk), h'.known, fun k hk => ?_,
    h.room.imp_right (Nat.le_trans (room_le _ hkept))⟩
  rcases mem_keys_insert.1 hk with hk | rfl
  · exact h'.made k hk
  · exact ⟨name, h'.base name k (get?_insert_self ..)⟩

/-- Without rounds no name is left without a function. -/
theorem fails_of_zero (hq : q.rounds = 0)
    (hform : get? name q.definitions = some form) (hnew : get? name defined = none) : q.fails := by
  refine h.room.resolve_right fun hroom => ?_
  have hless := room_insert (f := ⟨"f", by decide⟩) hform hnew
  omega

end Covers

/-- What the compilation of a type definition leaves behind: entry functions can be linked, and every
function but one belongs to a name, each to one. -/
structure Leaves (definitions : List (String × Form)) (entry : Name) (l : Library) : Prop where
  links : ∀ e, ValueScope.LinksWell l.functions l.scope e
  nodup : (l.functions.map Prod.fst).Nodup
  made : ∃ functionOf : String → Option Name, ∀ f ∈ l.functions.map Prod.fst,
    f = entry ∨ ∃ d ∈ definitions, functionOf d.1 = some f

/-- Every name of a program that is written from nothing, by a function, is that of a value or a
function, so what an entry function is linked with is closed and minimal. -/
theorem leaves_of_written {start : σ} {c : Assembly σ} {defined : Defined} {entry : Name}
    {functions : List (Name × FunctionDef)} {f : FunctionDef}
    (hw : Assembly.Written (fun _ => False) ⟨.empty, [], .empty, start⟩ c [])
    (hc : Covers q defined functions) (hf : c.library.functions = insert entry f functions) :
    Leaves q.definitions entry c.library where
  links := fun e => by
    have hhas : ∀ n, c.library.scope.names.Given n → c.library.Has n := fun n hn => by
      rcases hw.new n hn with ⟨stem, k, -, hk⟩ | hn
      · simp [Library.empty, ValueScope.empty] at hk
      · exact hn
    obtain ⟨seen, -, hreached⟩ := hw.neat.tidy.reachedLive_eq e 0
    exact (hw.neat.linkable hhas).linksWell hreached
  nodup := hw.neat.nodup
  made := by
    refine ⟨fun name => get? name defined, fun n hn => ?_⟩
    rw [hf] at hn
    refine (mem_keys_insert.1 hn).symm.imp_right fun hn => ?_
    obtain ⟨name, hname⟩ := hc.made n hn
    obtain ⟨form, hform⟩ := Option.isSome_iff_exists.1 (hc.known name n hname)
    exact ⟨(name, form), mem_of_get?_eq_some hform, hname⟩

theorem covers_start (fails : Prop) (definitions : List (String × Form)) :
    Covers ⟨fails, definitions, [], definitions.length⟩ [] [] :=
  ⟨by simp, by simp, by simp, .inr (List.length_filter_le _ _)⟩

theorem Leaves.of_execute {x : Gen σ Name} {start : σ} {definitions : List (String × Form)}
    (h : Emits x ⟨.empty, [], .empty, start⟩ (fun entry c _ => Leaves definitions entry c.library) True)
    {r : Name} {l : Library} {t : σ} (hx : Gen.execute x .empty start = (.ok r, l, t)) :
    Leaves definitions r l := by
  simp only [Gen.execute, StateT.run] at hx
  rcases h [] with ⟨r', b, code, hran, hleaves⟩ | ⟨-, e, s, hran⟩
  · rw [show ExceptT.run x ⟨.empty, [], .empty, start⟩ = _ from hran] at hx
    cases hx
    exact hleaves
  · rw [show ExceptT.run x ⟨.empty, [], .empty, start⟩ = _ from hran] at hx
    cases hx

/-! ## Parsers -/

namespace Parser

variable {options : Options}

/-- The position can be read, and the functions of names have been given. -/
structure Sound (q : Terms) (K : Name → Prop) (a : Assembly Progress) : Prop where
  position : ∀ n ∈ a.session.position.code.names, a.Usable K n
  defined : ∀ name f, get? name a.session.defined = some f → a.library.scope.names.Given f
  covers : Covers q a.session.defined a.library.functions

def kept (q : Terms) : Kept Progress where
  fails := q.fails
  Holds := Sound q
  within := fun hl hs hf hk h => by
    constructor
    · rw [hs]
      exact fun n hn => (h.position n hn).within hl hk
    · rw [hs]
      exact fun name f hf => (h.defined name f hf).mono hl.given
    · rw [hs, hf]
      exact h.covers

abbrev Gives (q : Terms) (K : Name → Prop) (x : Emit Expr) : Prop := Writes (kept q) K x fun e n => n ∈ e.names

theorem gives_position : Gives q K position :=
  .onSession fun _ hi => .pure hi.position

theorem writes_promote : Writes (kept q) K promote Eq := by
  refine .onSession fun a hi => ?_
  have hposition := hi.position
  cases hp : a.session.position with
  | moving name =>
    rw [hp] at hposition
    exact .pure fun n hn => hn ▸ hposition name (List.mem_singleton_self _)
  | known n =>
    refine (writes_declare (by simp)).bind fun name => ?_
    refine .followed (adds_modifySession fun b hb => ⟨?_, hb.defined, hb.covers⟩)
      (.pure fun n hn => .inr hn)
    exact fun n hn => .inl (.inr (List.mem_singleton.1 hn).symm)

theorem adds_advance (n : Nat) : Adds (kept q) K (advance n) := by
  refine .onSession fun a hi => ?_
  have hposition := hi.position
  cases hp : a.session.position with
  | moving name =>
    rw [hp] at hposition
    exact adds_add (hposition name (List.mem_singleton_self _)) (by simp)
  | known k => exact adds_modifySession fun b hb => ⟨by simp [Position.code], hb.defined, hb.covers⟩

theorem adds_failAt (message : String) (he : ∀ n ∈ e.names, K n) : Adds (kept q) K (failAt message e) :=
  adds_emit (by simpa using he) rfl

theorem adds_failHere (message : String) : Adds (kept q) K (failHere message) :=
  gives_position.bind fun _ => adds_failAt message fun _ => .inr

section Text

variable (hP : K textName)

include hP

theorem adds_skipBlanks : Adds (kept q) K (skipBlanks options) := by
  unfold skipBlanks
  split
  · refine writes_promote.bind fun pos => (writes_primitive _).bind fun skip => ?_
    exact adds_assign (by simp) (by simp [hP])
  · exact .pure (by simp)

theorem gives_isAt (token : String) : Gives q K (isAt token) :=
  gives_position.bind fun e => .pure (by simp +contextual [hP])

theorem adds_expect (token : String) : Adds (kept q) K (expect options token) := by
  refine (adds_skipBlanks hP).followed ((gives_isAt hP token).bind fun e => ?_)
  exact (adds_ifNot (fun _ => .inr) (adds_failHere _)).followed (adds_advance _)

theorem writes_scalar (routine : Primitive) :
    Writes (kept q) K (scalar options routine) fun r n => n = r.1 ∨ n = r.2 := by
  refine (adds_skipBlanks hP).followed (writes_promote.bind fun pos => ?_)
  refine (writes_constant (by simp)).bind fun start => (writes_primitive _).bind fun read => ?_
  refine (writes_constant (by simp [hP])).bind fun result => ?_
  refine (adds_assign (by simp) (by simp)).followed ?_
  exact (writes_constant (by simp)).bind fun value => .pure (by simp)

theorem adds_separated {member : Emit Unit} (h : Adds (kept q) K member) :
    Adds (kept q) K (separated options member) := by
  refine adds_loop (h.followed ((adds_skipBlanks hP).followed ?_))
  exact (gives_isAt hP ",").bind fun e =>
    adds_ifElse (fun _ => .inr) (adds_advance 1) (adds_emit (by simp) rfl)

theorem adds_listed (closing : String) {member : Emit Unit}
    (h : ∀ L : Name → Prop, (∀ n, K n → L n) → Adds (kept q) L member) :
    Adds (kept q) K (listed options closing member) := by
  refine (adds_skipBlanks hP).followed ((gives_isAt hP closing).bind fun e => ?_)
  exact adds_ifNot (fun _ => .inr) (adds_separated (.inl hP) (h _ fun _ => .inl))

/-! ### Scalars -/

theorem gives_tested {test : Name → Emit Expr} (message : String)
    (h : ∀ n (K : Name → Prop), K n → Gives q K (test n)) : Gives q K (tested options test message) := by
  refine (writes_scalar hP _).bind fun r => (h r.2 _ (by simp)).bind fun e => ?_
  exact (adds_ifNot (fun _ => .inr) (adds_failAt message (by simp))).followed (.pure (by simp))

theorem gives_boolean : Gives q K (boolean options) := by
  refine (adds_skipBlanks hP).followed (writes_promote.bind fun _ => ?_)
  refine (writes_declare (by simp)).bind fun out => ?_
  refine (gives_isAt (by simp [hP]) "true").bind fun isTrue => ?_
  refine (gives_isAt (by simp [hP]) "false").bind fun isFalse => ?_
  have hset : ∀ {L : Name → Prop} v n, L out →
      Adds (kept q) L (do Gen.assign out (.bool v); advance n) := fun v n hout =>
    (adds_assign hout (by simp)).followed (adds_advance n)
  refine (adds_choose (fun p hp => ?_) (adds_failHere _)).followed (.pure (by simp))
  rcases List.mem_pair.1 hp with rfl | rfl
  · exact ⟨fun n hn => .inl (.inr hn), hset true 4 (by simp)⟩
  · exact ⟨fun _ => .inr, hset false 5 (by simp)⟩

theorem gives_integer (type : ScalarType) (low high : Int) :
    Gives q K (integer options type low high) := by
  refine (writes_scalar hP _).bind fun r => ?_
  refine (adds_ifNot (Expr.Within.names (Expr.within_all ?_))
    (adds_failAt _ (by simp))).followed (.pure (by simp))
  simp [Expr.Within, intCode]

theorem gives_ofType (type : ScalarType) : Gives q K (ofType options type) := by
  have hscalar : ∀ routine, Gives q K (do return .var (← scalar options routine).2) :=
    fun routine => (writes_scalar hP routine).bind fun r => .pure (by simp)
  unfold ofType
  split
  · exact gives_integer hP _ _ _
  · split
    · exact gives_boolean hP
    · exact hscalar _
    · exact gives_tested hP _ fun n K hn => (writes_primitive _).bind fun test => .pure (by simp [hn])
    · exact hscalar _

/-! ### Forms -/

omit hP in
theorem adds_requireAll (hout : K out) (required : List (String × Form)) :
    Adds (kept q) K (requireAll out required) := by
  induction required with
  | nil => exact .pure (by simp)
  | cons p rest ih => exact (adds_ifNot (by simp [hout]) (adds_failHere _)).followed ih

theorem adds_closeObject (hout : K out) (required : List (String × Form)) :
    Adds (kept q) K (closeObject options out required) :=
  (adds_expect hP _).followed (adds_requireAll hout required)

/-- A member is read by the arm for its key, or as the object has it for other keys. -/
theorem adds_member {arms : Name → List (Expr × Emit Unit)} {tag : Option (String × Name)}
    (hout : K out) (harms : ∀ key (L : Name → Prop), (∀ n, K n → L n) → L key → ∀ p ∈ arms key,
      (∀ n ∈ p.1.names, L n) ∧ Adds (kept q) L p.2)
    (htag : ∀ p ∈ tag, K p.2) : Adds (kept q) K (member options out arms additional tag) := by
  refine (writes_scalar hP _).bind fun (start, key) => ?_
  refine (adds_expect (.inl hP) _).followed (adds_choose (fun p hp => ?_) ?_)
  · rcases List.mem_append.1 hp with hp | hp
    · exact harms key _ (fun _ => .inl) (by simp) p hp
    · cases tag with
      | none => cases hp
      | some pair =>
        obtain rfl := List.mem_singleton.1 hp
        have hseen := htag pair rfl
        refine ⟨by simp [tagArm], (adds_ifThen (by simp [hseen])
          (adds_failAt _ (by simp))).followed ?_⟩
        refine (adds_assign (.inl hseen) (by simp)).followed ?_
        exact (writes_scalar (.inl hP) _).followed (.pure (by simp))
  · split
    · exact (writes_scalar (.inl hP) _).bind fun v => adds_emit (by simp [hout]) rfl
    · exact adds_failAt _ (by simp)

theorem adds_scanTag {pos found foundAt : Name} (tag : String) (hpos : K pos) (hfound : K found)
    (hfoundAt : K foundAt) : Adds (kept q) K (scanTag options tag pos found foundAt) := by
  refine adds_loop ((writes_scalar hP _).bind fun (start, key) => ?_)
  refine (adds_expect (.inl hP) _).followed ((adds_ifThen (by simp) ?_).followed ?_)
  · refine (adds_skipBlanks (.inl hP)).followed ((gives_isAt (.inl hP) _).bind fun e => ?_)
    refine (adds_ifNot (fun _ => .inr) (adds_failHere _)).followed ?_
    refine (adds_assign (by simp [hfoundAt]) (by simp [hpos])).followed ?_
    refine (writes_scalar (by simp [hP]) _).bind fun v => ?_
    exact (adds_assign (by simp [hfound]) (by simp)).followed (adds_emit (by simp) rfl)
  · refine (writes_scalar (.inl hP) _).followed ?_
    refine (adds_skipBlanks (.inl hP)).followed ((gives_isAt (.inl hP) _).bind fun e => ?_)
    exact (adds_ifNot (fun _ => .inr) (adds_emit (by simp) rfl)).followed (adds_advance 1)

theorem gives_tagged {arms : Name → Name → Name → List (Expr × Emit Unit)}
    (harms : ∀ found out seen (L : Name → Prop), (∀ n, K n → L n) → L found → L out → L seen →
      ∀ p ∈ arms found out seen, (∀ n ∈ p.1.names, L n) ∧ Adds (kept q) L p.2) :
    Gives q K (tagged options tag arms) := by
  refine (adds_skipBlanks hP).followed (writes_promote.bind fun pos => ?_)
  refine (writes_constant (by simp)).bind fun objectStart => ?_
  refine (adds_expect (by simp [hP]) _).followed ?_
  refine (writes_constant (by simp)).bind fun membersStart => ?_
  refine (writes_declare (by simp)).bind fun found => (writes_declare (by simp)).bind fun foundAt => ?_
  refine (adds_skipBlanks (by simp [hP])).followed ?_
  refine (gives_isAt (by simp [hP]) _).bind fun closing => ?_
  refine (adds_ifNot (fun _ => .inr) (adds_scanTag (by simp [hP]) tag (by simp) (by simp)
    (by simp))).followed ?_
  refine (adds_ifThen (by simp) (adds_failAt _ (by simp))).followed ?_
  refine (adds_assign (by simp) (by simp)).followed ?_
  refine (writes_declare (by simp)).bind fun out => (writes_declare (by simp)).bind fun seen => ?_
  refine (adds_choose (harms found out seen _ (by simp +contextual) (by simp) (by simp) (by simp))
    (adds_failAt _ (by simp))).followed (.pure (by simp))

end Text

def GivesRefs (q : Terms) (known : String → Prop) (onRef : String → Emit Expr) : Prop :=
  ∀ name, q.fails ∨ known name → ∀ K : Name → Prop, K textName → Gives q K (onRef name)

section Forms

variable {onRef : String → Emit Expr} {known : String → Prop} (hr : GivesRefs q known onRef)

include hr

set_option linter.unusedSectionVars false in
mutual
theorem gives_ofForm : (form : Form) → q.fails ∨ form.WellFormed known →
    ∀ {K : Name → Prop}, K textName → Gives q K (ofForm options onRef form)
  | .empty, _, K, hP => by
    exact (writes_scalar hP _).bind fun r => .pure (by simp)
  | .ref name, hw, K, hP => by
    exact hr name hw K hP
  | .type t, _, K, hP => by
    exact gives_ofType hP t
  | .enum values, _, K, hP => by
    refine gives_tested hP _ fun n L hn => .pure (Expr.Within.names (Expr.within_any fun e he => ?_))
    obtain ⟨v, -, rfl⟩ := List.mem_map.1 he
    exact ⟨hn, trivial⟩
  | .elements item, hw, K, hP => by
    refine (adds_expect hP _).followed (writes_promote.followed ?_)
    refine (writes_declare (by simp)).bind fun out => ?_
    refine (adds_listed (.inl hP) _ fun L hL => ?_).followed
      ((adds_expect (.inl hP) _).followed (.pure (by simp)))
    refine (gives_ofForm item hw (hL _ (.inl hP))).bind fun value => ?_
    exact adds_emit (by simp +contextual [hL]) rfl
  | .values item, hw, K, hP => by
    refine (adds_expect hP _).followed (writes_promote.followed ?_)
    refine (writes_declare (by simp)).bind fun out => ?_
    refine (adds_listed (.inl hP) _ fun L hL => ?_).followed
      ((adds_expect (.inl hP) _).followed (.pure (by simp)))
    have hP := hL _ (.inl hP)
    refine (writes_scalar hP _).bind fun r => (adds_expect (.inl hP) _).followed ?_
    refine (gives_ofForm item hw (.inl hP)).bind fun value => ?_
    exact adds_emit (by simp +contextual [hL]) rfl
  | .properties required optional additional, hw, K, hP => by
    refine (adds_expect hP _).followed ?_
    split
    · exact (adds_expect hP _).followed (.pure (by simp))
    · refine writes_promote.followed ((writes_declare (by simp)).bind fun out => ?_)
      refine (adds_listed (.inl hP) _ fun L hL => ?_).followed
        ((adds_closeObject (.inl hP) (by simp) required).followed (.pure (by simp)))
      refine adds_member (hL _ (.inl hP)) (hL _ (by simp)) (fun key M hM hkey p hp => ?_) (by simp)
      have hP := hM _ (hL _ (.inl hP))
      have hout := hM _ (hL out (by simp))
      exact (List.mem_append.1 hp).elim
        (adds_memberArms required (hw.imp_right (·.2.1)) hP hout hkey p)
        (adds_memberArms optional (hw.imp_right (·.2.2)) hP hout hkey p)
  | .discriminator tag mapping, hw, K, hP => by
    exact gives_tagged hP fun found out seen L hL hfound hout hseen =>
      adds_mappingArms mapping (hw.imp_right And.right) (hL _ hP) hfound hout hseen
  | .nullable form, hw, K, hP => by
    refine (adds_skipBlanks hP).followed (writes_promote.followed ?_)
    refine (writes_declare (by simp)).bind fun out => (gives_isAt (.inl hP) _).bind fun e => ?_
    refine (adds_ifElse (fun _ => .inr) (adds_advance 4) ?_).followed (.pure (by simp))
    refine (gives_ofForm form hw (by simp [hP])).bind fun value => ?_
    exact adds_assign (by simp) (by simp +contextual)

theorem adds_memberArms {out key : Name} :
    (members : List (String × Form)) → q.fails ∨ Form.AllWellFormed known members →
    ∀ {K : Name → Prop}, K textName → K out → K key →
      ∀ p ∈ memberArms options onRef out key members, (∀ n ∈ p.1.names, K n) ∧ Adds (kept q) K p.2
  | [], _, K, _, _, _ => by simp [memberArms]
  | (name, form) :: rest, hw, K, hP, hout, hkey => by
    refine List.forall_mem_cons.2 ⟨⟨by simp [hkey], ?_⟩,
      adds_memberArms rest (hw.imp_right And.right) hP hout hkey⟩
    refine (gives_ofForm form (hw.imp_right And.left) hP).bind fun value => ?_
    exact adds_emit (by simp +contextual [hout]) rfl

theorem adds_mappingArms {tag : String} {found out seen : Name} :
    (mapping : List (String × Form)) →
      q.fails ∨ (∀ m ∈ mapping, m.2.LeavesOut tag) ∧ Form.AllWellFormed known mapping → ∀ {K : Name → Prop}, K textName → K found → K out → K seen →
      ∀ p ∈ mappingArms options onRef tag found out seen mapping,
        (∀ n ∈ p.1.names, K n) ∧ Adds (kept q) K p.2
  | [], _, K, _, _, _, _ => by simp [mappingArms]
  | (value, form) :: rest, hw, K, hP, hfound, hout, hseen => by
    refine List.forall_mem_cons.2 ⟨⟨by simp [hfound], ?_⟩, ?_⟩
    · exact adds_selected form (hw.imp_right fun h => ⟨h.1 _ List.mem_cons_self, h.2.1⟩) hP hout hseen
    · exact adds_mappingArms rest (hw.imp_right fun h => ⟨(List.forall_mem_cons.1 h.1).2, h.2.2⟩) hP
        hfound hout hseen

theorem adds_selected {tag : String} {out seen : Name} :
    (form : Form) → q.fails ∨ form.LeavesOut tag ∧ form.WellFormed known → ∀ {K : Name → Prop}, K textName → K out → K seen →
      Adds (kept q) K (selected options onRef tag out seen form)
  | .properties required optional additional, hw, K, hP, hout, hseen => by
    refine (adds_separated hP ?_).followed (adds_closeObject hP hout required)
    refine adds_member hP hout (fun key L hL hkey p hp => ?_) (by simpa using hseen)
    exact (List.mem_append.1 hp).elim
      (adds_memberArms required (hw.imp_right (·.2.2.1)) (hL _ hP) (hL _ hout) hkey p)
      (adds_memberArms optional (hw.imp_right (·.2.2.2)) (hL _ hP) (hL _ hout) hkey p)
  | .empty, hw, _, _, _, _ | .ref _, hw, _, _, _, _ | .type _, hw, _, _, _, _ | .enum _, hw, _, _, _, _
  | .elements _, hw, _, _, _, _ | .values _, hw, _, _, _, _ | .discriminator _ _, hw, _, _, _, _
  | .nullable _, hw, _, _, _, _ => by
    exact .throw _ (hw.resolve_right And.left)
end

end Forms

/-! ### Functions -/

theorem writes_define {onRef : String → Emit Expr} {known : String → Prop} {name : String} {form : Form}
    {a : Assembly Progress} (ha : a.library.Neat) (hi : Sound q K a)
    (hr : GivesRefs (q.begin name (a.library.scope.fresh parseStem).1 a.session.defined) known onRef)
    (hw : q.fails ∨ form.WellFormed known) (hform : get? name q.definitions = some form)
    (hnew : get? name a.session.defined = none) :
    WritesFrom (kept q) K a (define options onRef name form) Eq := by
  refine .bind (emits_onScope (.bind (emits_session (.bind (emits_setSession (.bind
    ((emits_written K (kept (q.begin name (a.library.scope.fresh parseStem).1 a.session.defined))
      (by decide) (by decide) (by decide) ?_ ha ⟨?_, fun other g hg => ?_,
        hi.covers.begin hform hnew _⟩).mono ?_)))))))
  · refine (gives_ofForm hr form hw (by simp)).bind fun value => gives_position.bind fun e => ?_
    exact adds_emit (by simp +contextual [or_imp]) rfl
  · simp [named, Position.code, Assembly.Usable]
  · simp only [named, get?_insert] at hg
    split at hg
    · cases hg
      exact a.library.scope.names.given_next parseStem
    · exact (hi.defined other g hg).mono (a.library.scope.names.le_next parseStem)
  · rintro _ c _ ⟨rfl, hnames, hw, hle, b, g, hj, hs, hscope, hfunctions⟩
    refine .bind (emits_modifySession (emits_pure ⟨hw _, ⟨fun n hn => ?_, ?_, ?_⟩, ?_⟩))
    · exact (hi.position n hn).later ⟨hnames ▸ le_rfl,
        le_trans (a.library.scope.names.le_next parseStem) hle⟩
    · rw [hs, hscope]
      exact hj.defined
    · rw [hs, hfunctions]
      exact hi.covers.finish hnew hj.covers g
    · rintro n rfl
      exact .inr (.inr ((a.library.scope.names.given_next parseStem).mono hle))

theorem gives_call (hP : K textName) (hf : K f) : Gives q K (do
      let pos ← promote
      let result ← Gen.constant resultStem (.callName f [.var textName, .var pos])
      Gen.assign pos (.index (.var result) (.nat 1))
      let value ← Gen.constant valueStem (.index (.var result) (.nat 0))
      pure (.var value)) := by
  refine writes_promote.bind fun pos => (writes_constant (by simp [hP, hf])).bind fun result => ?_
  refine (adds_assign (by simp) (by simp)).followed ?_
  exact (writes_constant (by simp)).bind fun value => .pure (by simp)

theorem givesRefs_ofName (hd : q.fails ∨ ∀ m ∈ q.definitions,
      m.2.WellFormed fun name => contains name q.definitions = true) :
    GivesRefs q (fun name => contains name q.definitions = true)
      (ofName options q.definitions q.rounds) := by
  induction hrounds : q.rounds using Nat.strong_induction_on generalizing q with
  | _ rounds ih
  intro name hname K hP
  unfold ofName
  split
  · exact .throw _ (hname.resolve_right (by simp [contains, ‹_›]))
  rename_i form hform
  have hw := hd.imp_right fun h => h _ (mem_of_get?_eq_some hform)
  split
  · rename_i hplain
    refine gives_ofForm (?_ : GivesRefs q (fun _ => False) _) form (hw.imp_right (Form.WellFormed.of_not_hasRef form (by simpa using hplain))) hP
    exact fun _ h _ _ => .throw _ (h.resolve_right id)
  refine .ofSession fun a ha hi hstart => ?_
  have hcall := fun f => gives_call (q := q) (K := fun n => a.Usable K n ∨ f = n) (.inl (.inl hP)) (.inr rfl)
  split
  · refine Writes.bind (.pure fun n hn => ?_) hcall a ha hstart
    exact hn ▸ .inr (.inr (hi.defined name _ ‹_›))
  · rename_i hnew
    cases rounds with
    | zero => exact Writes.bind (.throw _ (hi.covers.fails_of_zero hrounds hform hnew)) hcall a ha hstart
    | succ rounds =>
      refine (writes_define ha hstart ?_ hw hform hnew).bind_of (fun _ _ => .inl) (fun _ _ => id) hcall
      exact ih rounds rounds.lt_succ_self hd (by simp [Terms.begin, hrounds])

theorem leaves_emitEntry (options : Options) {fails : Prop} (hw : fails ∨ schema.WellFormed) :
    Emits (emitEntry options schema) ⟨.empty, [], .empty, ⟨[], .known 0⟩⟩
      (fun entry c _ => Leaves schema.definitions entry c.library) fails := by
  refine .bind (emits_onScope (.bind ((emits_written (fun _ => False)
    (kept ⟨fails, schema.definitions, [], schema.definitions.length⟩) (by decide) (by decide) (by decide)
    ?_ Library.neat_empty ⟨?_, by simp [named], covers_start fails _⟩).mono ?_)))
  · refine (gives_ofForm (givesRefs_ofName (hw.imp_right (·.definitions))) _ (hw.imp_right (·.root))
      (by simp)).bind fun value => ?_
    refine (adds_skipBlanks (by simp)).followed (gives_position.bind fun stop => ?_)
    refine (adds_ifThen (by simp +contextual [or_imp]) (adds_failHere _)).followed ?_
    exact adds_emit (by simp +contextual [or_imp]) rfl
  · simp [named, Position.code]
  · rintro _ c _ ⟨rfl, -, hw, -, b, g, hj, -, -, hfunctions⟩
    exact emits_pure (leaves_of_written (hw c.session) hj.covers hfunctions)

end Parser

/-! ## Serializers -/

namespace Serializer

def kept (q : Terms) : Kept Defined where
  fails := q.fails
  Holds := fun _ a => Covers q a.session a.library.functions ∧
    ∀ name f, get? name a.session = some f → a.library.scope.names.Given f
  within := fun hl hs hf _ h =>
    ⟨by rw [hs, hf]; exact h.1, fun name f hf => (h.2 name f (hs ▸ hf)).mono hl.given⟩

theorem adds_str (htext : K text) (piece : String) : Adds (kept q) K (write text (.str piece)) :=
  adds_add htext (by simp)

theorem adds_writeCall (htext : K text) (he : ∀ n ∈ e.names, K n) (routine : Primitive) :
    Adds (kept q) K (writeCall text routine e) :=
  (writes_primitive routine).bind fun f => adds_add (.inl htext) (by simp +contextual [he])

theorem writes_bind (he : ∀ n ∈ e.names, K n) : Writes (kept q) K (bind e) Eq := by
  unfold Serializer.bind
  split
  · exact .pure (by simpa using he)
  · exact writes_constant he

def Separator.names : Separator → List Name
  | .mark name => [name]
  | _ => []

theorem adds_separate {separator : Separator} (htext : K text) (h : ∀ n ∈ separator.names, K n) :
    Adds (kept q) K (separate text separator) := by
  cases separator with
  | first => exact .pure (by simp)
  | comma => exact adds_str htext _
  | mark first =>
    have h : K first := h first (by simp [Separator.names])
    exact (adds_ifNot (by simpa using h) (adds_str htext _)).followed
      (adds_assign h (by simp))

theorem adds_writeMember {key : Name} {value : Emit Unit} (htext : K text) (hkey : K key)
    (hvalue : Adds (kept q) K value) : Adds (kept q) K (writeMember text key value) :=
  (adds_writeCall htext (by simpa using hkey) _).followed
    ((adds_str htext _).followed hvalue)

theorem adds_forKeys {object : Expr} {body : Name → Emit Unit}
    (ho : ∀ n ∈ object.names, K n) (h : ∀ n, Adds (kept q) (fun m => K m ∨ n = m) (body n)) :
    Adds (kept q) K (Gen.forKeys stem object body) :=
  adds_around _ object.names (fun _ _ => rfl) (fun _ _ => rfl) ho h

theorem adds_forRange {start stop : Expr} {body : Name → Emit Unit}
    (hhead : ∀ n ∈ start.names ++ stop.names, K n)
    (h : ∀ n, Adds (kept q) (fun m => K m ∨ n = m) (body n)) :
    Adds (kept q) K (Gen.forRange stem start stop body) :=
  adds_around _ _ (fun n code => by simp) (fun _ _ => rfl)
    hhead h

theorem adds_writeAdditional {separator : Separator} (known : List String) (htext : K text)
    (hdata : K data) (h : ∀ n ∈ separator.names, K n) :
    Adds (kept q) K (writeAdditional text data known separator) := by
  refine adds_forKeys (by simpa using hdata) fun key => adds_ifThen ?_ ?_
  · refine Expr.Within.names (Expr.within_all fun e he => ?_)
    obtain ⟨k, -, rfl⟩ := List.mem_map.1 he
    exact ⟨.inr rfl, trivial⟩
  · refine (adds_separate (.inl htext) fun n hn => .inl (h n hn)).followed ?_
    exact adds_writeMember (.inl htext) (.inr rfl) (adds_writeCall (.inl htext) (by simp [hdata]) _)

theorem writes_afterRequired (hasTag : Bool) (required optional : List (String × Form))
    (additional : Bool) : Writes (kept q) K (afterRequired hasTag required optional additional)
      fun separator n => n ∈ separator.names := by
  unfold afterRequired
  split
  · exact .pure (by simp [Separator.names])
  split
  · exact (writes_declare (by simp)).bind fun first => .pure (by simp [Separator.names])
  · exact .pure (by simp [Separator.names])

def AddsMembers (q : Terms) (text data : Name) (members : Separator → Emit Unit) : Prop :=
  ∀ (K : Name → Prop) separator, K text → K data → (∀ n ∈ separator.names, K n) →
    Adds (kept q) K (members separator)

theorem adds_object {required optional : List (String × Form)} {tag : Option (String × String)}
    {writeRequired writeOptional : Separator → Emit Unit} (htext : K text) (hdata : K data)
    (hr : AddsMembers q text data writeRequired) (ho : AddsMembers q text data writeOptional) :
    Adds (kept q) K
      (object text data required optional additional tag writeRequired writeOptional) := by
  refine (adds_str htext _).followed ?_
  -- what comes behind the required members
  have hrest : Adds (kept q) K (do
      let separator ← afterRequired tag.isSome required optional additional
      writeOptional separator
      if additional then
        let known := required.map Prod.fst ++ optional.map Prod.fst ++ (tag.map Prod.fst).toList
        writeAdditional text data known separator
      write text (.str "\x7d")) := by
    refine (writes_afterRequired _ _ _ _).bind fun separator => ?_
    refine (ho _ separator (.inl htext) (.inl hdata) fun _ => .inr).followed ?_
    split
    · exact (adds_writeAdditional _ (.inl htext) (.inl hdata) fun _ => .inr).followed
        (adds_str (.inl htext) _)
    · exact adds_str (.inl htext) _
  cases tag with
  | some tag =>
    refine (adds_str htext _).followed ?_
    exact (hr K .comma htext hdata (by simp [Separator.names])).followed hrest
  | none => exact (hr K .first htext hdata (by simp [Separator.names])).followed hrest

def AddsRefs (q : Terms) (known : String → Prop) (text : Name) (onRef : String → Expr → Emit Unit) :
    Prop :=
  ∀ name, q.fails ∨ known name → ∀ e (K : Name → Prop), K text → (∀ n ∈ e.names, K n) →
    Adds (kept q) K (onRef name e)

section Forms

variable {onRef : String → Expr → Emit Unit} {text : Name} {known : String → Prop}
  (hr : AddsRefs q known text onRef)

include hr

set_option linter.unusedSectionVars false in
mutual
theorem adds_ofForm : (form : Form) →
    q.fails ∨ form.WellFormed known → (e : Expr) → ∀ {K : Name → Prop}, K text →
      (∀ n ∈ e.names, K n) → Adds (kept q) K (ofForm onRef text form e)
  | .empty, _, e, K, htext, he => by
    exact adds_writeCall htext he _
  | .ref name, hw, e, K, htext, he => by
    exact hr name hw e K htext he
  | .type t, _, e, K, htext, he => by
    cases t <;> (exact adds_writeCall htext he _)
  | .enum values, _, e, K, htext, he => by
    exact adds_writeCall htext he _
  | .elements item, hw, e, K, htext, he => by
    refine (writes_bind he).bind fun data => (adds_str (.inl htext) _).followed ?_
    refine (adds_forRange (by simp) fun i => ?_).followed (adds_str (.inl htext) _)
    refine (adds_ifThen (by simp) (adds_str (by simp [htext]) _)).followed ?_
    exact adds_ofForm item hw _ (by simp [htext]) (by simp)
  | .values item, hw, e, K, htext, he => by
    refine (writes_bind he).bind fun data => (adds_str (.inl htext) _).followed ?_
    refine (writes_declare (by simp)).bind fun first => ?_
    refine (adds_forKeys (by simp) fun key => ?_).followed (adds_str (by simp [htext]) _)
    refine (adds_separate (by simp [htext]) (by simp [Separator.names])).followed ?_
    exact adds_writeMember (by simp [htext]) (.inr rfl)
      (adds_ofForm item hw _ (by simp [htext]) (by simp))
  | .properties required optional additional, hw, e, K, htext, he => by
    exact (writes_bind he).bind fun data => adds_object (.inl htext) (.inr rfl)
      (adds_requiredMembers required (hw.imp_right (·.2.1)))
      (adds_optionalMembers optional (hw.imp_right (·.2.2)))
  | .discriminator tag mapping, hw, e, K, htext, he => by
    refine (writes_bind he).bind fun data => (writes_constant (by simp)).bind fun found => ?_
    exact adds_choose (adds_mappingArms tag mapping (hw.imp_right And.right) (by simp [htext]) (by simp)
      (.inr rfl))
      (adds_emit (by simp [unknownTag]) rfl)
  | .nullable form, hw, e, K, htext, he => by
    refine (writes_bind he).bind fun data => ?_
    exact adds_ifElse (by simp) (adds_str (.inl htext) _)
      (adds_ofForm form hw _ (.inl htext) (by simp))

theorem adds_requiredMembers {data : Name} :
    (members : List (String × Form)) → q.fails ∨ Form.AllWellFormed known members →
      AddsMembers q text data fun separator => requiredMembers onRef text data separator members
  | [], _ => fun K separator _ _ _ => by
    exact .pure (by simp)
  | (name, form) :: rest, hw => fun K separator htext hdata h => by
    refine (adds_separate htext h).followed ((adds_str htext _).followed ?_)
    refine (adds_ofForm form (hw.imp_right And.left) _ htext (by simpa using hdata)).followed ?_
    exact adds_requiredMembers rest (hw.imp_right And.right) K .comma htext hdata (by simp [Separator.names])

theorem adds_optionalMembers {data : Name} :
    (members : List (String × Form)) → q.fails ∨ Form.AllWellFormed known members →
      AddsMembers q text data fun separator => optionalMembers onRef text data separator members
  | [], _ => fun K separator _ _ _ => by
    exact .pure (by simp)
  | (name, form) :: rest, hw => fun K separator htext hdata h => by
    refine (adds_ifThen (by simpa using hdata) ?_).followed
      (adds_optionalMembers rest (hw.imp_right And.right) K separator htext hdata h)
    refine (adds_separate htext h).followed ((adds_str htext _).followed ?_)
    exact adds_ofForm form (hw.imp_right And.left) _ htext (by simpa using hdata)

theorem adds_mappingArms {data found : Name} (tag : String) :
    (mapping : List (String × Form)) →
      q.fails ∨ (∀ m ∈ mapping, m.2.LeavesOut tag) ∧ Form.AllWellFormed known mapping →
      ∀ {K : Name → Prop}, K text → K data → K found →
      ∀ p ∈ mappingArms onRef text data found tag mapping,
        (∀ n ∈ p.1.names, K n) ∧ Adds (kept q) K p.2
  | [], _, K, _, _, _ => by simp [mappingArms]
  | (value, form) :: rest, hw, K, htext, hdata, hfound => by
    refine List.forall_mem_cons.2 ⟨⟨by simpa using hfound, ?_⟩, ?_⟩
    · exact adds_selected form (hw.imp_right fun h => ⟨h.1 _ List.mem_cons_self, h.2.1⟩) htext hdata
    · exact adds_mappingArms tag rest
        (hw.imp_right fun h => ⟨(List.forall_mem_cons.1 h.1).2, h.2.2⟩) htext hdata hfound

theorem adds_selected {data : Name} {tag value : String} :
    (form : Form) → q.fails ∨ form.LeavesOut tag ∧ form.WellFormed known → ∀ {K : Name → Prop},
      K text → K data → Adds (kept q) K (selected onRef text data tag value form)
  | .properties required optional additional, hw, K, htext, hdata => by
    rw [selected]
    exact adds_object htext hdata (adds_requiredMembers required (hw.imp_right (·.2.2.1)))
      (adds_optionalMembers optional (hw.imp_right (·.2.2.2)))
  | .empty, hw, _, _, _ | .ref _, hw, _, _, _ | .type _, hw, _, _, _ | .enum _, hw, _, _, _
  | .elements _, hw, _, _, _ | .values _, hw, _, _, _ | .discriminator _ _, hw, _, _, _
  | .nullable _, hw, _, _, _ => by
    exact .throw _ (hw.resolve_right And.left)
end

end Forms

/-! ### Functions -/

theorem adds_body {onRef : Name → String → Expr → Emit Unit} {known : String → Prop} {form : Form}
    (hr : ∀ text, AddsRefs q known text (onRef text)) (hw : q.fails ∨ form.WellFormed known) :
    Adds (kept q) (· ∈ [dataName]) (do
      let text ← Gen.declare textStem (.str "")
      ofForm (onRef text) text form (.var dataName)
      Gen.emit (.return (.var text))) :=
  (writes_declare (by simp)).bind fun text =>
    (adds_ofForm (hr text) form hw _ (.inr rfl) (by simp)).followed (adds_emit (by simp) rfl)

theorem writes_define {onRef : Name → String → Expr → Emit Unit} {known : String → Prop} {name : String}
    {form : Form} {a : Assembly Defined} (ha : a.library.Neat) (hi : (kept q).Holds K a)
    (hr : ∀ text, AddsRefs (q.begin name (a.library.scope.fresh serializeStem).1 a.session) known text
      (onRef text))
    (hw : q.fails ∨ form.WellFormed known) (hform : get? name q.definitions = some form)
    (hnew : get? name a.session = none) :
    WritesFrom (kept q) K a (do
      let function ← Gen.onScope (ValueScope.fresh serializeStem)
      Gen.modifySession fun defined => insert name function defined
      emitFunction onRef function form
      return function) Eq := by
  refine .bind (emits_onScope (.bind (emits_modifySession (.bind ((emits_written K
    (kept _)
      (by decide) (by decide) (by decide) (adds_body hr hw) ha
        ⟨hi.1.begin hform hnew _, fun other f hf => ?_⟩).mono ?_)))))
  · simp only [named, get?_insert] at hf
    split at hf
    · cases hf
      exact a.library.scope.names.given_next serializeStem
    · exact (hi.2 other f hf).mono (a.library.scope.names.le_next serializeStem)
  · rintro _ c _ ⟨rfl, -, hw, hle, b, g, hj, hs, hscope, hfunctions⟩
    refine emits_pure ⟨hw _, ⟨?_, ?_⟩, ?_⟩
    · rw [hs, hfunctions]
      exact hi.1.finish hnew hj.1 g
    · rw [hs, hscope]
      exact hj.2
    · rintro n rfl
      exact .inr (.inr ((a.library.scope.names.given_next serializeStem).mono hle))

theorem addsRefs_ofName (hd : q.fails ∨ ∀ m ∈ q.definitions,
      m.2.WellFormed fun name => contains name q.definitions = true) (text : Name) :
    AddsRefs q (fun name => contains name q.definitions = true) text
      (ofName q.definitions q.rounds text) := by
  induction hrounds : q.rounds using Nat.strong_induction_on generalizing q text with
  | _ rounds ih
  intro name hname e K htext he
  unfold ofName
  split
  · exact .throw _ (hname.resolve_right (by simp [contains, ‹_›]))
  rename_i form hform
  have hw := hd.imp_right fun h => h _ (mem_of_get?_eq_some hform)
  split
  · rename_i hplain
    refine adds_ofForm (?_ : AddsRefs q (fun _ => False) _ _) form (hw.imp_right (Form.WellFormed.of_not_hasRef form (by simpa using hplain))) e htext he
    exact fun _ h _ _ _ _ => .throw _ (h.resolve_right id)
  refine Writes.bind (Q := Eq) (.ofSession fun a ha hi hstart => ?_) fun f =>
    adds_add (.inl htext) (by simp +contextual [he])
  split
  · exact Writes.pure (fun n hn => hn ▸ .inr (.inr (hi.2 name _ ‹_›))) a ha hstart
  · rename_i hnew
    cases rounds with
    | zero =>
      exact .bind (emits_onScope (.bind (emits_modifySession (.bind (emits_throw _
        (hi.1.fails_of_zero hrounds hform hnew))))))
    | succ rounds =>
      refine writes_define ha hstart (fun text => ?_) hw hform hnew
      exact ih rounds rounds.lt_succ_self (q := q.begin _ _ _) hd text (by simp [Terms.begin, hrounds])

theorem leaves_emitEntry {fails : Prop} (hw : fails ∨ schema.WellFormed) :
    Emits (emitEntry schema) ⟨.empty, [], .empty, []⟩
      (fun entry c _ => Leaves schema.definitions entry c.library) fails := by
  refine .bind (emits_onScope (.bind ((emits_written (fun _ => False)
    (kept ⟨fails, schema.definitions, [], schema.definitions.length⟩) (by decide) (by decide) (by decide)
    (adds_body (addsRefs_ofName (hw.imp_right (·.definitions))) (hw.imp_right (·.root)))
    Library.neat_empty ⟨covers_start fails _, by simp [named]⟩).mono ?_)))
  rintro _ c _ ⟨rfl, -, hw, -, b, g, hj, -, -, hfunctions⟩
  exact emits_pure (leaves_of_written (hw c.session) hj.1 hfunctions)

end Serializer
end TypeDefinition

/-- Whatever has been asked of a compiler, and for every parser and serializer of a type definition:
an entry function can be linked with live values, and what it is linked with, live or stored, is all
that it reaches and nothing besides. -/
theorem linked_closed_minimal :
    (∀ (o : Options) (requests : List Compiler.Request), (∀ r ∈ requests, r.Plain) → ∀ entry,
      ValueScope.LinksWell (Compiler.after o requests).functions
        (Compiler.after o requests).library.scope entry) ∧
    (∀ (options : TypeDefinition.Options) (schema : TypeDefinition.Schema) name library session,
      Gen.execute (TypeDefinition.Parser.emitEntry options schema) .empty ⟨[], .known 0⟩ =
        (.ok name, library, session) →
      ∀ entry, ValueScope.LinksWell library.functions library.scope entry) ∧
    ∀ (schema : TypeDefinition.Schema) name library session,
      Gen.execute (TypeDefinition.Serializer.emitEntry schema) .empty [] =
        (.ok name, library, session) →
      ∀ entry, ValueScope.LinksWell library.functions library.scope entry := by
  refine ⟨fun o requests hr => Compiler.linksWell_after o hr, ?_, ?_⟩
  · intro options schema name library session hx entry
    exact (TypeDefinition.Leaves.of_execute (TypeDefinition.Parser.leaves_emitEntry _ (.inl trivial))
      hx).links entry
  · intro schema name library session hx entry
    exact (TypeDefinition.Leaves.of_execute (TypeDefinition.Serializer.leaves_emitEntry (.inl trivial))
      hx).links entry

theorem Gen.exists_execute {α : Type} (x : Gen σ α) (library : Library) (session : σ)
    (h : (Gen.execute x library session).1.toBool = true) :
    ∃ r l s, Gen.execute x library session = (.ok r, l, s) := by
  rcases hx : Gen.execute x library session with ⟨e | r, l, s⟩
  · rw [hx] at h
    cases h
  · exact ⟨r, l, s, rfl⟩

/-- A schema of nested lists, and the parser and the serializer of chains. -/
theorem linked_closed_minimal_of_recursion :
    let requests : List Compiler.Request := [.schema (.object [("type", .string "array"),
      ("items", .object [("$ref", .string "#")])])]
    let schema : TypeDefinition.Schema :=
      ⟨[("chain", .properties [("tag", .type .string)] [("next", .ref "chain")] false)], .ref "chain"⟩
    (∀ entry, ValueScope.LinksWell (Compiler.after .standard requests).functions
      (Compiler.after .standard requests).library.scope entry) ∧
    (∃ name library session,
      Gen.execute (TypeDefinition.Parser.emitEntry .standard schema) .empty ⟨[], .known 0⟩ =
        (.ok name, library, session) ∧
      ValueScope.LinksWell library.functions library.scope name) ∧
    ∃ name library session, Gen.execute (TypeDefinition.Serializer.emitEntry schema) .empty [] =
        (.ok name, library, session) ∧
      ValueScope.LinksWell library.functions library.scope name := by
  intro requests schema
  obtain ⟨hcompiler, hparser, hserializer⟩ := linked_closed_minimal
  refine ⟨hcompiler .standard requests (by simp [requests, Compiler.Request.Plain]), ?_, ?_⟩
  · obtain ⟨name, library, session, hx⟩ := Gen.exists_execute
      (TypeDefinition.Parser.emitEntry .standard schema) .empty ⟨[], .known 0⟩ (by decide +kernel)
    exact ⟨name, library, session, hx, hparser _ _ _ _ _ hx name⟩
  · obtain ⟨name, library, session, hx⟩ := Gen.exists_execute
      (TypeDefinition.Serializer.emitEntry schema) .empty [] (by decide +kernel)
    exact ⟨name, library, session, hx, hserializer _ _ _ _ hx name⟩

end SchemaCompiler

import SchemaCompiler.Proofs.Emission
import SchemaCompiler.Proofs.Program.Uses

/-!
# The names of emitted code

Code that is emitted into a function uses its parameters, the names that were given inside it, and
names of the whole program; and what is given inside it is brought into being by its code. `Writes`
says so of an emission that succeeds, with one rule for each combinator. The names that it may use are
known before it runs, whatever the assembly: those of its context, and those of the results so far. A
function that is emitted as a whole thus uses its own names and such as the program has given, and of
these each is that of a value or a function.
-/
namespace SchemaCompiler

open Stmt (namesOfBlock boundOf)

variable {f : FunctionDef}

/-- A function uses its own names and such as counters have given, and its own names are not kept for
the whole program. -/
structure FunctionDef.Scoped (given : Counters) (f : FunctionDef) : Prop where
  uses : ∀ n, f.Uses n → n ∈ f.params ∨ n ∈ f.locals ∨ given.Given n
  free : ∀ n, n ∈ f.params ∨ n ∈ f.locals → ¬ n.Reserved

theorem FunctionDef.Scoped.mono {c d : Counters} (h : f.Scoped c) (hle : c ≤ d) : f.Scoped d :=
  ⟨fun n hn => (h.uses n hn).imp_right (Or.imp_right (·.mono hle)), h.free⟩

namespace Library

variable {l : Library} {stem : Stem}

def Has (l : Library) (n : Name) : Prop :=
  n ∈ l.functions.map Prod.fst ∨ n ∈ l.scope.entries.map ValueScope.Entry.name

/-- The values of a program are routines, its names are kept, and its functions are scoped. -/
structure Neat (l : Library) : Prop where
  tidy : l.Tidy
  nodup : (l.functions.map Prod.fst).Nodup
  reserved : ∀ n, l.scope.names.Given n → n.Reserved
  inScope : ∀ f ∈ l.functions, f.2.Scoped l.scope.names

theorem neat_empty : Library.empty.Neat where
  tidy := tidy_empty
  nodup := List.nodup_nil
  reserved := by
    rintro n ⟨stem, k, -, hk⟩
    simp [Library.empty, ValueScope.empty] at hk
  inScope := by simp [Library.empty]

theorem Neat.fresh (h : l.Neat) (hs : stem.isReserved = true) :
    Neat { l with scope := (l.scope.fresh stem).2 } where
  tidy := (l.grows_fresh stem).tidy h.tidy
  nodup := h.nodup
  reserved := fun n hn => by
    rcases Counters.given_of_next hn with hn | rfl
    · exact h.reserved n hn
    · exact ⟨stem, _, hs, rfl⟩
  inScope := fun f hf => (h.inScope f hf).mono (l.scope.names.le_next _)

theorem Neat.withRoutine (h : l.Neat) (routine : Primitive) : (l.withRoutine routine).Neat :=
  have hfresh := @Neat.fresh l Gen.routineStem h (by decide)
  ⟨(l.grows_routine routine).tidy h.tidy, h.nodup, hfresh.reserved, hfresh.inScope⟩

theorem Neat.function (h : l.Neat) {n : Name} {k : Nat} (hn : n = stem.name k)
    (hk : k < l.scope.names.count stem.text) (hne : stem ≠ Gen.routineStem)
    (hf : f.Scoped l.scope.names) : Neat { l with functions := Assoc.insert n f l.functions } where
  tidy := ⟨h.tidy.routines, h.tidy.distinct, fun m g hg => by
    by_cases hm : m = n
    · exact ⟨stem, k, hm.trans hn, hk, hne⟩
    · rw [Assoc.get?_insert_of_ne hm] at hg
      exact h.tidy.functions m g hg⟩
  nodup := Assoc.nodup_insert h.nodup n f
  reserved := h.reserved
  inScope := fun g hg => by
    rcases Assoc.mem_insert hg with hg | rfl
    · exact h.inScope g hg
    · exact hf

end Library

section Written

variable {σ : Type} {K L : Name → Prop} {a b c : Assembly σ} {code code' : List Stmt} {n : Name}

/-- A name that code may use: one of a context, or one that was given, inside the function or by the
program. -/
def Assembly.Usable (K : Name → Prop) (a : Assembly σ) (n : Name) : Prop :=
  K n ∨ a.names.Given n ∨ a.library.scope.names.Given n

/-- More names have been given. -/
structure Assembly.Later (a b : Assembly σ) : Prop where
  names : a.names ≤ b.names
  given : a.library.scope.names ≤ b.library.scope.names

theorem Assembly.Later.refl (a : Assembly σ) : a.Later a :=
  ⟨le_rfl, le_rfl⟩

theorem Assembly.Later.trans (h : a.Later b) (h' : b.Later c) : a.Later c :=
  ⟨le_trans h.names h'.names, le_trans h.given h'.given⟩

theorem Assembly.Usable.within (h : a.Usable K n) (hl : a.Later b) (hk : ∀ n, K n → b.Usable L n) :
    b.Usable L n :=
  h.elim (hk n) fun h => .inr (h.imp (·.mono hl.names) (·.mono hl.given))

theorem Assembly.Usable.later (h : a.Usable K n) (hl : a.Later b) : b.Usable K n :=
  h.within hl fun _ => .inl

/-- What an assembly has become by writing code. -/
structure Assembly.Written (K : Name → Prop) (a b : Assembly σ) (code : List Stmt) : Prop
    extends a.Later b where
  has : ∀ n, a.library.Has n → b.library.Has n
  /-- A new name of the program is that of a value or a function. -/
  new : ∀ n, b.library.scope.names.Given n → a.library.scope.names.Given n ∨ b.library.Has n
  neat : b.library.Neat
  uses : ∀ n ∈ namesOfBlock code, b.Usable K n
  /-- What is given inside the function is brought into being. -/
  binds : ∀ n, b.names.Given n → a.names.Given n ∨ n ∈ boundOf code
  free : ∀ n ∈ boundOf code, ¬ n.Reserved

namespace Assembly.Written

theorem within (h : a.Written K b code) (hk : ∀ n, K n → b.Usable L n) : a.Written L b code :=
  { h with uses := fun n hn => (h.uses n hn).within (.refl b) hk }

theorem refl (h : a.library.Neat) : a.Written K a [] where
  toLater := .refl a
  has := fun _ => id
  new := fun _ => .inl
  neat := h
  uses := by simp [namesOfBlock]
  binds := fun _ => .inl
  free := by simp [boundOf]

theorem trans (h : a.Written K b code) (h' : b.Written K c code') :
    a.Written K c (code ++ code') where
  toLater := h.toLater.trans h'.toLater
  has := fun n hn => h'.has n (h.has n hn)
  new := fun n hn => by
    rcases h'.new n hn with hn | hn
    · exact (h.new n hn).imp_right (h'.has n)
    · exact .inr hn
  neat := h'.neat
  uses := fun n hn => by
    rcases List.mem_append.1 (Stmt.namesOfBlock_append _ _ ▸ hn) with hn | hn
    · exact (h.uses n hn).later h'.toLater
    · exact h'.uses n hn
  binds := fun n hn => by
    rw [Stmt.boundOf_append, List.mem_append]
    rcases h'.binds n hn with hn | hn
    · exact (h.binds n hn).imp_right .inl
    · exact .inr (.inr hn)
  free := fun n hn => by
    rcases List.mem_append.1 (Stmt.boundOf_append _ _ ▸ hn) with hn | hn
    · exact h.free n hn
    · exact h'.free n hn

theorem wrap (h : a.Written K b code) (hn : ∀ n ∈ namesOfBlock code', K n ∨ n ∈ namesOfBlock code)
    (hb : ∀ n, n ∈ boundOf code' ↔ n ∈ boundOf code) : a.Written K b code' :=
  { h with
    uses := fun n hmem => (hn n hmem).elim .inl (h.uses n)
    binds := fun n hmem => (h.binds n hmem).imp_right (hb n).2
    free := fun n hmem => h.free n ((hb n).1 hmem) }

/-- A name is given inside a function, and code that brings it into being is written. -/
theorem bind_local (stem : LocalStem)
    (h : Assembly.Written (fun n => K n ∨ (a.names.next stem.toStem).1 = n)
      { a with names := (a.names.next stem.toStem).2 } b code)
    (hn : ∀ n ∈ namesOfBlock code', K n ∨ (a.names.next stem.toStem).1 = n ∨ n ∈ namesOfBlock code)
    (hb : ∀ n, n ∈ boundOf code' ↔ n = (a.names.next stem.toStem).1 ∨ n ∈ boundOf code) :
    a.Written K b code' where
  names := le_trans (a.names.le_next _) h.names
  given := h.given
  has := h.has
  new := h.new
  neat := h.neat
  uses := fun n hmem => by
    have hgiven : b.Usable K (a.names.next stem.toStem).1 :=
      .inr (.inl ((a.names.given_next stem.toStem).mono h.names))
    rcases hn n hmem with hmem | rfl | hmem
    · exact .inl hmem
    · exact hgiven
    · exact (h.uses n hmem).within (.refl b) fun m hm => hm.elim .inl fun heq => heq ▸ hgiven
  binds := fun n hmem => by
    rcases h.binds n hmem with hmem | hmem
    · exact (Counters.given_of_next hmem).imp_right fun heq => (hb n).2 (.inl heq)
    · exact .inr ((hb n).2 (.inr hmem))
  free := fun n hmem => by
    rcases (hb n).1 hmem with rfl | hmem
    · exact Name.not_reserved_of_local stem _
    · exact h.free n hmem

theorem branch {e : Expr} (he : ∀ n ∈ e.names, K n) (h : a.Written K b code)
    (h' : b.Written K c code') : a.Written K c [.branch e code code'] := by
  refine (h.trans h').wrap (fun n hn => ?_) fun n => ?_
  · rw [Stmt.namesOfBlock_append, List.mem_append]
    simp only [namesOfBlock, Stmt.names, List.append_nil, List.mem_append, or_assoc] at hn
    exact hn.imp_left (he n)
  · simp [boundOf, Stmt.bound, Stmt.boundOf_append]

end Assembly.Written

/-- What emissions keep besides: it depends on what is usable, and stays when more is. They may fail
only where `fails` holds. -/
structure Kept (σ : Type) where
  fails : Prop
  Holds : (Name → Prop) → Assembly σ → Prop
  within : ∀ {K L : Name → Prop} {a b : Assembly σ}, a.Later b → b.session = a.session →
    b.library.functions = a.library.functions → (∀ n, K n → b.Usable L n) → Holds K a → Holds L b

end Written

namespace Gen

variable {σ α β : Type} {K : Name → Prop} {I : Kept σ} {a b : Assembly σ} {f n : Name} {e c : Expr}
  {stem : LocalStem} {out otherwise : List Stmt} {parts : List (Expr × List Stmt)}
  {params : List Name} {isAsync : Bool} {body yes : Gen σ Unit} {start : σ}

/-- What an emission does from an assembly, in a context of names that it may use: it writes code,
keeps what is to be kept, and the names of its result can be used behind it. -/
def WritesFrom (I : Kept σ) (K : Name → Prop) (a : Assembly σ) (x : Gen σ α) (Q : α → Name → Prop) :
    Prop :=
  Emits x a (fun r b code => a.Written K b code ∧ I.Holds K b ∧ ∀ n, Q r n → b.Usable K n) I.fails

def Writes (I : Kept σ) (K : Name → Prop) (x : Gen σ α) (Q : α → Name → Prop) : Prop :=
  ∀ a : Assembly σ, a.library.Neat → I.Holds K a → WritesFrom I K a x Q

abbrev Adds (I : Kept σ) (K : Name → Prop) (x : Gen σ Unit) : Prop := Writes I K x fun _ _ => False

variable {x : Gen σ α} {Q : α → Name → Prop} {g : α → Gen σ β} {R : β → Name → Prop}
  {L : α → Name → Prop}

/-- What follows may use a part of the names of the result. -/
theorem WritesFrom.bind_of (h : WritesFrom I K a x Q)
    (hK : ∀ r n, K n → L r n) (hL : ∀ r n, L r n → K n ∨ Q r n)
    (hf : ∀ r, Writes I (L r) (g r) R) : WritesFrom I K a (x >>= g) R := by
  refine .bind (h.mono fun r b code ⟨hw, hi, hQ⟩ => ?_)
  have hstart := I.within (.refl b) rfl rfl (fun n hn => .inl (hK r n hn)) hi
  refine (hf r b hw.neat hstart).mono fun r' c code' ⟨hw', hi, hR⟩ => ?_
  have hback : ∀ n, L r n → c.Usable K n := fun n hn =>
    (hL r n hn).elim .inl fun hn => (hQ n hn).later hw'.toLater
  exact ⟨hw.trans (hw'.within hback), I.within (.refl c) rfl rfl hback hi,
    fun n hn => (hR n hn).within (.refl c) hback⟩

namespace Writes

variable {f : σ → Gen σ α}

theorem pure {r : α} (h : ∀ n, Q r n → K n) : Writes I K (pure r : Gen σ α) Q :=
  fun _ ha hi => emits_pure ⟨.refl ha, hi, fun n hn => .inl (h n hn)⟩

theorem throw (e : CompileError) (h : I.fails) : Writes I K (throw e : Gen σ α) Q :=
  fun _ _ _ => emits_throw e h

theorem bind_of (h : Writes I K x Q) (hK : ∀ r n, K n → L r n) (hL : ∀ r n, L r n → K n ∨ Q r n)
    (hg : ∀ r, Writes I (L r) (g r) R) : Writes I K (x >>= g) R :=
  fun a ha hi => (h a ha hi).bind_of hK hL hg

theorem bind (h : Writes I K x Q) (hg : ∀ r, Writes I (fun n => K n ∨ Q r n) (g r) R) :
    Writes I K (x >>= g) R :=
  h.bind_of (fun _ _ => .inl) (fun _ _ => id) hg

theorem followed {y : Gen σ β} (h : Writes I K x Q) (hy : Writes I K y R) :
    Writes I K (x >>= fun _ => y) R :=
  h.bind_of (fun _ _ => id) (fun _ _ => .inl) fun _ => hy

/-- Whatever can be used where the session is looked at may be used from there on. -/
theorem ofSession (h : ∀ a, a.library.Neat → I.Holds K a → I.Holds (a.Usable K) a →
      WritesFrom I (a.Usable K) a (f a.session) Q) : Writes I K (session >>= f) Q := by
  refine fun a ha hi => .bind (emits_session ?_)
  have hstart : I.Holds (a.Usable K) a := I.within (.refl a) rfl rfl (fun _ hn => .inl (.inl hn)) hi
  refine (h a ha hi hstart).mono fun r b code ⟨hw, hi, hQ⟩ => ?_
  have hback : ∀ n, a.Usable K n → b.Usable K n := fun n hn => hn.later hw.toLater
  exact ⟨hw.within hback, I.within (.refl b) rfl rfl hback hi,
    fun n hn => (hQ n hn).within (.refl b) hback⟩

theorem onSession
    (h : ∀ a, I.Holds K a → Writes I (a.Usable K) (f a.session) Q) : Writes I K (session >>= f) Q :=
  ofSession fun a ha hi => h a hi a ha

end Writes

/-! ## Statements -/

theorem adds_emit {st : Stmt} (hu : ∀ n ∈ st.names, K n) (hb : st.bound = []) :
    Adds I K (emit st) := by
  refine fun a ha hi => emits_emit ⟨(Assembly.Written.refl ha).wrap (fun n hn => ?_) ?_, hi,
    fun _ => False.elim⟩
  · exact .inl (hu n (by simpa [namesOfBlock] using hn))
  · simp [boundOf, hb]

theorem adds_assign (hn : K n) (he : ∀ m ∈ e.names, K m) : Adds I K (assign n e) :=
  adds_emit (by simpa [Stmt.names] using ⟨hn, he⟩) rfl

theorem adds_add (hn : K n) (he : ∀ m ∈ e.names, K m) : Adds I K (add n e) := by
  refine adds_assign hn fun m hm => ?_
  rcases Expr.mem_names_plus hm with hm | hm
  · obtain rfl := List.mem_singleton.1 hm
    exact hn
  · exact he m hm

theorem adds_modifySession {f : σ → σ}
    (hi : ∀ a, I.Holds K a → I.Holds K { a with session := f a.session }) :
    Adds I K (modifySession f) := by
  refine fun a ha hia => emits_modifySession ⟨?_, hi a hia, fun _ => False.elim⟩
  exact ⟨⟨le_rfl, le_rfl⟩, fun _ => id, fun _ => .inl, ha,
    by simp [namesOfBlock], fun _ => .inl, by simp [boundOf]⟩

theorem later_next (a : Assembly σ) (stem : LocalStem) :
    a.Later { a with names := (a.names.next stem.toStem).2 } :=
  ⟨a.names.le_next _, le_rfl⟩

theorem writes_declared (isConstant : Bool) (he : ∀ n ∈ e.names, K n) : Writes I K (do
      let n ← fresh stem
      emit (.declare n (some e) isConstant)
      return n) Eq := by
  refine fun a ha hi => .bind (emits_next (.bind (emits_emit (emits_pure ⟨.bind_local stem (.refl ha)
    (fun n hn => ?_) ?_, I.within (later_next a stem) rfl rfl (fun _ => .inl) hi, ?_⟩))))
  · simp only [List.nil_append, namesOfBlock, Stmt.names, List.append_nil, List.mem_cons] at hn
    rcases hn with rfl | hn
    · exact .inr (.inl rfl)
    · exact .inl (he n hn)
  · simp [boundOf, Stmt.bound]
  · rintro n rfl
    exact .inr (.inl (a.names.given_next stem.toStem))

theorem writes_declare (he : ∀ n ∈ e.names, K n) : Writes I K (declare stem e) Eq :=
  writes_declared false he

theorem writes_constant (he : ∀ n ∈ e.names, K n) : Writes I K (constant stem e) Eq :=
  writes_declared true he

theorem writes_primitive (routine : Primitive) : Writes I K (primitive routine) Eq := by
  refine fun a ha hi => emits_routine (fun e he _ => ?_) ?_
  · obtain ⟨routine', k, rfl, hk⟩ := ha.tidy.routines e he
    exact ⟨.refl ha, hi, fun n hn => hn ▸ .inr (.inr ⟨routineStem, k, rfl, hk⟩)⟩
  · have hlater : a.Later { a with library := a.library.withRoutine routine } :=
      ⟨le_rfl, a.library.scope.names.le_next _⟩
    have hgiven := a.library.scope.names.given_next routineStem
    refine ⟨⟨hlater, fun n hn => hn.imp_right fun hn => ?_, fun n hn => ?_, ha.withRoutine routine,
      by simp [namesOfBlock], fun _ => .inl, by simp [boundOf]⟩,
      I.within hlater rfl rfl (fun _ => .inl) hi, fun n hn => hn ▸ .inr (.inr hgiven)⟩
    · simp only [Library.withRoutine, List.map_append, List.mem_append]
      exact .inl hn
    · refine (Counters.given_of_next hn).imp_right fun heq => .inr ?_
      simp only [Library.withRoutine, List.map_append, List.mem_append]
      exact .inr (heq ▸ List.mem_singleton_self _)

/-! ## Constructs -/

/-- A construct with one part. -/
theorem adds_wrapped (construct : List Stmt → Stmt) (head : List Name)
    (hnames : ∀ code, ∀ n ∈ (construct code).names, n ∈ head ∨ n ∈ namesOfBlock code)
    (hbound : ∀ code, (construct code).bound = boundOf code) (hhead : ∀ n ∈ head, K n)
    (h : Adds I K body) :
    Adds I K (do
      let (_, code) ← Gen.inside body
      emit (construct code)) := by
  refine fun a ha hi => .bind (emits_inside ((h a ha hi).mono fun _ b code hb => ?_))
  refine emits_emit ⟨hb.1.wrap (fun n hn => ?_) fun n => ?_, hb.2⟩
  · simp only [List.nil_append, namesOfBlock, List.append_nil] at hn
    exact (hnames code n hn).imp_left (hhead n)
  · simp [boundOf, hbound]

theorem adds_ifThen (hc : ∀ n ∈ c.names, K n) (hy : Adds I K yes) : Adds I K (ifThen c yes) :=
  adds_wrapped (fun code => .branch c code []) c.names
    (fun code n hn => by simpa [Stmt.names, namesOfBlock] using hn)
    (fun code => by simp [Stmt.bound, boundOf]) hc hy

theorem adds_loop (h : Adds I K body) : Adds I K (loop body) :=
  adds_wrapped .loop [] (fun code n hn => .inr (by simpa [Stmt.names] using hn))
    (fun code => by simp [Stmt.bound]) (by simp) h

theorem adds_ifElse {no : Gen σ Unit} (hc : ∀ n ∈ c.names, K n) (hy : Adds I K yes)
    (hn : Adds I K no) : Adds I K (ifElse c yes no) :=
  fun a ha hi => emits_ifElse ((hy a ha hi).mono fun _ b _ ⟨hw, hi, _⟩ =>
    (hn b hw.neat hi).mono fun _ _ _ ⟨hw', hi⟩ => ⟨.branch hc hw hw', hi⟩)

theorem adds_choose {cases : List (Expr × Gen σ Unit)} {otherwise : Gen σ Unit}
    (h : ∀ p ∈ cases, (∀ n ∈ p.1.names, K n) ∧ Adds I K p.2) (ho : Adds I K otherwise) :
    Adds I K (choose cases otherwise) := by
  have hadds : ∀ {x}, Adds I K x → ∀ b : Assembly σ, b.library.Neat ∧ I.Holds K b →
      Emits x b (fun _ b' code => (b'.library.Neat ∧ I.Holds K b') ∧ b.Written K b' code) I.fails :=
    fun hx b hb => (hx b hb.1 hb.2).mono fun _ _ _ ⟨hw, hi, _⟩ => ⟨⟨hw.neat, hi⟩, hw⟩
  refine fun a ha hi => emits_choose ((emitsArms_of ⟨ha, hi⟩ (fun p hp => hadds (h p hp).2)
    (fun p hp _ _ _ _ _ => .branch (h p hp).1) (hadds ho)).mono fun _ _ ⟨⟨_, hi⟩, hw⟩ => ?_)
  exact ⟨hw, hi, fun _ => False.elim⟩

theorem adds_around {body : Name → Gen σ Unit} (construct : Name → List Stmt → Stmt)
    (head : List Name)
    (hnames : ∀ n code, (construct n code).names = n :: (head ++ namesOfBlock code))
    (hbound : ∀ n code, (construct n code).bound = n :: boundOf code) (hhead : ∀ n ∈ head, K n)
    (h : ∀ n, Adds I (fun m => K m ∨ n = m) (body n)) : Adds I K (do
      let n ← fresh stem
      let (_, code) ← inside (body n)
      emit (construct n code)) := by
  intro a ha hi
  refine .bind (emits_next (.bind (emits_inside (Emits.mono (h _ _ ha
    (I.within (later_next a stem) rfl rfl (fun _ hn => .inl (.inl hn)) hi)) fun _ b code hb => ?_))))
  obtain ⟨hw, hi, -⟩ := hb
  have hback : ∀ m, K m ∨ (a.names.next stem.toStem).1 = m → b.Usable K m := fun m hm =>
    hm.elim .inl fun heq => heq ▸ .inr (.inl ((a.names.given_next stem.toStem).mono hw.names))
  refine emits_emit ⟨.bind_local stem hw (fun n hn => ?_) fun n => ?_,
    I.within (.refl b) rfl rfl hback hi, fun _ => False.elim⟩
  · simp only [List.nil_append, namesOfBlock, hnames, List.append_nil, List.mem_cons,
      List.mem_append] at hn
    rcases hn with rfl | hn | hn
    · exact .inr (.inl rfl)
    · exact .inl (hhead n hn)
    · exact .inr (.inr hn)
  · simp [boundOf, hbound]

/-! ## Whole functions -/

theorem written_function {stem : Stem} (hf : f = (a.library.scope.fresh stem).1)
    (hne : stem ≠ routineStem) (hparams : ∀ n ∈ params, ¬ n.Reserved) {code : List Stmt}
    (h : Assembly.Written (· ∈ params) { a with names := .empty, session := start, library :=
      { a.library with scope := (a.library.scope.fresh stem).2 } } b code)
    (session : σ) :
    a.Written K { b with names := a.names, session := session, library := { b.library with
      functions := Assoc.insert f ⟨f, params, code, isAsync⟩ b.library.functions } } [] := by
  have hle : a.library.scope.names ≤ b.library.scope.names :=
    le_trans (a.library.scope.names.le_next stem) h.given
  have hkeys : ∀ n, b.library.Has n ∨ n = f → Library.Has { b.library with
      functions := Assoc.insert f ⟨f, params, code, isAsync⟩ b.library.functions } n := by
    intro n hn
    simp only [Library.Has, Assoc.mem_keys_insert]
    rcases hn with (hn | hn) | hn
    · exact .inl (.inl hn)
    · exact .inr hn
    · exact .inl (.inr hn)
  have hscoped : FunctionDef.Scoped b.library.scope.names ⟨f, params, code, isAsync⟩ := by
    refine ⟨fun n hn => ?_, fun n hn => hn.elim (hparams n) (h.free n)⟩
    rcases h.uses n (FunctionDef.uses_iff.1 hn) with hn | hn | hn
    · exact .inl hn
    · rcases h.binds n hn with ⟨s, k, -, hk⟩ | hn
      · simp at hk
      · exact .inr (.inl hn)
    · exact .inr (.inr hn)
  have hcount : a.library.scope.names.count stem.text < b.library.scope.names.count stem.text := by
    have := h.given stem.text
    have hnext := Counters.count_next_self a.library.scope.names stem
    exact Nat.lt_of_lt_of_le (Nat.lt_of_lt_of_eq (Nat.lt_succ_self _) hnext.symm) this
  refine ⟨⟨le_rfl, hle⟩, fun n hn => hkeys n (.inl (h.has n hn)), fun n hn => ?_,
    h.neat.function hf hcount hne hscoped, by simp [namesOfBlock], fun _ => .inl, by simp [boundOf]⟩
  rcases h.new n hn with hn | hn
  · exact (Counters.given_of_next hn).imp_right fun heq => hkeys n (.inr (heq.trans hf.symm))
  · exact .inr (hkeys n (.inl hn))

/-- The program when a name has just been given, and something else is kept besides. -/
def named (a : Assembly σ) (stem : Stem) (session : σ) : Assembly σ :=
  { a with
    library := { a.library with scope := (a.library.scope.fresh stem).2 }
    session := session }

/-- A function is emitted under a new name. `J` is kept inside of it, where the session is another. -/
theorem emits_written (K : Name → Prop) (J : Kept σ) {stem : Stem}
    (hs : stem.isReserved = true) (hne : stem ≠ routineStem)
    (hparams : ∀ n ∈ params, endsInDigit n.text = false) (hbody : Adds J (· ∈ params) body)
    (ha : a.library.Neat)
    (hstart : J.Holds (· ∈ params) { named a stem start with names := .empty }) :
    Emits (function (a.library.scope.fresh stem).1 params false body) (named a stem start)
      (fun _ c code => code = [] ∧ c.names = a.names ∧ (∀ t, a.Written K { c with session := t } []) ∧
        (named a stem start).library.scope.names ≤ c.library.scope.names ∧
        ∃ b f, J.Holds (· ∈ params) b ∧ c.session = b.session ∧ c.library.scope = b.library.scope ∧
          c.library.functions =
            Assoc.insert (a.library.scope.fresh stem).1 f b.library.functions) J.fails := by
  refine emits_function ((hbody _ (ha.fresh hs) hstart).mono fun _ b code ⟨hw, hj, _⟩ => ?_)
  refine ⟨rfl, rfl, fun t => ?_, hw.given, b, _, hj, rfl, rfl, rfl⟩
  exact written_function (a := a) rfl hne
    (fun n hn => Name.not_reserved_of_undigited (hparams n hn)) hw t

end Gen
end SchemaCompiler

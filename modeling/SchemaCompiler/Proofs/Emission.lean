import SchemaCompiler.Emission
import SchemaCompiler.Proofs.Assoc
import SchemaCompiler.Proofs.Names
import SchemaCompiler.Proofs.Run

/-!
# What emissions emit

`Emits x a Q` says that the emission `x` succeeds from an assembly `a`, whatever has been emitted
before, and that its result, the assembly afterwards and the statements it emits are as `Q` says.
Where it may fail, a last argument says when.
There is one rule for each combinator. What emissions do to the library of a program is told by
`Library.Grows`: values and functions are only ever added.
-/
namespace SchemaCompiler
namespace Gen

/-- What is said of the assembly behind an emission and of the statements it emits. -/
abbrev Post (σ : Type) := Assembly σ → List Stmt → Prop

variable {σ α β : Type} {a : Assembly σ} {x : Gen σ α} {r : α} {Q : α → Post σ} {fails : Prop}

/-- An emission succeeds, whatever was emitted before, and its result, the assembly afterwards and
what it emits are as said; or it fails where it may. -/
def Emits (x : Gen σ α) (a : Assembly σ) (Q : α → Post σ) (fails : Prop := False) : Prop :=
  ∀ out, (∃ r b code, ran x { a with out := out } = (.ok r, { b with out := out ++ code }) ∧
    Q r b code) ∨ fails ∧ ∃ e s, ran x { a with out := out } = (.error e, s)

theorem Emits.mono {Q' : α → Post σ} (h : Emits x a Q fails)
    (hq : ∀ r b code, Q r b code → Q' r b code) : Emits x a Q' fails := by
  intro out
  refine (h out).imp_left ?_
  rintro ⟨r, b, code, hr, hQ⟩
  exact ⟨r, b, code, hr, hq r b code hQ⟩

theorem Emits.bind {f : α → Gen σ β} {Q : β → Post σ} (h : Emits x a
      (fun r b code => Emits (f r) b (fun r' b' code' => Q r' b' (code ++ code')) fails) fails) :
    Emits (x >>= f) a Q fails := by
  intro out
  rw [ran_bind]
  rcases h out with ⟨r, b, code, hx, hf⟩ | ⟨hfails, e, s, hx⟩
  · rw [hx, follow_ok]
    refine (hf (out ++ code)).imp_left ?_
    rintro ⟨r', b', code', hr, hQ⟩
    exact ⟨r', b', code ++ code', by rw [hr, List.append_assoc], hQ⟩
  · exact .inr ⟨hfails, e, s, by rw [hx, follow_error]⟩

theorem emits_of_ran {b : Assembly σ} {code : List Stmt}
    (hr : ∀ out, ran x { a with out := out } = (.ok r, { b with out := out ++ code }))
    (h : Q r b code) : Emits x a Q fails :=
  fun out => .inl ⟨r, b, code, hr out, h⟩

theorem emits_throw (e : CompileError) (h : fails) : Emits (throw e) a Q fails :=
  fun _ => .inr ⟨h, e, _, rfl⟩

theorem emits_pure (h : Q r a []) : Emits (pure r) a Q fails :=
  emits_of_ran (fun out => by simp) h

theorem Emits.bind_pure {g : α → β} {Q : β → Post σ}
    (h : Emits x a (fun r b code => Q (g r) b code) fails) :
    Emits (x >>= fun r => pure (g r)) a Q fails :=
  .bind (h.mono fun r b code hQ => emits_pure (by simpa using hQ))

/-! ## Statements -/

section

variable {Q : Unit → Post σ} {N : Name → Post σ} {stem : LocalStem} {e : Expr}

theorem emits_emit {st : Stmt} (h : Q () a [st]) : Emits (emit st) a Q fails :=
  emits_of_ran (fun _ => rfl) h

theorem emits_assign {n : Name} (h : Q () a [.assign n e]) : Emits (assign n e) a Q fails :=
  emits_emit h

/-- What is known of a name that is given inside a function. -/
structure Fresh (a : Assembly σ) (n : Name) (b : Assembly σ) : Prop where
  not_old : ¬ a.names.Old n
  old : b.names.Old n
  names_le : a.names ≤ b.names
  library_eq : b.library = a.library
  session_eq : b.session = a.session

theorem emits_next
    (h : N (a.names.next stem.toStem).1 { a with names := (a.names.next stem.toStem).2 } []) :
    Emits (fresh stem) a N fails :=
  emits_of_ran (fun out => by rw [List.append_nil]; rfl) h

theorem emits_fresh (h : ∀ n b, Fresh a n b → N n b []) : Emits (fresh stem) a N fails :=
  emits_next (h _ _
    ⟨a.names.not_old_next stem, a.names.old_next stem, a.names.le_next stem.toStem, rfl, rfl⟩)

theorem emits_declare (h : ∀ n b, Fresh a n b → N n b [.declare n (some e) false]) :
    Emits (declare stem e) a N fails :=
  .bind (emits_fresh fun n b hn => .bind (emits_emit (emits_pure (h n b hn))))

theorem emits_constant (h : ∀ n b, Fresh a n b → N n b [.declare n (some e) true]) :
    Emits (constant stem e) a N fails :=
  .bind (emits_fresh fun n b hn => .bind (emits_emit (emits_pure (h n b hn))))

/-! ## What is kept besides -/

theorem emits_session {Q : σ → Post σ} (h : Q a.session a []) : Emits session a Q fails :=
  emits_of_ran (fun out => by simp [session]) h

theorem emits_setSession {t : σ} (h : Q () { a with session := t } []) :
    Emits (setSession t) a Q fails :=
  emits_of_ran (fun out => by simp [setSession]) h

theorem emits_modifySession {f : σ → σ} (h : Q () { a with session := f a.session } []) :
    Emits (modifySession f) a Q fails :=
  emits_of_ran (fun out => by simp [modifySession]) h

theorem emits_onScope {f : ValueScope → α × ValueScope} {Q : α → Post σ}
    (h : Q (f a.library.scope).1
      { a with library := { a.library with scope := (f a.library.scope).2 } } []) :
    Emits (onScope f) a Q fails :=
  emits_of_ran (fun out => by simp [onScope]) h

/-! ## Constructs -/

theorem emits_inside {body : Gen σ α} {Q : α × List Stmt → Post σ}
    (h : Emits body a (fun r b code => Q (r, code) b []) fails) : Emits (inside body) a Q fails := by
  intro out
  rcases h [] with ⟨r, b, code, hx, hQ⟩ | ⟨hfails, e, s, hx⟩
  · exact .inl ⟨(r, code), b, [], by simp [inside, ran_bind, hx], hQ⟩
  · exact .inr ⟨hfails, e, s, by simp [inside, ran_bind, hx]⟩

variable {c : Expr} {yes no otherwise body : Gen σ Unit} {cases : List (Expr × Gen σ Unit)}

theorem emits_ifThen (h : Emits yes a (fun _ b code => Q () b [.branch c code []]) fails) :
    Emits (ifThen c yes) a Q fails :=
  .bind (emits_inside (h.mono fun _ _ _ hQ => emits_emit hQ))

theorem emits_ifElse (h : Emits yes a (fun _ b code =>
      Emits no b (fun _ b' code' => Q () b' [.branch c code code']) fails) fails) :
    Emits (ifElse c yes no) a Q fails :=
  .bind (emits_inside (h.mono fun _ _ _ hno =>
    .bind (emits_inside (hno.mono fun _ _ _ hQ => emits_emit hQ))))

def EmitsArms (otherwise : Gen σ Unit) (cases : List (Expr × Gen σ Unit)) (a : Assembly σ)
    (Q : Post σ) (fails : Prop := False) : Prop :=
  match cases with
  | [] => Emits otherwise a (fun _ b code => Q b code) fails
  | (c, body) :: rest => Emits body a (fun _ b code =>
    EmitsArms otherwise rest b (fun b' code' => Q b' [.branch c code code']) fails) fails

theorem EmitsArms.mono {Q Q' : Post σ} (h : EmitsArms otherwise cases a Q fails)
    (hq : ∀ b code, Q b code → Q' b code) : EmitsArms otherwise cases a Q' fails := by
  induction cases generalizing a Q Q' with
  | nil => exact Emits.mono h fun _ => hq
  | cons arm rest ih => exact Emits.mono h fun _ b code hrest => ih hrest fun b' code' => hq b' _

theorem emits_arms {Q : Post σ} (h : EmitsArms otherwise cases a Q fails) :
    Emits (arms cases) a (fun parts b code => code = [] ∧
      Emits otherwise b (fun _ b' code' => Q b' (Frame.chain code' parts)) fails) fails := by
  induction cases generalizing a Q with
  | nil => exact emits_pure ⟨rfl, h⟩
  | cons arm rest ih =>
    refine .bind (emits_inside (Emits.mono h fun _ b code hrest => ?_))
    refine .bind ((ih hrest).mono fun parts b' code' hparts => ?_)
    exact emits_pure ⟨by simp [hparts.1], hparts.2⟩

theorem emits_choose (h : EmitsArms otherwise cases a (Q ()) fails) :
    Emits (choose cases otherwise) a Q fails := by
  cases cases with
  | nil => exact h
  | cons arm rest =>
    refine .bind ((emits_arms h).mono fun parts b code hparts => ?_)
    obtain ⟨rfl, hotherwise⟩ := hparts
    refine .bind (emits_inside (hotherwise.mono fun _ b' code' hQ => ?_))
    exact emits_of_ran (fun _ => rfl) (by simpa using hQ)

/-- What is true of the code of each arm, and of a branch with such code, is true of a choice. -/
theorem emitsArms_of {I : Assembly σ → Prop} {P : Assembly σ → Post σ} (ha : I a)
    (hcases : ∀ p ∈ cases, ∀ b, I b → Emits p.2 b (fun _ b' code => I b' ∧ P b b' code) fails)
    (hbranch : ∀ p ∈ cases, ∀ a b c code code', P a b code → P b c code' →
      P a c [.branch p.1 code code'])
    (ho : ∀ b, I b → Emits otherwise b (fun _ b' code => I b' ∧ P b b' code) fails) :
    EmitsArms otherwise cases a (fun b code => I b ∧ P a b code) fails := by
  induction cases generalizing a with
  | nil => exact ho a ha
  | cons arm rest ih =>
    refine (hcases arm (by simp) a ha).mono fun _ b code ⟨hb, hcode⟩ => ?_
    refine (ih hb (fun p hp => hcases p (by simp [hp])) fun p hp => hbranch p (by simp [hp])).mono
      fun b' code' hb' => ?_
    exact ⟨hb'.1, hbranch arm (by simp) a b b' code code' hcode hb'.2⟩

theorem emits_loop (h : Emits body a (fun _ b code => Q () b [.loop code]) fails) :
    Emits (loop body) a Q fails :=
  .bind (emits_inside (h.mono fun _ _ _ hQ => emits_emit hQ))

theorem emits_function {n : Name} {params : List Name} {isAsync : Bool}
    (h : Emits body { a with names := .empty } (fun _ b code =>
      Q () { b with names := a.names, library := { b.library with
        functions := Assoc.insert n ⟨n, params, code, isAsync⟩ b.library.functions } } []) fails) :
    Emits (function n params isAsync body) a Q fails := by
  intro out
  rcases h [] with ⟨r, b, code, hx, hQ⟩ | ⟨hfails, e, s, hx⟩
  · exact .inl ⟨(), _, [], by simp [function, ran_bind, hx], hQ⟩
  · exact .inr ⟨hfails, e, s, by simp [function, ran_bind, hx]⟩

end

end Gen

/-! ## The library of a program -/

namespace Library

def routineEntry (routine : Primitive) (k : Nat) : ValueScope.Entry :=
  ⟨Gen.routineStem.name k, some (Gen.routineStem.text, .key routine.path),
    some (.primitive routine), some (.imported routine.path)⟩

/-- The values of a program are primitive routines, and its functions have names of other stems. -/
structure Tidy (l : Library) : Prop where
  routines : ∀ e ∈ l.scope.entries, ∃ routine k,
    e = routineEntry routine k ∧ k < l.scope.names.count Gen.routineStem.text
  distinct : (l.scope.entries.map ValueScope.Entry.name).Nodup
  functions : ∀ n f, Assoc.get? n l.functions = some f →
    ∃ (stem : Stem) (k : Nat), n = stem.name k ∧ k < l.scope.names.count stem.text ∧
      stem ≠ Gen.routineStem

/-- What a library may become: values and functions are added, the latter under names that had not
been given. -/
structure Grows (l m : Library) : Prop where
  names_le : l.scope.names ≤ m.scope.names
  entries : l.scope.entries ⊆ m.scope.entries
  functions : ∀ n f, Assoc.get? n l.functions = some f → Assoc.get? n m.functions = some f
  new : ∀ n f, Assoc.get? n m.functions = some f →
    Assoc.get? n l.functions = some f ∨ ¬ l.scope.names.Given n
  tidy : l.Tidy → m.Tidy

theorem tidy_empty : Library.empty.Tidy :=
  ⟨by simp [Library.empty, ValueScope.empty], by simp [Library.empty, ValueScope.empty],
    by simp [Library.empty]⟩

namespace Grows

variable {l m n : Library}

theorem refl (l : Library) : l.Grows l :=
  ⟨le_rfl, List.Subset.refl _, fun _ _ h => h, fun _ _ h => .inl h, fun h => h⟩

theorem trans (h : l.Grows m) (h' : m.Grows n) : l.Grows n where
  names_le := le_trans h.names_le h'.names_le
  entries := fun e he => h'.entries (h.entries he)
  functions := fun k f hf => h'.functions k f (h.functions k f hf)
  new := fun k f hf => by
    rcases h'.new k f hf with hm | hm
    · exact h.new k f hm
    · exact .inr fun hk => hm (hk.mono h.names_le)
  tidy := fun ht => h'.tidy (h.tidy ht)

end Grows

def withRoutine (l : Library) (routine : Primitive) : Library :=
  { l with scope := { (l.scope.fresh Gen.routineStem).2 with
    entries := l.scope.entries ++
      [routineEntry routine (l.scope.names.count Gen.routineStem.text)] } }

theorem grows_fresh (l : Library) (stem : Stem) :
    l.Grows { l with scope := (l.scope.fresh stem).2 } := by
  have hle : l.scope.names ≤ (l.scope.fresh stem).2.names := Counters.le_next _ _
  refine ⟨hle, List.Subset.refl _, fun _ _ h => h, fun _ _ h => .inl h, fun ht => ⟨?_, ?_, ?_⟩⟩
  · intro e he
    obtain ⟨routine, k, he, hk⟩ := ht.routines e he
    exact ⟨routine, k, he, Nat.lt_of_lt_of_le hk (hle _)⟩
  · exact ht.distinct
  · intro n f hf
    obtain ⟨other, k, hn, hk, hne⟩ := ht.functions n f hf
    exact ⟨other, k, hn, Nat.lt_of_lt_of_le hk (hle _), hne⟩

theorem grows_routine (l : Library) (routine : Primitive) : l.Grows (l.withRoutine routine) := by
  refine ⟨Counters.le_next _ _, fun e he => List.mem_append_left _ he, fun _ _ h => h,
    fun _ _ h => .inl h, fun ht => ?_⟩
  have hfresh := (l.grows_fresh Gen.routineStem).tidy ht
  refine ⟨?_, ?_, hfresh.functions⟩
  · intro e he
    rcases List.mem_append.mp he with he | he
    · exact hfresh.routines e he
    · refine ⟨routine, _, List.mem_singleton.mp he, ?_⟩
      have hcount := Counters.count_next_self l.scope.names Gen.routineStem
      exact Nat.lt_of_lt_of_eq (Nat.lt_succ_self _) hcount.symm
  · simp only [withRoutine, List.map_append]
    refine Assoc.nodup_concat ht.distinct fun hn => ?_
    obtain ⟨e, he, heq⟩ := List.mem_map.mp hn
    obtain ⟨routine', k, rfl, hk⟩ := ht.routines e he
    obtain ⟨-, rfl⟩ := Stem.name_inj.1 heq
    exact Nat.lt_irrefl _ hk

theorem path_injective {r r' : Primitive} (h : r.path = r'.path) : r = r' := by
  cases r <;> cases r' <;> first | rfl | exact absurd h (by decide)

end Library

namespace Gen

variable {σ : Type} {a : Assembly σ} {fails : Prop}

/-- A routine is held under a name, and everything else stays. -/
structure Holds (a : Assembly σ) (routine : Primitive) (n : Name) (b : Assembly σ) : Prop where
  held : ∃ k, n = routineStem.name k ∧ Library.routineEntry routine k ∈ b.library.scope.entries
  grows : a.library.Grows b.library
  names_eq : b.names = a.names
  session_eq : b.session = a.session

/-- A routine is one that is there already, or is put into the program under a new name. -/
theorem emits_routine {routine : Primitive} {Q : Name → Post σ}
    (hold : ∀ e ∈ a.library.scope.entries,
      e.recognition = some (routineStem.text, .key routine.path) → Q e.name a [])
    (hnew : Q (a.library.scope.fresh routineStem).1
      { a with library := a.library.withRoutine routine } []) :
    Emits (primitive routine) a Q fails := by
  show Emits (onScope (ValueScope.value routineStem _)) a Q fails
  refine emits_onScope ?_
  have hmark : (Descriptor.primitive routine).recognition.map (fun r => (routineStem.text, r)) =
      some _ := rfl
  cases hr : a.library.scope.recognise (some (routineStem.text, .key routine.path)) with
  | some e =>
    have hrec := List.find?_some hr
    simp only [ValueScope.value, hmark, hr]
    exact hold e (List.mem_of_find?_eq_some hr) (by simpa using hrec)
  | none =>
    simp only [ValueScope.value, hmark, hr]
    exact hnew

theorem emits_primitive (ha : a.library.Tidy) {routine : Primitive} {Q : Name → Post σ}
    (h : ∀ n b, Holds a routine n b → Q n b []) : Emits (primitive routine) a Q fails := by
  refine emits_routine (fun e he hrec => h _ _ ?_) (h _ _ ?_)
  · obtain ⟨routine', k, rfl, -⟩ := ha.routines e he
    obtain rfl : routine' = routine :=
      Library.path_injective (by simpa [Library.routineEntry] using hrec)
    exact ⟨⟨k, rfl, he⟩, .refl _, rfl, rfl⟩
  · exact ⟨⟨_, rfl, List.mem_append_right _ (List.mem_singleton.mpr rfl)⟩,
      a.library.grows_routine routine, rfl, rfl⟩

/-- A name of the program that has not been given before. -/
structure Named (a : Assembly σ) (stem : Stem) (n : Name) (b : Assembly σ) : Prop where
  not_given : ¬ a.library.scope.names.Given n
  name_eq : ∃ k, n = stem.name k ∧ k < b.library.scope.names.count stem.text
  grows : a.library.Grows b.library
  functions_eq : b.library.functions = a.library.functions
  names_eq : b.names = a.names
  session_eq : b.session = a.session

theorem emits_named {stem : Stem} {Q : Name → Post σ} (h : ∀ n b, Named a stem n b → Q n b []) :
    Emits (onScope (ValueScope.fresh stem)) a Q fails := by
  refine emits_onScope (h _ _ ?_)
  refine ⟨Counters.not_given_next _ _, ⟨_, rfl, ?_⟩, a.library.grows_fresh stem, rfl, rfl, rfl⟩
  have hcount := Counters.count_next_self a.library.scope.names stem
  exact Nat.lt_of_lt_of_eq (Nat.lt_succ_self _) hcount.symm

end Gen

theorem Library.grows_insert {l : Library} {n : Name} {stem : Stem} {k : Nat} (hn : n = stem.name k)
    (hk : k < l.scope.names.count stem.text) (hstem : stem ≠ Gen.routineStem)
    (f : FunctionDef) : (h : Assoc.get? n l.functions = none) →
    ∀ {base : Library}, base.Grows l → ¬ base.scope.names.Given n →
      base.Grows { l with functions := Assoc.insert n f l.functions } := by
  intro hnone base hb hgiven
  refine ⟨hb.names_le, hb.entries, ?_, ?_, fun ht => ⟨(hb.tidy ht).routines, (hb.tidy ht).distinct, ?_⟩⟩
  · intro m g hg
    have hl := hb.functions m g hg
    have hne : m ≠ n := by
      rintro rfl
      rw [hnone] at hl
      cases hl
    rw [Assoc.get?_insert_of_ne hne]
    exact hl
  · intro m g hg
    by_cases hm : m = n
    · exact .inr (hm ▸ hgiven)
    · rw [Assoc.get?_insert_of_ne hm] at hg
      exact hb.new m g hg
  · intro m g hg
    by_cases hm : m = n
    · exact ⟨stem, k, hm.trans hn, hk, hstem⟩
    · rw [Assoc.get?_insert_of_ne hm] at hg
      exact (hb.tidy ht).functions m g hg

end SchemaCompiler

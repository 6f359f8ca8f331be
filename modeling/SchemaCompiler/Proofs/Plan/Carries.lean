import SchemaCompiler.Proofs.Plan.Frame

/-!
# Code that does what a plan means

`Carries` relates what is found when a plan is carried out to what comes of running its code on the
machine. Here it is put together piece by piece, for the pieces that the code of plans is made of.
The one thing that code does and plans do not say is that the list of error records can be full.
-/
namespace SchemaCompiler

open Machine

variable {k : State → Except Abort Flow × State} {D' : List Name} {l' : Locals} {e : Expr}
  {next : Finding → Except Abort Finding}

def Machine.Abort.full : Abort := .fault (.outOfBounds recordLimit recordLimit)

def Mode.verdictValue : Json := .object [("validation", .bool true)]

def Mode.left (m : Mode) : Except Abort Flow :=
  if m.isAsync then .error (.thrown verdictValue) else .ok (.return (.bool false))

theorem Mode.ran_leaving (env : Env) (m : Mode) (rest : List Stmt) (s : State) :
    ran (execBlock env (m.leaving :: rest)) s = (m.left, s) := by
  cases hm : m.isAsync with
  | true => simp only [leaving, left, hm]; rfl
  | false => simp only [leaving, left, hm]; rfl

theorem Mode.follow_left (m : Mode) {k : Flow → State → Except Abort Flow × State}
    (hk : ∀ v s, k (.return v) s = (.ok (.return v), s)) (s : State) :
    follow k (m.left, s) = (m.left, s) := by
  cases hm : m.isAsync with
  | true => simp [left, hm]
  | false => simp [left, hm, hk]

@[simp] theorem Mode.left_part (composed : Bool) (m : Mode) : (m.part composed).left = m.left := rfl

/-- From error records `E` and variables `l`, a run does what was found: it adds the errors found,
ends as the finding does, agrees with it on the variables that can be read, and leaves the error
counts that are remembered as they are. The records that were there stay, however it ends. -/
inductive Carries (m : Mode) (reads marks : Name → Prop) (declared : List Name) (E : List Json)
    (l : Locals) : Except Abort Finding → Except Abort Flow × State → Prop
  | full (r : Except Abort Finding) {s : State} (stay : E <+: s.errors) :
    Carries m reads marks declared E l r (.error .full, s)
  | stops {a : Abort} (plain : a.Plain) {s : State} (stay : E <+: s.errors) :
    Carries m reads marks declared E l (.error a) (.error a, s)
  | onward {errors : List Json} {ρ l' : Locals} (room : (E ++ errors).length ≤ recordLimit)
    (agree : Agree (fun n => reads n ∨ n ∈ declared) l' ρ) (kept : Agree marks l' l) :
    Carries m reads marks declared E l (.ok ⟨errors, .onward, ρ⟩) (.ok .normal, ⟨E ++ errors, l'⟩)
  | loop {errors : List Json} {ρ l' : Locals} (room : (E ++ errors).length ≤ recordLimit)
    (agree : Agree reads l' ρ) (kept : Agree marks l' l) :
    Carries m reads marks declared E l (.ok ⟨errors, .loop, ρ⟩) (.ok .leave, ⟨E ++ errors, l'⟩)
  | function {errors : List Json} {ρ l' : Locals} (room : (E ++ errors).length ≤ recordLimit) :
    Carries m reads marks declared E l (.ok ⟨errors, .function, ρ⟩) (m.left, ⟨E ++ errors, l'⟩)

/-- What comes of calling a validating function from a state, when `r` are the errors that it finds:
one that is not asynchronous returns whether there are none, any other returns or throws. The error
records that were there stay, however it ends. -/
inductive Answers (isAsync : Bool) (s : State) :
    Except Abort (List Json) → Except Abort Json × State → Prop
  | full (r : Except Abort (List Json)) {t : State} (stay : s.errors <+: t.errors) :
    Answers isAsync s r (.error .full, t)
  | stops {a : Abort} (plain : a.Plain) {t : State} (stay : s.errors <+: t.errors) :
    Answers isAsync s (.error a) (.error a, t)
  | verdict {errors : List Json} (sync : isAsync = false)
    (room : (s.errors ++ errors).length ≤ recordLimit) :
    Answers isAsync s (.ok errors) (.ok (.bool errors.isEmpty), ⟨s.errors ++ errors, s.locals⟩)
  | returned (async : isAsync = true) (v : Json) : Answers isAsync s (.ok []) (.ok v, s)
  | thrown {errors : List Json} (async : isAsync = true) (found : errors ≠ [])
    (room : (s.errors ++ errors).length ≤ recordLimit) :
    Answers isAsync s (.ok errors)
      (.error (.thrown Mode.verdictValue), ⟨s.errors ++ errors, s.locals⟩)

section Expressions

variable {w : Setting} {env : Env} {R : Name → Prop} {l ρ : Locals}

theorem Setting.ran_eval (he : env.Holds w.values) (ha : Agree R l ρ) (h : e.Within R)
    (E : List Json) : ran (Machine.eval env e) ⟨E, l⟩ = (w.eval ρ e, ⟨E, l⟩) ∧
      ∀ a, w.eval ρ e = .error a → a.Plain := by
  obtain ⟨r, hr, hr', hplain⟩ := eval_alike (s := ⟨E, l⟩) (t := ⟨[], ρ⟩) he
    (silentEnv_holds he.inert) ha e h
  have hv : w.eval ρ e = r := by rw [eval, evalIn, hr']
  rw [hv]
  exact ⟨hr, hplain⟩

theorem Setting.ran_evalItems (he : env.Holds w.values) (ha : Agree R l ρ) {items : List Expr}
    (h : Expr.WithinItems R items) (E : List Json) :
    ran (Machine.evalItems env items) ⟨E, l⟩ = (w.evalItems ρ items, ⟨E, l⟩) ∧
      ∀ a, w.evalItems ρ items = .error a → a.Plain := by
  obtain ⟨r, hr, hr', hplain⟩ := evalItems_alike (s := ⟨E, l⟩) (t := ⟨[], ρ⟩) he
    (silentEnv_holds he.inert) ha items h
  have hv : w.evalItems ρ items = r := by rw [evalItems, hr']
  rw [hv]
  exact ⟨hr, hplain⟩

theorem Setting.ran_index (he : env.Holds w.values) (ha : Agree R l ρ)
    (h : e.Within R) (E : List Json) :
    ran (Machine.eval env e >>= fun v => checked (asIndex v)) ⟨E, l⟩ = (w.index ρ e, ⟨E, l⟩) ∧
      ∀ a, w.index ρ e = .error a → a.Plain := by
  obtain ⟨hr, hplain⟩ := Setting.ran_eval he ha h E
  rw [ran_bind, hr, index]
  cases hv : w.eval ρ e with
  | error a => exact ⟨rfl, by rintro _ ⟨⟩; exact hplain a hv⟩
  | ok v =>
    cases hi : asIndex v with
    | error fault =>
      refine ⟨by simp [ran_checked, bind, Except.bind], ?_⟩
      simp only [hi, bind, Except.bind]
      rintro _ ⟨⟩
      trivial
    | ok i =>
      refine ⟨by simp [ran_checked, bind, Except.bind], ?_⟩
      simp [hi, bind, Except.bind, Except.mapError]

end Expressions

namespace Carries

variable {w : Setting} {env : Env} {m : Mode} {R M : Name → Prop} {D : List Name} {E : List Json}
  {l ρ : Locals} {r : Except Abort Finding} {out : Except Abort Flow × State}

theorem weaken {R' M' : Name → Prop} (h : Carries m R M D E l r out)
    (hr : ∀ n, R' n → R n) (hm : ∀ n, M' n → M n) (hd : ∀ n ∈ D', R n ∨ n ∈ D) :
    Carries m R' M' D' E l r out := by
  cases h with
  | full r stay => exact .full r stay
  | stops plain stay => exact .stops plain stay
  | onward room agree kept =>
    exact .onward room (agree.mono fun n hn => hn.elim (fun h => .inl (hr n h)) (hd n))
      (kept.mono hm)
  | loop room agree kept => exact .loop room (agree.mono hr) (kept.mono hm)
  | function room => exact .function room

/-- What is done behind errors that have been added since `E` and variables that keep the counts. -/
theorem behind {errors : List Json}
    (h : Carries m R M D (E ++ errors) l' r out) (hk : Agree M l' l) :
    Carries m R M D E l (r.map (Finding.behind errors)) out := by
  have hgrows : E <+: E ++ errors := List.prefix_append _ _
  cases h with
  | full r stay => exact .full _ (hgrows.trans stay)
  | stops plain stay => exact .stops plain (hgrows.trans stay)
  | onward room agree kept =>
    rw [List.append_assoc] at room ⊢
    exact .onward room agree (kept.trans hk)
  | loop room agree kept =>
    rw [List.append_assoc] at room ⊢
    exact .loop room agree (kept.trans hk)
  | function room =>
    rw [List.append_assoc] at room ⊢
    exact .function room

/-- Statements that follow a part are reached where the part goes on. The part may have a mode, a
scope and error counts of its own. -/
theorem enclosed {m' : Mode} {R' M' : Name → Prop}
    (h : Carries m' R' M' D' E l' r out) (hleft : m'.left = m.left) (hr : ∀ n, R n → R' n)
    (hm : ∀ n, M n → M' n) (hk : Agree M l' l)
    (hon : ∀ errors ρ l'', r = .ok ⟨errors, .onward, ρ⟩ → (E ++ errors).length ≤ recordLimit →
      Agree (fun n => R' n ∨ n ∈ D') l'' ρ → Agree M' l'' l' →
        Carries m R M D E l (next ⟨errors, .onward, ρ⟩) (k ⟨E ++ errors, l''⟩))
    (hoff : ∀ f : Finding, f.exit ≠ .onward → next f = .ok f) :
    Carries m R M D E l (r >>= next) (SchemaCompiler.follow (onNormal k) out) := by
  cases h with
  | full r stay => exact .full _ stay
  | stops plain stay => exact .stops plain stay
  | onward room agree kept => exact hon _ _ _ rfl room agree kept
  | loop room agree kept =>
    simp only [bind, Except.bind]
    rw [hoff _ (by simp)]
    exact .loop room (agree.mono hr) ((kept.mono hm).trans hk)
  | function room =>
    simp only [bind, Except.bind]
    rw [hoff _ (by simp), hleft, Mode.follow_left m fun _ _ => rfl]
    exact .function room

theorem follow (h : Carries m R M D E l r out)
    (hon : ∀ errors ρ l', (E ++ errors).length ≤ recordLimit →
      Agree (fun n => R n ∨ n ∈ D) l' ρ → Agree M l' l →
        Carries m R M D' E l (next ⟨errors, .onward, ρ⟩) (k ⟨E ++ errors, l'⟩))
    (hoff : ∀ f : Finding, f.exit ≠ .onward → next f = .ok f) :
    Carries m R M D' E l (r >>= next) (SchemaCompiler.follow (onNormal k) out) :=
  h.enclosed rfl (fun _ => id) (fun _ => id) (Agree.refl _ _)
    (fun errors ρ l' _ => hon errors ρ l') hoff

theorem andThen {next : Locals → Except Abort Finding} (h : Carries m R M D E l r out)
    (hnext : ∀ errors ρ l', (E ++ errors).length ≤ recordLimit →
      Agree (fun n => R n ∨ n ∈ D) l' ρ → Agree M l' l →
        Carries m R M D' (E ++ errors) l' (next ρ) (k ⟨E ++ errors, l'⟩)) :
    Carries m R M D' E l (r >>= fun f => f.andThen next) (SchemaCompiler.follow (onNormal k) out) :=
  h.follow (fun errors ρ l' room agree kept => by
    exact (hnext errors ρ l' room agree kept).behind kept) fun _ hf => Finding.andThen_ended hf _

theorem clear (ha : Agree R l ρ) (hE : E.length ≤ recordLimit) :
    Carries m R M [] E l (.ok (.clear ρ)) (.ok .normal, ⟨E, l⟩) := by
  have h : Carries m R M [] E l (.ok (.clear ρ)) _ :=
    .onward (by simpa using hE) (ha.mono fun n hn => by simpa using hn) (Agree.refl _ _)
  simpa using h

theorem branch (he : env.Holds w.values) {S : Name → Prop} {F : List Json}
    (stay : E <+: F) (ha : Agree S l' ρ) {c : Expr} (hc : c.Within S) {yes no : Except Abort Finding}
    {Y N : List Stmt}
    (hy : w.test ρ c = .ok true → Carries m R M D E l yes (ran (execBlock env Y) ⟨F, l'⟩))
    (hn : w.test ρ c = .ok false → Carries m R M D E l no (ran (execBlock env N) ⟨F, l'⟩)) :
    Carries m R M D E l (do if ← w.test ρ c then yes else no)
      (ran (exec env (.branch c Y N)) ⟨F, l'⟩) := by
  obtain ⟨hr, hplain⟩ := Setting.ran_eval he ha hc F
  rw [ran_branch, hr]
  cases hv : w.eval ρ c with
  | error a =>
    simp only [Setting.test, hv]
    exact .stops (hplain a hv) stay
  | ok v =>
    have ht : w.test ρ c = .ok (truthy v) := by simp [Setting.test, hv, Except.map]
    rw [ht] at hy hn ⊢
    simp only [bind, Except.bind]
    cases htv : truthy v with
    | true => simpa [htv] using hy (by rw [htv])
    | false => simpa [htv] using hn (by rw [htv])

theorem leaving (room : E.length ≤ recordLimit) (ρ : Locals) (rest : List Stmt) :
    Carries m R M D E l (.ok ⟨[], .function, ρ⟩)
      (ran (execBlock env (m.leaving :: rest)) ⟨E, l⟩) := by
  have h : Carries m R M D E l (.ok ⟨[], .function, ρ⟩) (m.left, ⟨E ++ [], l⟩) :=
    .function (by simpa using room)
  rw [List.append_nil] at h
  rwa [Mode.ran_leaving]

theorem report (he : env.Holds w.values) (ha : Agree R l ρ) {record : Expr}
    (hr : record.Within R) (breaks : Bool) :
    Carries m R M [] E l (w.report m record breaks ρ)
      (ran (execBlock env (m.reporting record ++ if breaks then m.breaking else [])) ⟨E, l⟩) := by
  obtain ⟨hv, hplain⟩ := Setting.ran_eval he ha hr E
  rw [Mode.reporting, List.cons_append, ran_execBlock_cons, ran_addError, hv]
  cases hval : w.eval ρ record with
  | error a =>
    simp only [Setting.report, hval]
    exact .stops (hplain a hval) (List.prefix_refl _)
  | ok v =>
    simp only [follow_ok, Setting.report, hval, Mode.exitAfter]
    by_cases hroom : E.length < recordLimit
    · have room : (E ++ [v]).length ≤ recordLimit := by simpa using Nat.succ_le_of_lt hroom
      simp only [hroom]
      cases hf : m.failsFast with
      | true =>
        exact (leaving room ρ _).behind (Agree.refl M l)
      | false =>
        cases hb : breaks && !m.allErrors with
        | true =>
          obtain ⟨rfl, hall⟩ : breaks = true ∧ m.allErrors = false := by simpa using hb
          simp only [Mode.breaking, hall]
          exact .loop room ha (Agree.refl _ _)
        | false =>
          have hnil : (if breaks then m.breaking else []) = [] := by
            cases breaks <;> simp_all [Mode.breaking]
          simp only [hnil]
          exact .onward room (ha.mono fun n hn => by simpa using hn) (Agree.refl _ _)
    · simp only [hroom]
      exact .full _ (List.prefix_refl _)

end Carries
end SchemaCompiler

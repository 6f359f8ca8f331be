import SchemaCompiler.Proofs.Machine.Silent

/-!
# Quiet statements

Statements that work on variables only, with silent expressions. They leave the error records alone,
they change no variable that they do not name as a target, and from variables that agree on what
they read they come to variables that agree again.
-/
namespace SchemaCompiler

open Machine

namespace Stmt

def declared : Stmt → List Name
  | .declare n _ _ => [n]
  | _ => []

def declaredOf (stmts : List Stmt) : List Name := stmts.flatMap declared

mutual
def Quiet (R : Name → Prop) : Stmt → Prop
  | .declare _ none _ => True
  | .declare _ (some e) _ => e.Within R
  | .assign n e => R n ∧ e.Within R
  | .branch condition yes no => condition.Within R ∧ QuietBlock R yes ∧ QuietBlock R no
  | .forRange var start stop body =>
    start.Within R ∧ stop.Within R ∧ QuietBlock (fun n => R n ∨ n = var) body
  | .forKeys var object body => object.Within R ∧ QuietBlock (fun n => R n ∨ n = var) body
  | .forEach var iterable body => iterable.Within R ∧ QuietBlock (fun n => R n ∨ n = var) body
  | .leave => True
  | _ => False

def QuietBlock (R : Name → Prop) : List Stmt → Prop
  | [] => True
  | s :: rest => Quiet R s ∧ QuietBlock (fun n => R n ∨ n ∈ declared s) rest
end

mutual
def targets : Stmt → List Name
  | .declare n _ _ => [n]
  | .assign n _ => [n]
  | .branch _ yes no => targetsOf yes ++ targetsOf no
  | .forRange var _ _ body => var :: targetsOf body
  | .forKeys var _ body => var :: targetsOf body
  | .forEach var _ body => var :: targetsOf body
  | _ => []

def targetsOf : List Stmt → List Name
  | [] => []
  | s :: rest => targets s ++ targetsOf rest
end

mutual
def leaves : Stmt → Bool
  | .leave => true
  | .branch _ yes no => leavesOf yes || leavesOf no
  | _ => false

def leavesOf : List Stmt → Bool
  | [] => false
  | s :: rest => leaves s || leavesOf rest
end

end Stmt

namespace Machine

/-! ## Relations along quiet statements -/

def agreedAfter (R : Name → Prop) (declared : List Name) : Flow → Name → Prop
  | .normal => fun n => R n ∨ n ∈ declared
  | _ => R

theorem agreedAfter_of {R : Name → Prop} {declared : List Name} (flow : Flow) {n : Name} (h : R n) :
    agreedAfter R declared flow n := by
  cases flow with
  | normal => exact .inl h
  | _ => exact h

/-- A relation between computations that start where some names are known, and end where names are
known that depend on the result. -/
abbrev Link := (Name → Prop) → {α : Type} → (α → Name → Prop) → Exec α → Exec α → Prop

/-- A relation that passes on to what is put together from computations. -/
structure Linked (T : Link) : Prop where
  pure {R : Name → Prop} {α : Type} {P : α → Name → Prop} (a : α) :
    (∀ n, P a n → R n) → T R P (Pure.pure a) (Pure.pure a)
  fault {R : Name → Prop} {α : Type} {P : α → Name → Prop} (f : TypeFault) :
    T R P (raise (.type f)) (raise (.type f))
  bind {R : Name → Prop} {α β : Type} {P : α → Name → Prop} {Q : β → Name → Prop} {x y : Exec α}
    {f g : α → Exec β} : T R P x y → (∀ a, T (P a) Q (f a) (g a)) → T R Q (x >>= f) (y >>= g)
  mono {R : Name → Prop} {α : Type} {P P' : α → Name → Prop} {x y : Exec α} :
    T R P x y → (∀ a n, P' a n → P a n) → T R P' x y

theorem Related.linked {T : (α : Type) → Exec α → Exec α → Prop} (h : Related T) :
    Linked fun _ {α} _ => T α :=
  ⟨fun a _ => h.pure a, fun f => h.stop (.type f), h.bind, fun h _ => h⟩

namespace Linked

variable {T : Link} {env env' : Env}

def Sets (T : Link) (n : Name) : Prop :=
  ∀ R v, T R (fun _ m => R m ∨ m = n) (setLocal n v) (setLocal n v)

def Silently (T : Link) (env env' : Env) : Prop :=
  ∀ (R : Name → Prop) (e : Expr), e.Within R →
    T R (fun _ => R) (eval env e) (eval env' e)

section Parts

variable (hT : Linked T)

include hT

theorem checked {R : Name → Prop} {α : Type} (r : Except TypeFault α) :
    T R (fun _ => R) (checked r) (checked r) := by
  cases r with
  | error f => exact hT.fault f
  | ok a => exact hT.pure a fun _ => id

variable {R : Name → Prop} {var : Name} {body body' : Exec Flow}

theorem afterRound {rest rest' : Exec Flow} (h : T R (fun _ => R) rest rest') :
    ∀ flow, T R (fun _ => R) (afterRound rest flow) (afterRound rest' flow)
  | .normal => h
  | .leave => hT.pure _ fun _ => id
  | .return _ => hT.pure _ fun _ => id

variable (hset : Sets T var) (hbody : T (fun n => R n ∨ n = var) (fun _ => R) body body')

include hset hbody

theorem loopOver (vs : List Json) :
    T R (fun _ => R) (loopOver var body vs) (loopOver var body' vs) := by
  induction vs with
  | nil => exact hT.pure _ fun _ => id
  | cons v vs ih => exact hT.bind (hset R v) fun _ => hT.bind hbody (hT.afterRound ih)

theorem loopRange (count i : Nat) : T R (fun _ => R) (loopRange var body count i)
    (loopRange var body' count i) := by
  simpa only [loopRange_eq] using hT.loopOver hset hbody _

end Parts

mutual
theorem exec (hT : Linked T) (he : Silently T env env') {R : Name → Prop} :
    (st : Stmt) → st.Quiet R → (∀ n ∈ st.targets, Sets T n) →
      T R (agreedAfter R st.declared) (exec env st) (exec env' st)
  | .declare n none _, _, hset =>
    hT.bind (hset n (by simp [Stmt.targets]) _ _) fun _ => hT.pure _ fun m hm => by
      simpa [agreedAfter, Stmt.declared] using hm
  | .declare n (some e) _, h, hset => hT.bind (he R _ h) fun v =>
    hT.bind (hset n (by simp [Stmt.targets]) _ v) fun _ => hT.pure _ fun m hm => by
      simpa [agreedAfter, Stmt.declared] using hm
  | .assign n e, h, hset => hT.bind (he R _ h.2) fun v =>
    hT.bind (hset n (by simp [Stmt.targets]) _ v) fun _ => hT.pure _ fun m hm => by
      simp only [agreedAfter, Stmt.declared, List.not_mem_nil, or_false] at hm
      exact .inl hm
  | .branch c yes no, h, hset => hT.bind (he R _ h.1) fun v => by
    have hweak : ∀ declared flow n, agreedAfter R (Stmt.declared (.branch c yes no)) flow n →
        agreedAfter R declared flow n := by
      intro declared flow n hm
      cases flow <;> simp_all [agreedAfter, Stmt.declared]
    split
    · exact hT.mono (hT.execBlock he yes h.2.1 fun n hn => hset n (by simp [Stmt.targets, hn]))
        (hweak _)
    · exact hT.mono (hT.execBlock he no h.2.2 fun n hn => hset n (by simp [Stmt.targets, hn]))
        (hweak _)
  | .forRange var a b body, h, hset =>
    hT.bind (he R _ h.1) fun _ => hT.bind (hT.checked _) fun _ =>
      hT.bind (he R _ h.2.1) fun _ => hT.bind (hT.checked _) fun _ =>
        hT.mono (hT.loopRange (hset var (by simp [Stmt.targets]))
          (hT.mono (hT.execBlock he body h.2.2 fun n hn => hset n (by simp [Stmt.targets, hn]))
            fun flow _ hm => agreedAfter_of flow (.inl hm)) _ _)
          fun flow n hm => by cases flow <;> simp_all [agreedAfter, Stmt.declared]
  | .forKeys var o body, h, hset | .forEach var o body, h, hset => hT.bind (he R _ h.1) fun _ =>
    hT.mono (hT.loopOver (hset var (by simp [Stmt.targets]))
      (hT.mono (hT.execBlock he body h.2 fun n hn => hset n (by simp [Stmt.targets, hn]))
        fun flow _ hm => agreedAfter_of flow (.inl hm)) _)
      fun flow n hm => by cases flow <;> simp_all [agreedAfter, Stmt.declared]
  | .leave, _, _ => hT.pure _ fun _ => id

theorem execBlock (hT : Linked T) (he : Silently T env env') {R : Name → Prop} :
    (stmts : List Stmt) → Stmt.QuietBlock R stmts → (∀ n ∈ Stmt.targetsOf stmts, Sets T n) →
      T R (agreedAfter R (Stmt.declaredOf stmts)) (execBlock env stmts)
        (execBlock env' stmts)
  | [], _, _ => hT.pure _ fun n hn => by simpa [agreedAfter, Stmt.declaredOf] using hn
  | st :: rest, h, hset =>
    hT.bind (hT.exec he st h.1 fun n hn => hset n (by simp [Stmt.targetsOf, hn])) fun flow => by
      cases flow with
      | normal =>
        refine hT.mono (hT.execBlock he rest h.2 fun n hn => hset n (by simp [Stmt.targetsOf, hn]))
          fun flow n hm => ?_
        cases flow with
        | normal => simpa [agreedAfter, Stmt.declaredOf, or_assoc] using hm
        | _ => exact .inl hm
      | _ => exact hT.pure _ fun _ => id
end

end Linked

/-! ## What stays as it is -/

def Keeps {α : Type} (W : Name → Prop) (x : Exec α) : Prop :=
  ∀ s, (ran x s).2.errors = s.errors ∧
    ∀ n, ¬ W n → Assoc.get? n (ran x s).2.locals = Assoc.get? n s.locals

namespace Keeps

variable {α β : Type} {W V : Name → Prop}

theorem pure (a : α) : Keeps W (Pure.pure a) := fun _ => ⟨rfl, fun _ _ => rfl⟩

theorem stop (e : Abort) : Keeps W (throw e : Exec α) := fun _ => ⟨rfl, fun _ _ => rfl⟩

theorem bind {x : Exec α} {f : α → Exec β} (hx : Keeps W x) (hf : ∀ a, Keeps W (f a)) :
    Keeps W (x >>= f) := by
  intro s
  rw [ran_bind]
  obtain ⟨he, hl⟩ := hx s
  rcases hr : ran x s with ⟨_ | a, s'⟩
  · rw [hr] at he hl
    exact ⟨he, hl⟩
  · rw [hr] at he hl
    obtain ⟨he', hl'⟩ := hf a s'
    exact ⟨he'.trans he, fun n hn => (hl' n hn).trans (hl n hn)⟩

theorem related : Related fun α (x _ : Exec α) => Keeps W x := ⟨pure, fun _ => stop _, bind⟩

theorem setLocal {name : Name} (h : W name) (v : Json) : Keeps W (setLocal name v) := by
  intro s
  refine ⟨rfl, fun n hn => ?_⟩
  have hne : n ≠ name := fun e => hn (e ▸ h)
  exact Assoc.get?_insert_of_ne hne v s.locals

end Keeps

variable {values : List (Name × LiveValue)} {env env' : Env} {R : Name → Prop}

theorem eval_keeps (he : env.Holds values) {W : Name → Prop} {e : Expr} (h : e.Within R) :
    Keeps W (eval env e) := by
  intro s
  obtain ⟨r, hr, -⟩ := eval_alike he he (Agree.refl R s.locals) e h
  rw [hr]
  exact ⟨rfl, fun _ _ => rfl⟩

theorem execBlock_keeps (he : env.Holds values) {W : Name → Prop} {R : Name → Prop}
    (stmts : List Stmt) (h : Stmt.QuietBlock R stmts) (hw : ∀ n ∈ Stmt.targetsOf stmts, W n) :
    Keeps W (execBlock env stmts) :=
  @Linked.execBlock _ _ env Keeps.related.linked (fun _ _ h => eval_keeps he h) R stmts h
    fun n hn _ => Keeps.setLocal (hw n hn)

/-! ## Runs side by side -/

/-- From variables that agree on some names, two computations end alike, in variables that agree on
names that depend on how they end. -/
def Parallel {α : Type} (R : Name → Prop) (P : α → Name → Prop) (x y : Exec α) : Prop :=
  ∀ s t, Agree R s.locals t.locals → ∃ r s' t',
    ran x s = (r, s') ∧ ran y t = (r, t') ∧ (∀ a, r = .error a → a.Plain) ∧
      ∀ a, r = .ok a → Agree (P a) s'.locals t'.locals

namespace Parallel

variable {α β : Type} {R S : Name → Prop} {P : α → Name → Prop} {Q : β → Name → Prop}
  {x y : Exec α}

theorem pure (a : α) (h : ∀ n, P a n → R n) : Parallel R P (Pure.pure a) (Pure.pure a) :=
  fun s t ha => ⟨.ok a, s, t, rfl, rfl, by simp, by rintro _ ⟨⟩; exact ha.mono h⟩

theorem of_alike (h : ∀ s t, Agree R s.locals t.locals → Alike x s y t) :
    Parallel R (fun _ => R) x y := by
  intro s t ha
  obtain ⟨r, hx, hy, hr⟩ := h s t ha
  exact ⟨r, s, t, hx, hy, hr, fun _ _ => ha⟩

theorem bind {f g : α → Exec β} (h : Parallel R P x y) (hf : ∀ a, Parallel (P a) Q (f a) (g a)) :
    Parallel R Q (x >>= f) (y >>= g) := by
  intro s t ha
  obtain ⟨r, s', t', hx, hy, hr, hp⟩ := h s t ha
  cases r with
  | error e =>
    refine ⟨.error e, s', t', ?_, ?_, fun a h => hr a (by simpa using h), by simp⟩ <;>
      simp [ran_bind, hx, hy]
  | ok a =>
    obtain ⟨q, s'', t'', hfx, hgy, hq, hq'⟩ := hf a s' t' (hp a rfl)
    exact ⟨q, s'', t'', by simp [ran_bind, hx, hfx], by simp [ran_bind, hy, hgy], hq, hq'⟩

theorem mono (h : Parallel R P x y) {P' : α → Name → Prop} (hr : ∀ n, R n → S n)
    (hp : ∀ a n, P' a n → P a n) : Parallel S P' x y := by
  intro s t ha
  obtain ⟨r, s', t', hx, hy, hplain, hpost⟩ := h s t (ha.mono hr)
  exact ⟨r, s', t', hx, hy, hplain, fun a e => (hpost a e).mono (hp a)⟩

theorem linked : Linked fun R {_} => Parallel R :=
  ⟨pure, fun _ s t _ => ⟨_, s, t, rfl, rfl, by rintro _ ⟨⟩; exact trivial, by simp⟩, bind,
    fun h => h.mono fun _ => id⟩

theorem setLocal (name : Name) (v : Json) :
    Parallel R (fun _ n => R n ∨ n = name) (setLocal name v) (setLocal name v) :=
  fun s t ha => ⟨.ok (), { s with locals := Assoc.insert name v s.locals },
    { t with locals := Assoc.insert name v t.locals }, rfl, rfl, by simp,
    fun _ _ => ha.insert name v⟩

end Parallel

theorem execBlock_parallel (he : env.Holds values) (he' : env'.Holds values) {R : Name → Prop}
    (stmts : List Stmt) (h : Stmt.QuietBlock R stmts) :
    Parallel R (agreedAfter R (Stmt.declaredOf stmts)) (execBlock env stmts)
      (execBlock env' stmts) :=
  Parallel.linked.execBlock (fun _ _ h => .of_alike fun _ _ ha => eval_alike he he' ha _ h) stmts h
    fun n _ _ => Parallel.setLocal n

end Machine
end SchemaCompiler

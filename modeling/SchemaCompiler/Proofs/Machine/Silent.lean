import SchemaCompiler.Proofs.Machine.Related
import SchemaCompiler.Proofs.Machine.Run
import SchemaCompiler.Proofs.Names

/-!
# Silent expressions and statements

An expression is silent if it neither asks for the error count nor calls a function of the program.
Its value depends on the variables that it reads and on the values of the program, and on nothing
else: `evalIn` is that value. Statements are quiet if they work on variables with silent
expressions only.
-/
namespace SchemaCompiler

variable {args : List Json} {v : Json}

abbrev Locals := List (Name × Json)

def Agree (R : Name → Prop) (l ρ : Locals) : Prop := ∀ n, R n → Assoc.get? n l = Assoc.get? n ρ

namespace Agree

variable {R S : Name → Prop} {l ρ σ : Locals}

theorem refl (R : Name → Prop) (l : Locals) : Agree R l l := fun _ _ => rfl

theorem symm (h : Agree R l ρ) : Agree R ρ l := fun n hn => (h n hn).symm

theorem trans (h : Agree R l ρ) (h' : Agree R ρ σ) : Agree R l σ :=
  fun n hn => (h n hn).trans (h' n hn)

theorem mono (h : Agree R l ρ) (hs : ∀ n, S n → R n) : Agree S l ρ := fun n hn => h n (hs n hn)

theorem insert (h : Agree R l ρ) (name : Name) (v : Json) :
    Agree (fun n => R n ∨ n = name) (Assoc.insert name v l) (Assoc.insert name v ρ) := by
  intro n hn
  by_cases hname : n = name
  · rw [hname, Assoc.get?_insert_self, Assoc.get?_insert_self]
  · rw [Assoc.get?_insert_of_ne hname, Assoc.get?_insert_of_ne hname]
    exact h n (hn.resolve_right hname)

theorem insert_left (h : Agree R l ρ) {name : Name} (hname : ¬ R name) (v : Json) :
    Agree R (Assoc.insert name v l) ρ := by
  intro n hn
  have hne : n ≠ name := fun e => hname (e ▸ hn)
  rw [Assoc.get?_insert_of_ne hne]
  exact h n hn

end Agree

namespace Expr

variable {R : Name → Prop} {e : Expr}

mutual
def Within (R : Name → Prop) : Expr → Prop
  | .lit _ => True
  | .errorCount => False
  | .var n => R n
  | .index a b => Within R a ∧ Within R b
  | .has a b => Within R a ∧ Within R b
  | .binary _ a b => Within R a ∧ Within R b
  | .not a => Within R a
  | .typeIs a _ => Within R a
  | .len a => Within R a
  | .await a => Within R a
  | .and items => WithinItems R items
  | .or items => WithinItems R items
  | .array items => WithinItems R items
  | .slice text start _ => Within R text ∧ Within R start
  | .call callee args => (∃ n, callee = .var n ∧ n.Routine ∧ R n) ∧ WithinItems R args
  | .object members => WithinMembers R members

def WithinItems (R : Name → Prop) : List Expr → Prop
  | [] => True
  | e :: rest => Within R e ∧ WithinItems R rest

def WithinMembers (R : Name → Prop) : List (String × Expr) → Prop
  | [] => True
  | (_, e) :: rest => Within R e ∧ WithinMembers R rest
end

theorem withinItems_iff {items : List Expr} : WithinItems R items ↔ ∀ e ∈ items, Within R e := by
  induction items with
  | nil => simp [WithinItems]
  | cons e rest ih => simp [WithinItems, ih]

theorem withinMembers_iff {members : List (String × Expr)} :
    WithinMembers R members ↔ ∀ m ∈ members, Within R m.2 := by
  induction members with
  | nil => simp [WithinMembers]
  | cons m rest ih => simp [WithinMembers, ih]

/-- What is asked of an expression besides its parts. -/
def Direct (R : Name → Prop) : Expr → Prop
  | .var n => R n
  | .errorCount => False
  | .call callee _ => ∃ n, callee = .var n ∧ n.Routine
  | _ => True

theorem within_iff_parts : e.Within R ↔ e.Direct R ∧ ∀ p ∈ e.parts, p.Within R := by
  cases e with
  | call callee args =>
    simp only [Within, withinItems_iff, parts, List.forall_mem_cons]
    constructor
    · rintro ⟨⟨n, rfl, hn, hr⟩, h⟩
      exact ⟨⟨n, rfl, hn⟩, hr, h⟩
    · rintro ⟨⟨n, rfl, hn⟩, hr, h⟩
      exact ⟨⟨n, rfl, hn, hr⟩, h⟩
  | object members =>
    simp only [Within, withinMembers_iff, Direct, parts, true_and, List.forall_mem_map]
  | _ => simp [Within, withinItems_iff, Direct, parts]

theorem Within.part {p : Expr} (h : e.Within R) (hp : p ∈ e.parts) : p.Within R :=
  (within_iff_parts.1 h).2 p hp

theorem Within.mono {S : Name → Prop} (hs : ∀ n, R n → S n) (h : e.Within R) : e.Within S := by
  induction e using induction_parts with
  | h e ih =>
    refine within_iff_parts.2 ⟨?_, fun p hp => ih p hp (h.part hp)⟩
    have hd := (within_iff_parts.1 h).1
    cases e with
    | var n => exact hs n hd
    | _ => exact hd

end Expr

/-! ## Values of silent expressions -/

def Machine.Abort.Plain : Machine.Abort → Prop
  | .thrown v => v.get? "validation" = none
  | .fault _ => True

theorem Primitive.get?_complaint {message : String} {position : Nat} :
    (Primitive.complaint message position).get? "validation" = none := by
  simp [complaint, Json.get?, Assoc.get?]

theorem Primitive.get?_of_valueAt_eq_error {text : List Char} {position : Nat}
    (h : valueAt text position = .error v) : v.get? "validation" = none := by
  unfold valueAt at h
  dsimp only at h
  split at h
  · cases h
  · split at h <;> cases h <;> exact get?_complaint

theorem Primitive.get?_of_bind_textAt_eq_error {next : List Char × Nat → Except Json Json}
    (h : textAt args >>= next = .error v)
    (hnext : ∀ r, next r = .error v → v.get? "validation" = none) : v.get? "validation" = none := by
  cases ht : textAt args with
  | ok r => exact hnext r (by rwa [ht] at h)
  | error w =>
    rw [ht] at h
    cases h
    unfold textAt at ht
    split at ht
    · split at ht <;> cases ht
      exact get?_complaint
    · cases ht
      exact get?_complaint

theorem Primitive.get?_of_call_eq_error {p : Primitive} (h : p.call args = .error v) :
    v.get? "validation" = none := by
  unfold call at h
  dsimp only at h
  cases p with
  | codePoints | quote => simp only at h; split at h <;> cases h; exact get?_complaint
  | escapePointer => simp only at h; split at h <;> cases h
  | parseString =>
    refine get?_of_bind_textAt_eq_error h fun r h => ?_
    split at h
    · exact get?_of_valueAt_eq_error h
    · cases h; exact get?_complaint
  | parseNumber =>
    refine get?_of_bind_textAt_eq_error h fun r h => ?_
    split at h
    · split at h
      · exact get?_of_valueAt_eq_error h
      · cases h; exact get?_complaint
    · cases h; exact get?_complaint
  | parseValue => exact get?_of_bind_textAt_eq_error h fun r => get?_of_valueAt_eq_error
  | skipWhitespace => exact get?_of_bind_textAt_eq_error h fun r h => nomatch h
  | _ => cases h

namespace Machine

variable {n : Name}

def silentEnv (values : List (Name × LiveValue)) : Env :=
  ⟨⟨[], values, 0⟩, fun name _ => raise (.malformed (.noFunction name)), 0⟩

def evalIn (values : List (Name × LiveValue)) (ρ : Locals) (e : Expr) : Except Abort Json :=
  (ran (eval (silentEnv values) e) ⟨[], ρ⟩).1

def Inert (values : List (Name × LiveValue)) : Prop :=
  ∀ n f, n.Routine → Assoc.get? n values ≠ some (.function f)

/-- An environment that has the values of a program, and under the names of what expressions call
nothing else. -/
structure Env.Holds (env : Env) (values : List (Name × LiveValue)) : Prop where
  values_eq : env.program.values = values
  inert : Inert values
  routine : ∀ n, n.Routine → env.program.function? n = none

theorem silentEnv_holds {values : List (Name × LiveValue)} (h : Inert values) :
    (silentEnv values).Holds values :=
  ⟨rfl, h, fun _ _ => rfl⟩

def Alike {α : Type} (x : Exec α) (s : State) (y : Exec α) (t : State) : Prop :=
  ∃ r : Except Abort α, ran x s = (r, s) ∧ ran y t = (r, t) ∧ ∀ a, r = .error a → a.Plain

namespace Alike

variable {α β : Type} {s t : State} {x y : Exec α}

theorem pure (a : α) : Alike (Pure.pure a) s (Pure.pure a) t := ⟨.ok a, rfl, rfl, by simp⟩

theorem stop {e : Abort} (h : e.Mild) : Alike (throw e : Exec α) s (throw e) t := by
  refine ⟨.error e, rfl, rfl, ?_⟩
  rintro _ ⟨⟩
  cases h with
  | routine h => exact Primitive.get?_of_call_eq_error h
  | _ => trivial

theorem bind (h : Alike x s y t) {f g : α → Exec β} (hf : ∀ a, Alike (f a) s (g a) t) :
    Alike (x >>= f) s (y >>= g) t := by
  obtain ⟨r, hx, hy, hr⟩ := h
  cases r with
  | error e =>
    refine ⟨.error e, ?_, ?_, fun a h => hr a (by simpa using h)⟩ <;>
      simp [ran_bind, hx, hy]
  | ok a =>
    obtain ⟨q, hf, hg, hq⟩ := hf a
    exact ⟨q, by simp [ran_bind, hx, hf], by simp [ran_bind, hy, hg], hq⟩

theorem related : Related fun _ x y => Alike x s y t := ⟨pure, stop, fun h hf => h.bind hf⟩

end Alike

variable {values : List (Name × LiveValue)} {env env' : Env} {R : Name → Prop} {s t : State}

theorem ran_readName (env : Env) (n : Name) (s : State) :
    ran (readName env n) s =
      ((match Assoc.get? n s.locals, env.program.value? n with
        | some v, _ => .ok v
        | none, some (.json v) => .ok v
        | none, some _ => .error (.fault (.type (.notJson n)))
        | none, none => .error (.fault (.malformed (.unboundName n)))), s) := by
  unfold readName
  rw [ran_bind, ran_look, follow_ok]
  cases Assoc.get? n s.locals with
  | some v => rfl
  | none =>
    cases env.program.value? n with
    | none => rfl
    | some live => cases live <;> rfl

variable (he : env.Holds values) (he' : env'.Holds values)

include he he'

theorem value?_eq : env.program.value? n = env'.program.value? n := by
  rw [Program.value?, Program.value?, he.values_eq, he'.values_eq]

theorem callName_alike (hn : n.Routine)
    (args : List Json) : Alike (callName env n args) s (callName env' n args) t := by
  have hf := he.routine n hn
  refine Alike.related.callName (by rw [hf, he'.routine n hn]) (value?_eq he he') ?_
  rintro m (⟨hsome, -⟩ | hm)
  · rw [hf] at hsome
    cases hsome
  · rw [Program.value?, he.values_eq] at hm
    exact absurd hm (he.inert n m hn)

variable (ha : Agree R s.locals t.locals)

include ha

theorem readName_alike (hn : R n) : Alike (readName env n) s (readName env' n) t := by
  refine ⟨_, ran_readName env n s, ?_, ?_⟩
  · rw [ran_readName, ha n hn, value?_eq he he']
  · intro a h
    split at h <;> cases h <;> trivial

theorem evaluates_alike :
    Evaluates (fun _ x y => Alike x s y t) env env' (Expr.Within R) where
  parts := .part
  read := readName_alike he he' ha
  call vs h := by
    obtain ⟨⟨n, ⟨⟩, hn, -⟩, -⟩ := h
    exact callName_alike he he' hn vs
  count := False.elim

theorem eval_alike (e : Expr) (h : e.Within R) : Alike (eval env e) s (eval env' e) t :=
  Alike.related.eval (evaluates_alike he he' ha) h

theorem evalItems_alike (items : List Expr) (h : Expr.WithinItems R items) :
    Alike (evalItems env items) s (evalItems env' items) t :=
  Alike.related.evalItems fun e hmem => eval_alike he he' ha e (Expr.withinItems_iff.1 h e hmem)

end Machine
end SchemaCompiler

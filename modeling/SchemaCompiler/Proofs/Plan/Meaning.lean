import SchemaCompiler.Plan
import SchemaCompiler.Proofs.Machine.Quiet

/-!
# What plans mean

The meaning of a plan is what is found when it is carried out on the variables of a call: the errors
in order, how it ends, and the variables afterwards. It is given by recursion on the plan, with no
error counts and no statements. An attempt at a schema has a scope of its own: what it does to
variables ends with it, but for the name of its verdict.
-/
namespace SchemaCompiler

open Machine

/-- How carrying out a plan ends: with what comes next, or behind the loop around it, or outside of
the function. -/
inductive Exit where
  | onward
  | loop
  | function
deriving DecidableEq, Repr

/-- What carrying out a plan finds. -/
structure Finding where
  errors : List Json
  exit : Exit
  locals : Locals

namespace Finding

variable (ρ : Locals)

def clear : Finding := ⟨[], .onward, ρ⟩

variable (errors : List Json) (f : Finding)

def behind : Finding := { f with errors := errors ++ f.errors }

def dropped : Finding := { f with errors := [] }

def andThen (f : Finding) (next : Locals → Except Abort Finding) : Except Abort Finding :=
  match f.exit with
  | .onward => (next f.locals).map (behind f.errors)
  | _ => .ok f

@[simp] theorem errors_clear : (clear ρ).errors = [] := rfl

@[simp] theorem exit_clear : (clear ρ).exit = .onward := rfl

@[simp] theorem locals_clear : (clear ρ).locals = ρ := rfl

@[simp] theorem errors_behind :
    (f.behind errors).errors = errors ++ f.errors := rfl

@[simp] theorem exit_behind :
    (f.behind errors).exit = f.exit := rfl

@[simp] theorem locals_behind :
    (f.behind errors).locals = f.locals := rfl

@[simp] theorem errors_dropped : f.dropped.errors = [] := rfl

@[simp] theorem exit_dropped : f.dropped.exit = f.exit := rfl

@[simp] theorem locals_dropped : f.dropped.locals = f.locals := rfl

theorem andThen_onward {f : Finding} (h : f.exit = .onward) (next : Locals → Except Abort Finding) :
    f.andThen next = (next f.locals).map (behind f.errors) := by
  simp [andThen, h]

theorem andThen_ended {f : Finding} (h : f.exit ≠ .onward)
    (next : Locals → Except Abort Finding) : f.andThen next = .ok f := by
  cases hx : f.exit with
  | onward => exact absurd hx h
  | _ => simp [andThen]

/-- What is found after a finding: that finding alone, or what comes behind it as well. -/
theorem andThen_eq_ok {f g : Finding} {next : Locals → Except Abort Finding} :
    f.andThen next = .ok g ↔
      (f.exit = .onward ∧ ∃ h, next f.locals = .ok h ∧ h.behind f.errors = g) ∨
        (f.exit ≠ .onward ∧ f = g) := by
  by_cases hx : f.exit = .onward
  · simp [andThen_onward hx, hx, map_eq_ok]
  · simp [andThen_ended hx, hx]

end Finding

/-- What plans are carried out in: the values of the program, and the errors that calls of its
functions find. -/
structure Setting where
  values : List (Name × LiveValue)
  call : Name → List Json → Except Abort (List Json)

namespace Setting

variable (w : Setting) (ρ : Locals)

def eval (e : Expr) : Except Abort Json := evalIn w.values ρ e

def test (e : Expr) : Except Abort Bool := (w.eval ρ e).map truthy

def index (e : Expr) : Except Abort Nat := do
  let v ← w.eval ρ e
  (asIndex v).mapError fun fault => .fault (.type fault)

def evalItems (items : List Expr) : Except Abort (List Json) :=
  (ran (Machine.evalItems (silentEnv w.values) items) ⟨[], ρ⟩).1

def quietly (w : Setting) (stmts : List Stmt) (ρ : Locals) : Except Abort Finding :=
  match ran (execBlock (silentEnv w.values) stmts) ⟨[], ρ⟩ with
  | (.ok .leave, s) => .ok ⟨[], .loop, s.locals⟩
  | (.ok _, s) => .ok (.clear s.locals)
  | (.error a, _) => .error a

end Setting

def Mode.exitAfter (m : Mode) (breaks : Bool) : Exit :=
  if m.failsFast then .function else if breaks && !m.allErrors then .loop else .onward

def Setting.report (w : Setting) (m : Mode) (record : Expr) (breaks : Bool) (ρ : Locals) :
    Except Abort Finding :=
  (w.eval ρ record).map fun v => ⟨[v], m.exitAfter breaks, ρ⟩

def Traversal.values (w : Setting) (ρ : Locals) : Traversal → Except Abort (List Json)
  | range start stop => do
    let i ← w.index ρ start
    let j ← w.index ρ stop
    return (List.range' i (j - i)).map Json.ofNat
  | keys object => (w.eval ρ object).map keysOf
  | items iterable => (w.eval ρ iterable).map valuesOf

def rounds (var : Name) (body : Locals → Except Abort Finding) :
    List Json → Locals → Except Abort Finding
  | [], ρ => .ok (.clear ρ)
  | v :: vs, ρ => do
    let f ← body (Assoc.insert var v ρ)
    match f.exit with
    | .onward => (rounds var body vs f.locals).map (Finding.behind f.errors)
    | .loop => .ok { f with exit := .onward }
    | .function => .ok f

def Settlement.meaning (w : Setting) (m : Mode) (f : Finding) : Settlement → Except Abort Finding
  | drop => .ok f.dropped
  | dropIf condition record => do
    if ← w.test f.locals condition then .ok f.dropped
    else (w.report m record false f.locals).map (Finding.behind f.errors)
  | dropUnless condition record => do
    if ← w.test f.locals condition then
      (w.report m record false f.locals).map (Finding.behind f.errors)
    else .ok f.dropped

def Trial.enter (w : Setting) (t : Trial) (ρ : Locals) : Except Abort Locals :=
  match t.descent with
  | none => .ok ρ
  | some d => do
    let v ← w.eval ρ (.index (.var d.base) d.key)
    return Assoc.insert d.name v ρ

def Trial.conclude (t : Trial) (m : Mode) (ρ : Locals) (f : Finding) : Finding :=
  match f.exit with
  | .onward =>
    ⟨f.errors, if t.breaks && !m.allErrors && !f.errors.isEmpty then .loop else .onward,
      Assoc.insert t.valid (.bool f.errors.isEmpty) ρ⟩
  | _ => f

namespace Plan

def meaning (w : Setting) : Mode → Plan → Locals → Except Abort Finding
  | _, nothing, ρ => .ok (.clear ρ)
  | m, report record breaks, ρ => w.report m record breaks ρ
  | m, seq first second, ρ => do
    let f ← first.meaning w m ρ
    f.andThen (second.meaning w m)
  | _, quiet stmts, ρ => w.quietly stmts ρ
  | m, branch condition yes no, ρ => do
    if ← w.test ρ condition then yes.meaning w m ρ else no.meaning w m ρ
  | m, demand condition record rest, ρ => do
    if ← w.test ρ condition then
      let f ← w.report m record false ρ
      if m.allErrors then f.andThen (rest.meaning w m) else .ok f
    else rest.meaning w m ρ
  | m, typed pinned test body, ρ =>
    if pinned && !m.allErrors then body.meaning w m ρ
    else do
      if ← w.test ρ test then body.meaning w m ρ else .ok (.clear ρ)
  | m, next _ first second, ρ => do
    let f ← first.meaning w m ρ
    f.andThen fun ρ =>
      if m.allErrors || f.errors.isEmpty then second.meaning w m ρ else .ok (.clear ρ)
  | m, trial t body, ρ => do
    let inner ← t.enter w ρ
    let f ← body.meaning w (m.part t.composed) inner
    return t.conclude m ρ f
  | m, settle _ body settlement, ρ => do
    let f ← body.meaning w (m.part true) ρ
    match f.exit with
    | .onward => settlement.meaning w m f
    | _ => .ok f
  | m, loop var along body, ρ => do
    let vs ← along.values w ρ
    rounds var (body.meaning w m) vs ρ
  | _, leave, ρ => .ok ⟨[], .loop, ρ⟩
  | m, call _ callee args, ρ => do
    let vs ← w.evalItems ρ args
    let errors ← w.call callee vs
    return ⟨errors, if m.failsFast && !errors.isEmpty then .function else .onward, ρ⟩
  | m, schema _ body, ρ => body.meaning w m ρ
  | _, raw _, _ => .error (.fault (.malformed .endless))

end Plan
end SchemaCompiler

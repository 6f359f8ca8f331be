import SchemaCompiler.Proofs.Plan.Meaning

/-!
# Plans that fit where they stand

Code is generated from a plan without a look at the variables around it. That this is sound rests on
what is said here once, by recursion on the plan: expressions are silent and read variables that are
there, new variables are new, a test that is left out is one that has been passed, each step into the
data starts from data that can be stepped into, and functions are called as they expect.
-/
namespace SchemaCompiler

open Machine

/-- What is known where a plan stands. -/
structure Context where
  /-- The variables that may be read. -/
  reads : Name → Prop
  /-- The variables that may be set. -/
  sets : Name → Prop
  /-- The names of error counts that are remembered. -/
  marks : Name → Prop
  /-- The error count at the start of the schema, where there can be no errors since. -/
  node : Option Name
  /-- The tests that hold where there are no errors since the start of the schema. -/
  known : Expr → Prop
  /-- The variables whose data is not `null`. -/
  solid : Name → Prop
  /-- The variables that hold a proper part of the data of the function. -/
  below : Name → Prop

namespace Context

variable (Γ : Context)

def Fresh (n : Name) : Prop := ¬ Γ.reads n ∧ ¬ Γ.marks n

def Fixed (n : Name) : Prop := Γ.marks n ∨ Γ.reads n ∧ ¬ Γ.sets n

def Holds (n : Name) : Prop := Γ.reads n ∧ ¬ Γ.sets n ∧ (n = dataName ∨ Γ.below n)

def loose : Context := { Γ with node := none, known := fun _ => False }

def declare (names : List Name) : Context :=
  { Γ with reads := fun n => Γ.reads n ∨ n ∈ names, sets := fun n => Γ.sets n ∨ n ∈ names }

def firm (names : List Name) : Context :=
  { Γ with solid := fun n => Γ.solid n ∨ n ∈ names }

def frozen : Context := { Γ with sets := fun _ => False }

def frozenIf (b : Bool) : Context :=
  { Γ with sets := fun n => b = false ∧ Γ.sets n }

def marked (before : Name) : Context :=
  { Γ.loose with marks := fun n => Γ.marks n ∨ n = before }

end Context

def Expr.firms : Expr → List Name
  | .has (.var n) _ => [n]
  | .binary .gt (.len (.var n)) _ => [n]
  | _ => []

namespace Traversal

def firms : Traversal → List Name
  | range _ (.len (.var n)) => [n]
  | keys (.var n) => [n]
  | _ => []

def Within (R : Name → Prop) : Traversal → Prop
  | range start stop => start.Within R ∧ stop.Within R
  | keys object => object.Within R
  | items iterable => iterable.Within R

def Parts (Γ : Context) : Traversal → Prop
  | keys (.var n) => Γ.Holds n
  | _ => False

end Traversal

namespace Context

def inLoop (Γ : Context) (var : Name) (along : Traversal) : Context :=
  { Γ.loose.firm along.firms with
    reads := fun n => Γ.reads n ∨ n = var
    below := fun n => Γ.below n ∨ n = var ∧ along.Parts Γ }

def inTrial (Γ : Context) (t : Trial) : Context where
  reads := fun n => Γ.reads n ∨ ∃ d ∈ t.descent, n = d.name
  sets := fun _ => False
  marks := fun n => Γ.marks n ∨ n = t.before
  node := some t.before
  known := fun _ => False
  solid := Γ.solid
  below := fun n => Γ.below n ∨ ∃ d ∈ t.descent, n = d.name

end Context

/-- A step into the data that fits a context. -/
structure Descent.Fits (Γ : Context) (d : Descent) : Prop where
  fresh : Γ.Fresh d.name
  base : Γ.Holds d.base
  solid : Γ.solid d.base
  key : d.key.Within Γ.reads

def Settlement.Within (R : Name → Prop) : Settlement → Prop
  | drop => True
  | dropIf condition record => condition.Within R ∧ record.Within R
  | dropUnless condition record => condition.Within R ∧ record.Within R

namespace Invocation

def isAsync : Invocation → Bool
  | plain _ => false
  | awaited _ _ => true

def Fits (Γ : Context) : Invocation → Prop
  | plain valid => Γ.Fresh valid
  | awaited before caught => Γ.Fresh before ∧ Γ.Fresh caught ∧ caught ≠ before

end Invocation

namespace Plan

def declared : Plan → List Name
  | quiet stmts => Stmt.declaredOf stmts
  | seq first second => first.declared ++ second.declared
  | trial t _ => [t.valid]
  | settle _ body _ => body.declared
  | _ => []

def escapes : Plan → Bool
  | nothing => false
  | report _ breaks => breaks
  | seq first second => first.escapes || second.escapes
  | quiet stmts => Stmt.leavesOf stmts
  | branch _ yes no => yes.escapes || no.escapes
  | demand _ _ rest => rest.escapes
  | typed _ _ body => body.escapes
  | next _ first second => first.escapes || second.escapes
  | trial t body => t.breaks || body.escapes
  | settle _ body _ => body.escapes
  | loop _ _ _ => false
  | leave => true
  | call _ _ _ => false
  | schema _ body => body.escapes
  | raw _ => true

/-- Whether an error in a plan may leave the loop around it. Where all errors are collected, none
does. -/
def breaks : Plan → Bool
  | report _ breaks => breaks
  | seq first second => first.breaks || second.breaks
  | branch _ yes no => yes.breaks || no.breaks
  | demand _ _ rest => rest.breaks
  | typed _ _ body => body.breaks
  | next _ first second => first.breaks || second.breaks
  | trial t body => t.breaks || body.breaks
  | settle _ body _ => body.breaks
  | schema _ body => body.breaks
  | _ => false

/-- Where the plan finds no errors, a test holds of the variables that it started from. -/
def Ensures (p : Plan) (test : Expr) : Prop :=
  ∀ w m ρ f, p.meaning w m ρ = .ok f → f.errors = [] → ∀ b, w.test ρ test = .ok b → b = true

def composes : Plan → Bool
  | settle _ _ _ => true
  | trial t body => t.composed || body.composes
  | seq first second => first.composes || second.composes
  | branch _ yes no => yes.composes || no.composes
  | demand _ _ rest => rest.composes
  | typed _ _ body => body.composes
  | next _ first second => first.composes || second.composes
  | loop _ _ body => body.composes
  | _ => false

def schemas : Plan → List Json
  | schema s body => s :: body.schemas
  | seq first second => first.schemas ++ second.schemas
  | branch _ yes no => yes.schemas ++ no.schemas
  | demand _ _ rest => rest.schemas
  | typed _ _ body => body.schemas
  | next _ first second => first.schemas ++ second.schemas
  | trial _ body => body.schemas
  | settle _ body _ => body.schemas
  | loop _ _ body => body.schemas
  | _ => []

end Plan

def Context.knowing (Γ : Context) (p : Plan) : Context :=
  { Γ with known := fun test => Γ.known test ∨ p.Ensures test }

def compositions : List String := ["anyOf", "oneOf", "not", "if", "contains", "propertyNames"]

def Json.composes (schema : Json) : Bool := compositions.any fun k => (schema.get? k).isSome

namespace Plan

/-- A plan that fits a context; `callable` says of names how what they stand for is called. What is
passed over in one mode and not in the other, because of an error, sets no variable that is there
already and leaves no loop. -/
def Fits (callable : Name → Bool → Prop) : Context → Plan → Prop
  | _, nothing => True
  | Γ, report record _ => record.Within Γ.reads
  | Γ, seq first second =>
    first.Fits callable Γ.loose ∧ second.Fits callable (Γ.loose.declare first.declared)
  | Γ, quiet stmts =>
    Stmt.QuietBlock Γ.reads stmts ∧ ∀ n ∈ Stmt.targetsOf stmts, ¬ Γ.Fixed n
  | Γ, branch condition yes no =>
    condition.Within Γ.reads ∧ yes.Fits callable (Γ.loose.firm condition.firms)
      ∧ no.Fits callable Γ.loose
  | Γ, demand condition record rest =>
    condition.Within Γ.reads ∧ record.Within Γ.reads ∧ rest.Fits callable Γ.loose.frozen
      ∧ rest.escapes = false
  | Γ, typed pinned test body =>
    test.Within Γ.reads ∧ (pinned = true → Γ.known test) ∧ body.Fits callable Γ
  | Γ, next before first second =>
    Γ.node = some before ∧ first.Fits callable Γ.frozen
      ∧ second.Fits callable (Γ.frozen.knowing first) ∧ second.escapes = false
  | Γ, trial t body =>
    Γ.Fresh t.before ∧ Γ.Fresh t.valid ∧ (∀ d ∈ t.descent, d.Fits Γ ∧ d.name ≠ t.before)
      ∧ body.Fits callable (Γ.inTrial t) ∧ body.escapes = false
  | Γ, settle before body settlement =>
    Γ.Fresh before ∧ body.Fits callable (Γ.marked before)
      ∧ settlement.Within (Γ.declare body.declared).reads ∧ body.escapes = false
  | Γ, loop var along body =>
    along.Within Γ.reads ∧ Γ.Fresh var
      ∧ body.Fits callable ((Γ.frozenIf body.breaks).inLoop var along)
  | _, leave => True
  | Γ, call invocation callee args =>
    invocation.Fits Γ ∧ Expr.WithinItems Γ.reads args ∧ callable callee invocation.isAsync
      ∧ ∃ n rest, args = .var n :: rest ∧ Γ.Holds n
  | Γ, schema s body => body.Fits callable Γ ∧ (body.composes = true → s.composes = true)
  | _, raw _ => False

theorem Fits.mono {callable callable' : Name → Bool → Prop}
    (hc : ∀ n isAsync, callable n isAsync → callable' n isAsync) {p : Plan} {Γ : Context}
    (hp : p.Fits callable Γ) : p.Fits callable' Γ := by
  induction p generalizing Γ with
  | seq first second ihf ihs => exact ⟨ihf hp.1, ihs hp.2⟩
  | branch condition yes no ihy ihn => exact ⟨hp.1, ihy hp.2.1, ihn hp.2.2⟩
  | demand condition record rest ih => exact ⟨hp.1, hp.2.1, ih hp.2.2.1, hp.2.2.2⟩
  | typed pinned test body ih | loop pinned test body ih => exact ⟨hp.1, hp.2.1, ih hp.2.2⟩
  | next before first second ihf ihs => exact ⟨hp.1, ihf hp.2.1, ihs hp.2.2.1, hp.2.2.2⟩
  | trial t body ih => exact ⟨hp.1, hp.2.1, hp.2.2.1, ih hp.2.2.2.1, hp.2.2.2.2⟩
  | settle before body settlement ih => exact ⟨hp.1, ih hp.2.1, hp.2.2⟩
  | call invocation callee args => exact ⟨hp.1, hp.2.1, hc _ _ hp.2.2.1, hp.2.2.2⟩
  | schema s body ih => exact ⟨ih hp.1, hp.2⟩
  | _ => exact hp

end Plan
end SchemaCompiler

import SchemaCompiler.Program.Stmt

/-!
# Plans

A plan says what a schema asks of its data in the terms of validation: errors are reported, schemas
are tried, the errors of a try are dropped, items are gone through. It does not say what becomes of
an error. That is the mode, which comes in when a plan is turned into code: all errors are
collected, or the first one ends the function, or a composition around weighs them itself.
-/
namespace SchemaCompiler

/-- How errors are treated where a plan is carried out. -/
structure Mode where
  /-- Whether all errors are collected. -/
  allErrors : Bool
  /-- Whether a composition around decides what an error means. -/
  composite : Bool
  /-- Whether the function is asynchronous: it throws where others return `false`. -/
  isAsync : Bool
deriving DecidableEq, Repr

namespace Mode

def failsFast (m : Mode) : Bool := !m.allErrors && !m.composite

def part (composed : Bool) (m : Mode) : Mode := { m with composite := m.composite || composed }

def verdict : Expr := .object [("validation", .bool true)]

def leaving (m : Mode) : Stmt := if m.isAsync then .throw verdict else .return (.bool false)

def reporting (m : Mode) (record : Expr) : List Stmt :=
  .addError record :: if m.failsFast then [m.leaving] else []

/-- The statements that leave the function where a condition holds, if errors do that here. -/
def leavingIf (m : Mode) (condition : Expr) : List Stmt :=
  if m.failsFast then [.branch condition [m.leaving] []] else []

def breaking (m : Mode) : List Stmt := if m.allErrors then [] else [.leave]

end Mode

/-! ## Parts of plans -/

def Stmt.mark (before : Name) : Stmt := .declare before (some .errorCount) true

def Expr.unmoved (before : Name) : Expr := .equals .errorCount (.var before)

/-- What a loop goes through. -/
inductive Traversal where
  | range (start stop : Expr)
  | keys (object : Expr)
  | items (iterable : Expr)

def Traversal.stmt (var : Name) (body : List Stmt) : Traversal → Stmt
  | range start stop => .forRange var start stop body
  | keys object => .forKeys var object body
  | items iterable => .forEach var iterable body

/-- A step into the data: a name for the part of `base` that a key leads to. -/
structure Descent where
  name : Name
  base : Name
  key : Expr

def Descent.stmt (d : Descent) : Stmt := .declare d.name (some (.index (.var d.base) d.key)) true

/-- How a schema is tried: the errors are counted before it, and its verdict is given a name. -/
structure Trial where
  before : Name
  descent : Option Descent
  /-- Whether the schema is a part of a composition that decides itself what an error means. -/
  composed : Bool
  valid : Name
  /-- Whether a failure leaves the loop around, unless all errors are collected. -/
  breaks : Bool

/-- What becomes of the errors since a count was remembered: they are dropped, or an error of its
own is added to them. -/
inductive Settlement where
  | drop
  | dropIf (condition record : Expr)
  | dropUnless (condition record : Expr)

def Settlement.code (m : Mode) (before : Name) : Settlement → List Stmt
  | drop => [.resetErrors (.var before)]
  | dropIf condition record =>
    [.branch condition [.resetErrors (.var before)] (m.reporting record)]
  | dropUnless condition record =>
    [.branch condition (m.reporting record) [.resetErrors (.var before)]]

/-- How a validating function is called: for its verdict, or awaited, when what it throws is
caught. -/
inductive Invocation where
  | plain (valid : Name)
  | awaited (before caught : Name)

def Invocation.code (m : Mode) (call : Expr) : Invocation → List Stmt
  | plain valid =>
    .declare valid (some call) true :: m.leavingIf (Expr.var valid).negate
  | awaited before caught =>
    .mark before
      :: .handled [.expr (.await call)] caught
          [.branch (Expr.index (.var caught) (.str "validation")).negate [.throw (.var caught)] []]
          []
      :: m.leavingIf (Expr.unmoved before).negate

/-! ## Plans -/

/-- A plan. -/
inductive Plan where
  /-- Asks nothing. -/
  | nothing
  /-- Reports an error, which may leave the loop around unless all errors are collected. -/
  | report (record : Expr) (breaks : Bool)
  | seq (first second : Plan)
  /-- Statements that work on variables only. -/
  | quiet (stmts : List Stmt)
  | branch (condition : Expr) (yes no : Plan)
  /-- Reports an error where a condition holds; unless all errors are collected, the rest is only
  looked at where it does not. -/
  | demand (condition record : Expr) (rest : Plan)
  /-- Behind a test of the type of the data. A pinned test is left out unless all errors are
  collected: what comes before it has seen to it. -/
  | typed (pinned : Bool) (test : Expr) (body : Plan)
  /-- Unless all errors are collected, the second part is only looked at where there are no errors
  since a count was remembered. -/
  | next (before : Name) (first second : Plan)
  /-- Tries a schema. -/
  | trial (trial : Trial) (body : Plan)
  /-- Weighs the errors of a part. -/
  | settle (before : Name) (body : Plan) (settlement : Settlement)
  | loop (var : Name) (along : Traversal) (body : Plan)
  /-- Leaves the loop around. -/
  | leave
  /-- Calls a validating function. -/
  | call (invocation : Invocation) (callee : Name) (args : List Expr)
  /-- The plan of a schema. -/
  | schema (schema : Json) (body : Plan)
  /-- Statements as they are. -/
  | raw (stmts : List Stmt)
deriving Inhabited

namespace Plan

def all : List Plan → Plan
  | [] => nothing
  | p :: ps => seq p (all ps)

def when (condition : Expr) (body : Plan) : Plan := branch condition body nothing

def choose (otherwise : Plan) : List (Expr × Plan) → Plan
  | [] => otherwise
  | (condition, body) :: rest => branch condition body (choose otherwise rest)

def guarded : Option Expr → Plan → Plan
  | none, body => body
  | some condition, body => when condition body

/-- Plans of which each further one is only looked at where there are no errors, unless all are
collected. -/
def cascade (before : Name) : List Plan → Plan
  | [] => nothing
  | [p] => p
  | p :: ps => next before p (cascade before ps)

def code (m : Mode) : Plan → List Stmt
  | nothing => []
  | report record breaks => m.reporting record ++ if breaks then m.breaking else []
  | seq first second => first.code m ++ second.code m
  | quiet stmts => stmts
  | branch condition yes no => [.branch condition (yes.code m) (no.code m)]
  | demand condition record rest =>
    if m.allErrors then .branch condition (m.reporting record) [] :: rest.code m
    else [.branch condition (m.reporting record) (rest.code m)]
  | typed pinned test body =>
    if pinned && !m.allErrors then body.code m else [.branch test (body.code m) []]
  | next before first second =>
    if m.allErrors then first.code m ++ second.code m
    else first.code m ++ [.branch (.unmoved before) (second.code m) []]
  | trial t body =>
    .mark t.before :: ((t.descent.map Descent.stmt).toList ++ body.code (m.part t.composed)
      ++ .declare t.valid (some (.unmoved t.before)) true
      :: if t.breaks && !m.allErrors then [.branch (Expr.var t.valid).negate [.leave] []] else [])
  | settle before body settlement =>
    .mark before :: (body.code (m.part true) ++ settlement.code m before)
  | loop var along body => [along.stmt var (body.code m)]
  | leave => [.leave]
  | call invocation callee args => invocation.code m (.callName callee args)
  | schema _ body => body.code m
  | raw stmts => stmts

end Plan

/-! ## Validating functions -/

def dataName : Name := ⟨"data", Eq.refl true⟩

def instancePathName : Name := ⟨"instancePath", Eq.refl true⟩

def rootDataName : Name := ⟨"rootData", Eq.refl true⟩

/-- What a validating function is to do. An asynchronous one returns its data or throws, any other
returns its verdict. -/
structure Checker where
  isAsync : Bool
  before : Name
  plan : Plan

namespace Checker

def mode (c : Checker) (allErrors : Bool) : Mode := ⟨allErrors, false, c.isAsync⟩

def ending (c : Checker) (m : Mode) : List Stmt :=
  if c.isAsync then
    [.branch (.differs .errorCount (.var c.before)) [m.leaving] [], .return (.var dataName)]
  else [.return (.unmoved c.before)]

def code (c : Checker) (allErrors : Bool) (name : Name) : FunctionDef where
  name := name
  params := [dataName, instancePathName, rootDataName]
  body := .mark c.before :: (c.plan.code (c.mode allErrors) ++ c.ending (c.mode allErrors))
  isAsync := c.isAsync

end Checker
end SchemaCompiler

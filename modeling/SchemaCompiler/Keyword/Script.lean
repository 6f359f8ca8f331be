import SchemaCompiler.Builder.Op
import SchemaCompiler.Keyword.Occurrence

/-!
# Scripts

A script is the code of a keyword that is written against the builder, operation by operation. It
runs inside a self-balancing block of its own, so that constructs it leaves open are closed behind
it and it cannot close what it has not opened.
-/
namespace SchemaCompiler

/-- What a script works on: how errors are treated where it stands, the builder, and the parameters
and the message of the next error. -/
structure Workbench where
  mode : Mode
  builder : Builder
  params : List (String × Expr)
  message : Option Expr

abbrev Script (α : Type) := ReaderT Occurrence (StateT Workbench (Gen Session)) α

def Gen.checked {σ α : Type} : Except Misuse α → Gen σ α
  | .ok a => return a
  | .error m => throw (.misuse m)

namespace Script

variable {α : Type}

def occurrence : Script Occurrence := read

def data : Script Expr := return (← read).data

def value : Script Json := return (← read).value

/-- Carries out an operation of the builder; gives the name it brought into being, if any. -/
def perform (op : Builder.Op) : Script (Option Name) := fun _ bench => do
  let a ← get
  let (name, d) ← Gen.checked (op.step ⟨a.names, bench.builder⟩)
  set { a with names := d.names }
  return (name, { bench with builder := d.builder })

def embed (body : Occurrence → Planner α) : Script α := fun o bench => do
  let result ← body o
  return (result, bench)

def emitAll (stmts : List Stmt) : Script Unit :=
  modify fun bench => { bench with builder := bench.builder.emitAll stmts }

def valueCode : Script Expr := embed Occurrence.valueCode

def pattern (source : String) : Script Name := embed fun _ => Occurrence.pattern source

def setParam (key : String) (value : Expr) : Script Unit :=
  modify fun bench => { bench with params := Assoc.insert key value bench.params }

def setMessage (message : Expr) : Script Unit :=
  modify fun bench => { bench with message := some message }

def report : Script Unit := do
  let o ← read
  let bench ← get
  let message := bench.message.getD (o.message bench.params)
  let builder := bench.builder.emitAll (bench.mode.reporting (o.record bench.params message))
  set { bench with builder := builder, message := none }

def failIf (condition : Expr) : Script Unit := do
  if condition.isFalse then return ()
  else if condition.isTrue then report
  else
    let _ ← perform (.startIf condition)
    report
    let _ ← perform (.close .branch)

def failUnless (condition : Expr) : Script Unit := failIf condition.negate

def leaveUnless (valid : Expr) : Script Unit := do
  emitAll ((← get).mode.leavingIf valid.negate)

def countErrors : Script Name := do
  let before ← embed fun _ => Gen.fresh Occurrence.errorsStem
  emitAll [.mark before]
  return before

def dropErrors (count : Name) : Script Unit := emitAll [.resetErrors (.var count)]

def apply (inner : Inner) : Script Name := do
  let kinds := (← get).builder.frames.map Frame.kind
  let (valid, plan) ← embed fun o => o.attempt (inner.inside kinds) false
  emitAll (plan.code (← get).mode)
  return valid

/-- Runs a script on a builder that has the block of the keyword open; gives all that was built. -/
def run (script : Script Unit) (mode : Mode) (o : Occurrence) (builder : Builder) :
    Planner Plan := do
  let (_, bench) ← script o ⟨mode, builder, [], none⟩
  let builder ← Gen.checked (bench.builder.endBlock none)
  if builder.starts.isEmpty && builder.frames.isEmpty then return .raw builder.root
  else throw (.misuse .unfinishedBlock)

end Script
end SchemaCompiler

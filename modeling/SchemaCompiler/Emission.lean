import SchemaCompiler.Builder.Frame
import SchemaCompiler.Scope

/-!
# Emission of code

Programs are emitted statement by statement. A construct is emitted by a combinator that is given
what emits its parts, so that whatever is opened is closed. Names inside a function count up from
nothing for each function; values and functions belong to the whole program. An emission that fails
keeps what it has done to the program, so that names that were given are not given again.
-/
namespace SchemaCompiler

/-- The values and the finished functions of a program. -/
structure Library where
  scope : ValueScope
  functions : List (Name × FunctionDef)

namespace Library

def empty : Library := ⟨.empty, []⟩

instance : Inhabited Library := ⟨empty⟩

end Library

/-- A function under construction inside a program. -/
structure Assembly (σ : Type) where
  /-- The names given inside the function. -/
  names : Counters
  /-- The statements of the innermost block. -/
  out : List Stmt
  library : Library
  /-- What the emission keeps besides. -/
  session : σ

abbrev Gen (σ α : Type) := ExceptT CompileError (StateM (Assembly σ)) α

namespace Gen

variable {σ α : Type}

def emit (s : Stmt) : Gen σ Unit :=
  modify fun a => { a with out := a.out ++ [s] }

def emitAll (ss : List Stmt) : Gen σ Unit :=
  modify fun a => { a with out := a.out ++ ss }

def fresh (stem : LocalStem) : Gen σ Name :=
  modifyGet fun a =>
    let (name, names) := a.names.next stem.toStem
    (name, { a with names := names })

def session : Gen σ σ := do return (← get).session

def setSession (s : σ) : Gen σ Unit := modify fun a => { a with session := s }

def modifySession (f : σ → σ) : Gen σ Unit := modify fun a => { a with session := f a.session }

def onScope (f : ValueScope → α × ValueScope) : Gen σ α :=
  modifyGet fun a =>
    let (result, scope) := f a.library.scope
    (result, { a with library := { a.library with scope := scope } })

def value (stem : Stem) (d : Descriptor) : Gen σ Name := onScope (ValueScope.value stem d)

def routineStem : Stem := .of "func"

def primitive (routine : Primitive) : Gen σ Name := value routineStem (.primitive routine)

/-! ## Statements -/

def declare (stem : LocalStem) (init : Expr) : Gen σ Name := do
  let name ← fresh stem
  emit (.declare name (some init) false)
  return name

def constant (stem : LocalStem) (init : Expr) : Gen σ Name := do
  let name ← fresh stem
  emit (.declare name (some init) true)
  return name

def assign (name : Name) (value : Expr) : Gen σ Unit := emit (.assign name value)

def add (name : Name) (value : Expr) : Gen σ Unit := assign name (.plus (.var name) value)

/-! ## Constructs -/

/-- Emits the inside of a construct; gives its statements instead of emitting them. -/
def inside (body : Gen σ α) : Gen σ (α × List Stmt) := do
  let before ← get
  set { before with out := [] }
  let result ← body
  let after ← get
  set { after with out := before.out }
  return (result, after.out)

def ifThen (condition : Expr) (yes : Gen σ Unit) : Gen σ Unit := do
  let (_, yes) ← inside yes
  emit (.branch condition yes [])

def ifElse (condition : Expr) (yes no : Gen σ Unit) : Gen σ Unit := do
  let (_, yes) ← inside yes
  let (_, no) ← inside no
  emit (.branch condition yes no)

def arms : List (Expr × Gen σ Unit) → Gen σ (List (Expr × List Stmt))
  | [] => return []
  | (condition, body) :: rest => do
    let (_, body) ← inside body
    let rest ← arms rest
    return (condition, body) :: rest

/-- Emits a branch with many arms and what is done when no condition holds. Without arms only the
latter is emitted. -/
def choose (cases : List (Expr × Gen σ Unit)) (otherwise : Gen σ Unit) : Gen σ Unit := do
  if cases.isEmpty then otherwise
  else
    let cases ← arms cases
    let (_, otherwise) ← inside otherwise
    emitAll (Frame.chain otherwise cases)

def forRange (stem : LocalStem) (start stop : Expr) (body : Name → Gen σ Unit) :
    Gen σ Unit := do
  let var ← fresh stem
  let (_, body) ← inside (body var)
  emit (.forRange var start stop body)

def forKeys (stem : LocalStem) (object : Expr) (body : Name → Gen σ Unit) : Gen σ Unit := do
  let var ← fresh stem
  let (_, body) ← inside (body var)
  emit (.forKeys var object body)

def loop (body : Gen σ Unit) : Gen σ Unit := do
  let (_, body) ← inside body
  emit (.loop body)

/-- Does something with names that count up from nothing, as those of a function do. -/
def afresh (body : Gen σ α) : Gen σ α := do
  let names := (← get).names
  modify fun a => { a with names := .empty }
  let result ← body
  modify fun a => { a with names := names }
  return result

/-- Emits a whole function into the program. Inside it names count up from nothing. -/
def function (name : Name) (params : List Name) (isAsync : Bool) (body : Gen σ Unit) :
    Gen σ Unit := do
  let before ← get
  set { before with names := .empty, out := [] }
  body
  let after ← get
  let f : FunctionDef := ⟨name, params, after.out, isAsync⟩
  set { after with
    names := before.names, out := before.out
    library := { after.library with
      functions := Assoc.insert name f after.library.functions } }

def execute (g : Gen σ α) (library : Library) (session : σ) :
    Except CompileError α × Library × σ :=
  let (result, a) := (ExceptT.run g).run ⟨.empty, [], library, session⟩
  (result, a.library, a.session)

end Gen
end SchemaCompiler

import SchemaCompiler.Machine.Operation
import SchemaCompiler.Program.Stmt

/-!
# Running programs

A program is a set of functions and of values they refer to. Its functions are run on an
environment of local variables and on a list of error records that all calls share. A run ends
with a value, with a thrown value, or with a fault. Handlers catch what is thrown and never a
fault. How deep calls may nest is given by the program; only endless loops and the list of error
records need bounds that the program does not state. Error counts are compared as doubles, and up
to the bound on the list that is exact.
-/
namespace SchemaCompiler

/-- A program that can run. -/
structure Program where
  functions : List (Name × FunctionDef)
  values : List (Name × LiveValue)
  maxDepth : Nat

namespace Program

def function? (p : Program) (name : Name) : Option FunctionDef := Assoc.get? name p.functions

def value? (p : Program) (name : Name) : Option LiveValue := Assoc.get? name p.values

end Program

namespace Machine

/-- What a run works on: the error records so far, and the variables of the call at hand. -/
structure State where
  errors : List Json
  locals : List (Name × Json)

/-- Why an evaluation stops early: a value was thrown, or the program is at fault. -/
inductive Abort where
  | thrown (value : Json)
  | fault (error : RuntimeError)

/-- How a statement ends. -/
inductive Flow where
  | normal
  | leave
  | return (value : Json)

/-- States in which there is what a run works on, and maybe more. -/
class Carries (σ : Type) where
  state : σ → State
  put : State → σ → σ

instance : Carries State := ⟨fun s => s, fun s _ => s⟩

/-- A computation of the machine. What it has done to the state stays when it stops early. -/
abbrev ExecOn (σ α : Type) := ExceptT Abort (StateM σ) α

abbrev Exec (α : Type) := ExecOn State α

variable {σ α : Type}

def raise (e : RuntimeError) : ExecOn σ α := throw (.fault e)

def checked : Except TypeFault α → ExecOn σ α
  | .ok a => pure a
  | .error fault => raise (.type fault)

def observe (x : ExecOn σ α) : ExecOn σ (Except Abort α) :=
  ExceptT.mk do
    let r ← x.run
    return .ok r

def resume (r : Except Abort α) : ExecOn σ α := ExceptT.mk (pure r)

def recordLimit : Nat := 2 ^ 53

variable [Carries σ]

def look : ExecOn σ State := return Carries.state (← get)

def update (f : State → State) : ExecOn σ Unit := modify fun s => Carries.put (f (Carries.state s)) s

def addRecord (record : Json) : ExecOn σ Unit := do
  let s ← look
  if s.errors.length < recordLimit then update fun s => { s with errors := s.errors ++ [record] }
  else raise (.outOfBounds recordLimit recordLimit)

def setLocal (name : Name) (v : Json) : ExecOn σ Unit :=
  update fun s => { s with locals := Assoc.insert name v s.locals }

def getLocal (name : Name) : ExecOn σ Json := do
  match Assoc.get? name (← look).locals with
  | some v => return v
  | none => raise (.malformed (.unboundLocal name))

/-- What expressions and statements run in: the program, how its functions are called, and how
many rounds an endless loop may take. -/
structure EnvOn (σ : Type) where
  program : Program
  call : Name → List Json → ExecOn σ Json
  rounds : Nat

abbrev Env := EnvOn State

def readName (env : EnvOn σ) (name : Name) : ExecOn σ Json := do
  match Assoc.get? name (← look).locals with
  | some v => return v
  | none =>
    match env.program.value? name with
    | some (.json v) => return v
    | some _ => raise (.type (.notJson name))
    | none => raise (.malformed (.unboundName name))

/-- Calls what a name stands for: a function, or else a value of the program. -/
def callName (env : EnvOn σ) (name : Name) (args : List Json) : ExecOn σ Json :=
  if (env.program.function? name).isSome then env.call name args
  else
    let first := Primitive.argument args 0
    match env.program.value? name with
    | some (.function target) => env.call target args
    | some (.primitive routine) =>
      match routine.call args with
      | .ok v => pure v
      | .error v => throw (.thrown v)
    | some (.pattern _ compiled) =>
      match first with
      | .string s => pure (.bool (compiled.isMatch s))
      | other => raise (.type (.patternOn other))
    | some (.format test) => pure (.bool (test first))
    | some (.keyword test) => pure (.bool (test first (Primitive.argument args 1)))
    | some (.json _) => raise (.type (.notCallable name))
    | some (.forward _) => raise (.malformed (.neverResolved name))
    | none => raise (.malformed (.unboundName name))

mutual
/-- The value of an expression. Keys come before what they lead into, and arguments before what is
called. -/
def eval (env : EnvOn σ) : Expr → ExecOn σ Json
  | .lit v => pure v
  | .var name => readName env name
  | .index base key => do
    let k ← eval env key
    let b ← eval env base
    return (lookup b k).getD .null
  | .has base key => do
    let k ← eval env key
    let b ← eval env base
    return .bool (lookup b k).isSome
  | .not e => do
    let v ← eval env e
    return .bool !truthy v
  | .and items => return .bool (← evalJoint env true items)
  | .or items => return .bool (← evalJoint env false items)
  | .binary op a b => do
    let x ← eval env a
    let y ← eval env b
    checked (binary op x y)
  | .typeIs e type => do
    let v ← eval env e
    return .bool (type.holds v)
  | .len e => do
    let v ← eval env e
    match length? v with
    | some n => return Json.ofNat n
    | none => raise (.type (.noLength v))
  | .slice text start count => do
    let i ← checked (asIndex (← eval env start))
    let t ← eval env text
    return .string (slice t i count)
  | .call callee args => do
    let vs ← evalItems env args
    match callee with
    | .var name => callName env name vs
    | _ => raise (.type .onlyNames)
  | .await e => eval env e
  | .object members => do
    let vs ← evalMembers env members
    return .object (Assoc.ofList vs)
  | .array items => return .array (← evalItems env items)
  | .errorCount => do
    let s ← look
    return Json.ofNat s.errors.length

def evalItems (env : EnvOn σ) : List Expr → ExecOn σ (List Json)
  | [] => pure []
  | e :: rest => do
    let v ← eval env e
    let vs ← evalItems env rest
    return v :: vs

def evalMembers (env : EnvOn σ) : List (String × Expr) → ExecOn σ (List (String × Json))
  | [] => pure []
  | (k, e) :: rest => do
    let v ← eval env e
    let vs ← evalMembers env rest
    return (k, v) :: vs

/-- The operands of a conjunction for `true`, of a disjunction for `false`, until one decides. -/
def evalJoint (env : EnvOn σ) (k : Bool) : List Expr → ExecOn σ Bool
  | [] => pure k
  | e :: rest => do
    let v ← eval env e
    if truthy v = k then evalJoint env k rest else return !k
end

def afterRound (rest : ExecOn σ Flow) : Flow → ExecOn σ Flow
  | .normal => rest
  | .leave => pure .normal
  | .return v => pure (.return v)

def loopOver (var : Name) (body : ExecOn σ Flow) : List Json → ExecOn σ Flow
  | [] => pure .normal
  | v :: vs => do
    setLocal var v
    let flow ← body
    afterRound (loopOver var body vs) flow

def loopRange (var : Name) (body : ExecOn σ Flow) : Nat → Nat → ExecOn σ Flow
  | 0, _ => pure .normal
  | count + 1, i => do
    setLocal var (Json.ofNat i)
    let flow ← body
    afterRound (loopRange var body count (i + 1)) flow

def loopOn (body : ExecOn σ Flow) : Nat → ExecOn σ Flow
  | 0 => raise (.malformed .endless)
  | rounds + 1 => do
    let flow ← body
    afterRound (loopOn body rounds) flow

def keysOf : Json → List Json
  | .object members => members.map fun m => .string m.1
  | _ => []

def valuesOf : Json → List Json
  | .array items => items
  | .object members => members.map Prod.snd
  | _ => []

def withIndex (target key v : Json) : ExecOn σ Json :=
  match target, key with
  | .object members, .string k => pure (.object (Assoc.insert k v members))
  | .array items, .number n =>
    match n.unsigned? with
    | some i =>
      if i < maxIndex then pure (.array (setItem items i v)) else raise (.outOfBounds 0 maxIndex)
    | none => raise (.outOfBounds 0 maxIndex)
  | _, _ => raise (.type (.cannotSet key target))

/-- Closes a guarded block that ended in some way: the closing statements decide when they do not
end normally. A block that went out of bounds is not closed. -/
def concluded (closing : ExecOn σ Flow) : Except Abort Flow → ExecOn σ Flow
  | .error (.fault (.outOfBounds length index)) => raise (.outOfBounds length index)
  | r => do
    match ← closing with
    | .normal => resume r
    | flow => pure flow

def handling (caught : Name) (handler : ExecOn σ Flow) :
    Except Abort Flow → ExecOn σ (Except Abort Flow)
  | .error (.thrown v) => do
    setLocal caught v
    observe handler
  | r => pure r

mutual
def exec (env : EnvOn σ) : Stmt → ExecOn σ Flow
  | .declare name none _ => do
    setLocal name .null
    return .normal
  | .declare name (some e) _ => do
    let v ← eval env e
    setLocal name v
    return .normal
  | .assign name e => do
    let v ← eval env e
    setLocal name v
    return .normal
  | .setIndex target key value => do
    let k ← eval env key
    let v ← eval env value
    let t ← getLocal target
    let t ← withIndex t k v
    setLocal target t
    return .normal
  | .push target value => do
    let v ← eval env value
    match ← getLocal target with
    | .array items =>
      setLocal target (.array (items ++ [v]))
      return .normal
    | t => raise (.type (.cannotPush t))
  | .expr e => do
    let _ ← eval env e
    return .normal
  | .branch condition yes no => do
    let v ← eval env condition
    if truthy v then execBlock env yes else execBlock env no
  | .forRange var start stop body => do
    let i ← checked (asIndex (← eval env start))
    let j ← checked (asIndex (← eval env stop))
    loopRange var (execBlock env body) (j - i) i
  | .forKeys var object body => do
    let v ← eval env object
    loopOver var (execBlock env body) (keysOf v)
  | .forEach var iterable body => do
    let v ← eval env iterable
    loopOver var (execBlock env body) (valuesOf v)
  | .loop body => loopOn (execBlock env body) env.rounds
  | .leave => pure .leave
  | .return e => do
    let v ← eval env e
    return .return v
  | .throw e => do
    let v ← eval env e
    throw (.thrown v)
  | .handled body caught handler closing => do
    let r ← observe (execBlock env body)
    let r ← handling caught (execBlock env handler) r
    concluded (execBlock env closing) r
  | .guarded body closing => do
    let r ← observe (execBlock env body)
    concluded (execBlock env closing) r
  | .addError e => do
    let v ← eval env e
    addRecord v
    return .normal
  | .resetErrors e => do
    let n ← checked (asIndex (← eval env e))
    update fun s => { s with errors := s.errors.take n }
    return .normal

def execBlock (env : EnvOn σ) : List Stmt → ExecOn σ Flow
  | [] => pure .normal
  | s :: rest => do
    match ← exec env s with
    | .normal => execBlock env rest
    | flow => return flow
end

/-- The variables at the start of a call: parameters without an argument are `null`. -/
def bindParams : List Name → List Json → List (Name × Json)
  | [], _ => []
  | p :: ps, [] => (p, .null) :: bindParams ps []
  | p :: ps, a :: as => (p, a) :: bindParams ps as

/-- Runs a function on variables of its own; those of the caller come back however it ends. -/
def invoke (env : EnvOn σ) (f : FunctionDef) (args : List Json) : ExecOn σ Json := do
  let outer := (← look).locals
  update fun s => { s with locals := Assoc.ofList (bindParams f.params args) }
  let r ← observe (execBlock env f.body)
  update fun s => { s with locals := outer }
  match ← resume r with
  | .return v => return v
  | _ => return .null

def callFunction (program : Program) (rounds : Nat) : Nat → Name → List Json → Exec Json
  | 0, name, _ =>
    match program.function? name with
    | none => raise (.malformed (.noFunction name))
    | some _ => raise (.depthExceeded program.maxDepth)
  | left + 1, name, args =>
    match program.function? name with
    | none => raise (.malformed (.noFunction name))
    | some f => invoke ⟨program, callFunction program rounds left, rounds⟩ f args

def roundLimit : Nat := 2 ^ 64

/-- The result of a call from outside: the value returned, or the value thrown as an error, with
the error records. -/
structure Outcome where
  result : Except Json Json
  errors : List Json

def run (program : Program) (entry : Name) (args : List Json) : Except RuntimeError Outcome :=
  match (callFunction program roundLimit program.maxDepth entry args).run ⟨[], []⟩ with
  | (.ok v, s) => .ok ⟨.ok v, s.errors⟩
  | (.error (.thrown v), s) => .ok ⟨.error v, s.errors⟩
  | (.error (.fault e), _) => .error e

end Machine
end SchemaCompiler

import SchemaCompiler.Builder.Frame

/-!
# The code builder

The builder assembles functions from statements and from constructs that are opened and closed.
Closing names the kind of construct, and a mismatch is a misuse. A self-balancing block remembers
how many constructs are open; its end closes everything opened since.
-/
namespace SchemaCompiler

/-- A builder at work. Open constructs and block starts are listed from the inside out. -/
structure Builder where
  /-- Statements outside every construct. -/
  root : List Stmt
  /-- The open constructs. -/
  frames : List Frame
  /-- For each open block, how many constructs were open at its start. -/
  starts : List Nat
  /-- The finished functions. -/
  functions : List FunctionDef
  /-- The kinds of constructs around the whole of what is built here. -/
  around : List BlockKind

namespace Builder

def empty : Builder := ⟨[], [], [], [], []⟩

instance : Inhabited Builder := ⟨empty⟩

def inside (around : List BlockKind) : Builder := { empty with around := around }

def depth (b : Builder) : Nat := b.frames.length

def top (b : Builder) : Option BlockKind :=
  match b.frames with
  | frame :: _ => some frame.kind
  | [] => b.around.head?

def emit (s : Stmt) (b : Builder) : Builder :=
  match b.frames with
  | frame :: rest => { b with frames := frame.push s :: rest }
  | [] => { b with root := b.root ++ [s] }

def emitAll (ss : List Stmt) (b : Builder) : Builder := ss.foldl (fun b s => b.emit s) b

def start (frame : Frame) (b : Builder) : Builder := { b with frames := frame :: b.frames }

def startIf (condition : Expr) (b : Builder) : Builder := b.start (.branch [] condition [] none)

def elseIf (condition : Expr) (b : Builder) : Except Misuse Builder :=
  match b.frames with
  | .branch earlier c body none :: rest =>
    .ok { b with frames := .branch (earlier ++ [(c, body)]) condition [] none :: rest }
  | _ => .error (.elseIfWithoutIf b.top)

def otherwise (b : Builder) : Except Misuse Builder :=
  match b.frames with
  | .branch earlier c body none :: rest =>
    .ok { b with frames := .branch earlier c body (some []) :: rest }
  | _ => .error (.elseWithoutIf b.top)

def startLoop (head : LoopHead) (b : Builder) : Builder := b.start (.loop head [])

def startFunction (name : Name) (params : List Name) (isAsync : Bool) (b : Builder) :
    Except Misuse Builder :=
  if b.frames.isEmpty && b.around.isEmpty then .ok (b.start (.function name params isAsync []))
  else .error (.nestedFunction (b.frames.length + b.around.length))

def startTry (b : Builder) : Builder := b.start (.guard [] none none)

def catchAs (name : Name) (b : Builder) : Except Misuse Builder :=
  match b.frames with
  | .guard body none none :: rest =>
    .ok { b with frames := .guard body (some (name, [])) none :: rest }
  | _ => .error (.catchWithoutTry b.top)

def closing (b : Builder) : Except Misuse Builder :=
  match b.frames with
  | .guard body caught none :: rest =>
    .ok { b with frames := .guard body caught (some []) :: rest }
  | _ => .error (.finallyWithoutTry b.top)

def pop (b : Builder) : Builder :=
  match b.frames with
  | [] => b
  | frame :: rest =>
    emitAll frame.stmts { b with frames := rest, functions := b.functions ++ frame.functions }

def atBlockStart (b : Builder) : Bool :=
  match b.starts with
  | [] => false
  | start :: _ => decide (b.depth ≤ start)

/-- Closes the innermost construct, which has to be of a kind and inside the innermost block. -/
def close (kind : BlockKind) (b : Builder) : Except Misuse Builder :=
  if b.top ≠ some kind then .error (.wrongClose kind b.top)
  else if b.atBlockStart then .error (.crossesBlock kind)
  else .ok b.pop

def startBlock (b : Builder) : Builder := { b with starts := b.depth :: b.starts }

def popAll : Nat → Builder → Builder
  | 0, b => b
  | n + 1, b => popAll n b.pop

/-- Ends the innermost block and closes everything opened since its start. With a count, exactly
that many constructs have to be open. -/
def endBlock (expected : Option Nat) (b : Builder) : Except Misuse Builder :=
  match b.starts with
  | [] => .error .noBlock
  | start :: starts =>
    if b.depth < start then .error (.closedPastStart b.depth start)
    else
      let open_ := b.depth - start
      match expected with
      | none => .ok (popAll open_ { b with starts := starts })
      | some n =>
        if n = open_ then .ok (popAll open_ { b with starts := starts })
        else .error (.wrongCount open_ n)

/-- The finished functions, once everything is closed and nothing stands outside. -/
def finish (b : Builder) : Except Misuse (List FunctionDef) :=
  match b.frames with
  | frame :: _ => .error (.unfinished b.depth frame.kind)
  | [] =>
    if b.starts.isEmpty = false then .error .unfinishedBlock
    else if b.root.isEmpty = false then .error (.statementsOutside b.root.length)
    else .ok b.functions

end Builder
end SchemaCompiler

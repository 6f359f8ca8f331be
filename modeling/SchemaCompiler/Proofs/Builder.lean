import SchemaCompiler.Builder.Op
import SchemaCompiler.Proofs.Run

/-!
# What a builder builds

The finished functions of a builder, read from the start to the end, hold the simple statements that
were emitted, in this order, and each inside the constructs that were open then, in their active
arms. Constructs are told apart by how many were opened before, and a builder with open constructs is
read in the same way, so that every operation does to what is read what its record says.
-/
namespace SchemaCompiler

/-- A part of a construct. -/
inductive Arm where
  | holds (condition : Expr)
  | fails (condition : Expr)
  | turn (head : LoopHead)
  | function (name : Name) (params : List Name) (isAsync : Bool)
  | attempt
  | handler (caught : Name)
  | closing

/-- The constructs around a statement, by their numbers, with the arms it is in, from the inside
out. -/
abbrev Place := List (Nat × Arm)

/-- How many constructs there have been so far, and the simple statements with their places. -/
structure Reading where
  opened : Nat
  met : List (Place × Stmt)

namespace Reading

def none : Reading := ⟨0, []⟩

def enter (r : Reading) : Reading := { r with opened := r.opened + 1 }

def meet (p : Place) (r : Reading) (s : Stmt) : Reading := { r with met := r.met ++ [(p, s)] }

mutual
def stmt (p : Place) (r : Reading) : Stmt → Reading
  | .branch c yes no =>
    stmts ((r.opened, .fails c) :: p) (stmts ((r.opened, .holds c) :: p) r.enter yes) no
  | .forRange n start stop body => stmts ((r.opened, .turn (.range n start stop)) :: p) r.enter body
  | .forKeys n object body => stmts ((r.opened, .turn (.keys n object)) :: p) r.enter body
  | .forEach n iterable body => stmts ((r.opened, .turn (.each n iterable)) :: p) r.enter body
  | .loop body => stmts ((r.opened, .turn .forever) :: p) r.enter body
  | .handled body n handler closing =>
    stmts ((r.opened, .closing) :: p) (stmts ((r.opened, .handler n) :: p)
      (stmts ((r.opened, .attempt) :: p) r.enter body) handler) closing
  | .guarded body closing =>
    stmts ((r.opened, .closing) :: p) (stmts ((r.opened, .attempt) :: p) r.enter body) closing
  | s => r.meet p s

def stmts (p : Place) (r : Reading) : List Stmt → Reading
  | [] => r
  | s :: rest => stmts p (stmt p r s) rest
end

variable (p : Place) (r : Reading)

def function (f : FunctionDef) : Reading :=
  stmts [(r.opened, .function f.name f.params f.isAsync)] r.enter f.body

/-- The simple statements of functions. -/
def functions (fs : List FunctionDef) : Reading := fs.foldl function none

def arms (p : Place) (r : Reading) : List (Expr × List Stmt) → Place × Reading
  | [] => (p, r)
  | (c, body) :: rest =>
    arms ((r.opened, .fails c) :: p) (stmts ((r.opened, .holds c) :: p) r.enter body) rest

/-- The statements of an open construct, and the place of the next one. -/
def frame : Frame → Place × Reading
  | .branch earlier c body otherwise =>
    let (p, r) := arms p r earlier
    let held := stmts ((r.opened, .holds c) :: p) r.enter body
    match otherwise with
    | .none => ((r.opened, .holds c) :: p, held)
    | some no => ((r.opened, .fails c) :: p, stmts ((r.opened, .fails c) :: p) held no)
  | .loop head body => ((r.opened, .turn head) :: p, stmts ((r.opened, .turn head) :: p) r.enter body)
  | .function n params isAsync body =>
    ((r.opened, .function n params isAsync) :: p,
      stmts ((r.opened, .function n params isAsync) :: p) r.enter body)
  | .guard body caught closing =>
    let tried := stmts ((r.opened, .attempt) :: p) r.enter body
    let (q, handled) := match caught with
      | .none => ((r.opened, Arm.attempt) :: p, tried)
      | some (n, handler) =>
        ((r.opened, .handler n) :: p, stmts ((r.opened, .handler n) :: p) tried handler)
    match closing with
    | .none => (q, handled)
    | some closing => ((r.opened, .closing) :: p, stmts ((r.opened, .closing) :: p) handled closing)

/-- The places of open constructs, listed from the inside out, and their statements. -/
def frames (r : Reading) : List Frame → List Place × Reading
  | [] => ([], r)
  | f :: rest =>
    let (places, r) := frames r rest
    let (p, r) := frame (places.headD []) r f
    (p :: places, r)

end Reading

/-! ## Records of operations -/

/-- What is known of a history of operations: the places of the open constructs, from the inside out,
the statements so far, and how many constructs were open at the starts of blocks. -/
structure Record where
  places : List Place
  reading : Reading
  starts : List Nat

namespace Record

def none : Record := ⟨[], .none, []⟩

def place (o : Record) : Place := o.places.headD []

def meet (o : Record) (s : Stmt) : Record := { o with reading := o.reading.meet o.place s }

def enter (o : Record) (arm : Arm) : Record :=
  { o with places := ((o.reading.opened, arm) :: o.place) :: o.places, reading := o.reading.enter }

/-- The innermost construct goes on with another arm. -/
def switch (o : Record) (arm : Arm) : Record :=
  match o.places with
  | ((n, _) :: p) :: rest => { o with places := ((n, arm) :: p) :: rest }
  | _ => o

def otherwise (o : Record) : Record :=
  match o.place with
  | (_, .holds c) :: _ => o.switch (.fails c)
  | _ => o

/-- A construct is entered in the other arm of the innermost one, and closed together with it. -/
def elseIf (o : Record) (c : Expr) : Record :=
  let o := o.otherwise.enter (.holds c)
  { o with places := o.places.eraseIdx 1 }

def close (n : Nat) (o : Record) : Record := { o with places := o.places.drop n }

def endBlock (o : Record) : Record :=
  match o.starts with
  | [] => o
  | start :: starts => { o.close (o.places.length - start) with starts := starts }

end Record

namespace Builder

def record (b : Builder) : Record :=
  let (places, r) := Reading.frames (.functions b.functions) b.frames
  ⟨places, r, b.starts⟩

/-- What an operation that gave a name, or none, does to a record. -/
def Op.record (o : Record) : Op → Option Name → Record
  | declare _ value constant, some n => o.meet (.declare n value constant)
  | assign n value, _ => o.meet (.assign n value)
  | addAssign n value, _ => o.meet (.assign n (.plus (.var n) value))
  | setIndex target key value, _ => o.meet (.setIndex target key value)
  | push target value, _ => o.meet (.push target value)
  | code value, _ => o.meet (.expr value)
  | leave, _ => o.meet .leave
  | .return value, _ => o.meet (.return value)
  | throw value, _ => o.meet (.throw value)
  | addError record, _ => o.meet (.addError record)
  | resetErrors count, _ => o.meet (.resetErrors count)
  | startIf c, _ => o.enter (.holds c)
  | elseIf c, _ => o.elseIf c
  | otherwise, _ => o.otherwise
  | forRange _ start stop, some n => o.enter (.turn (.range n start stop))
  | forKeys _ object, some n => o.enter (.turn (.keys n object))
  | forEach _ iterable, some n => o.enter (.turn (.each n iterable))
  | loop, _ => o.enter (.turn .forever)
  | startFunction n params isAsync, _ => o.enter (.function n params isAsync)
  | startTry, _ => o.enter .attempt
  | catchAs _, some n => o.switch (.handler n)
  | closing, _ => o.switch .closing
  | close _, _ => o.close 1
  | startBlock, _ => { o with starts := o.places.length :: o.starts }
  | endBlock _, _ => o.endBlock
  | _, _ => o

attribute [local simp] Builder.record Reading.frames Reading.stmts Op.record
  Record.place Record.enter Record.switch Record.otherwise Record.elseIf Record.close

/-- Functions are not inside of other constructs. -/
def Grounded (b : Builder) : Prop := (b.frames.map Frame.kind).Pairwise fun k _ => k ≠ .function

/-- A builder has become another one, of which a record is known if nothing stands outside. -/
structure Becomes (b b' : Builder) (o : Record) : Prop where
  root : b'.root = [] → b.root = []
  grounded : b.Grounded → b'.Grounded
  record : b.Grounded → b'.root = [] → b'.record = o

variable {b b' c : Builder} {f f' : Frame} {rest : List Frame} {s : Stmt} {n : Option Name}
  {d d' : Drafting} {op : Op}

theorem Becomes.trans {o : Record} {g : Record → Record} (h : Becomes b c o)
    (h' : Becomes c b' (g c.record)) : Becomes b b' (g o) where
  root := fun hroot => h.root (h'.root hroot)
  grounded := fun hg => h'.grounded (h.grounded hg)
  record := fun hg hroot => by rw [h'.record (h.grounded hg) hroot, h.record hg (h'.root hroot)]

namespace Op

end Op
end Builder
end SchemaCompiler

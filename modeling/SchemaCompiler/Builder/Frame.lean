import SchemaCompiler.Builder.Misuse
import SchemaCompiler.Program.Stmt

/-!
# Open constructs

A frame is a construct that has been opened and not yet closed: what is known of it, and the
statements that its parts hold so far. One part of it is active and takes the next statement.
-/
namespace SchemaCompiler

/-- How a loop goes round. -/
inductive LoopHead where
  | range (var : Name) (start stop : Expr)
  | keys (var : Name) (object : Expr)
  | each (var : Name) (iterable : Expr)
  | forever

def LoopHead.stmt (body : List Stmt) : LoopHead → Stmt
  | range var start stop => .forRange var start stop body
  | keys var object => .forKeys var object body
  | each var iterable => .forEach var iterable body
  | forever => .loop body

/-- An open construct. A branch has the arms before the latest one, the latest arm, and the part
for when no condition holds. -/
inductive Frame where
  | branch (earlier : List (Expr × List Stmt)) (condition : Expr) (body : List Stmt)
      (otherwise : Option (List Stmt))
  | loop (head : LoopHead) (body : List Stmt)
  | function (name : Name) (params : List Name) (isAsync : Bool) (body : List Stmt)
  | guard (body : List Stmt) (caught : Option (Name × List Stmt)) (closing : Option (List Stmt))

namespace Frame

def kind : Frame → BlockKind
  | branch .. => .branch
  | loop .. => .loop
  | function .. => .function
  | guard .. => .guard

def active : Frame → List Stmt
  | branch _ _ _ (some body) => body
  | branch _ _ body none => body
  | loop _ body => body
  | function _ _ _ body => body
  | guard _ _ (some body) => body
  | guard _ (some (_, body)) none => body
  | guard body none none => body

def push (s : Stmt) : Frame → Frame
  | branch earlier condition body (some rest) => branch earlier condition body (some (rest ++ [s]))
  | branch earlier condition body none => branch earlier condition (body ++ [s]) none
  | loop head body => loop head (body ++ [s])
  | function n params isAsync body => function n params isAsync (body ++ [s])
  | guard body caught (some closing) => guard body caught (some (closing ++ [s]))
  | guard body (some (n, handler)) none => guard body (some (n, handler ++ [s])) none
  | guard body none none => guard (body ++ [s]) none none

@[simp] theorem kind_push (s : Stmt) (f : Frame) : (f.push s).kind = f.kind := by
  unfold push; split <;> rfl

def chain (otherwise : List Stmt) : List (Expr × List Stmt) → List Stmt
  | [] => otherwise
  | (condition, body) :: rest => [.branch condition body (chain otherwise rest)]

/-- The statements a closed frame stands for. A function stands for none: it goes to the finished
functions. -/
def stmts : Frame → List Stmt
  | branch earlier condition body otherwise =>
    chain (otherwise.getD []) (earlier ++ [(condition, body)])
  | loop head body => [head.stmt body]
  | function .. => []
  | guard body (some (n, handler)) closing => [.handled body n handler (closing.getD [])]
  | guard body none closing => [.guarded body (closing.getD [])]

def functions : Frame → List FunctionDef
  | function n params isAsync body => [⟨n, params, body, isAsync⟩]
  | _ => []

end Frame
end SchemaCompiler

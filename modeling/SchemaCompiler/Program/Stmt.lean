import SchemaCompiler.Program.Expr

/-!
# Statements and functions

The statements of compiled programs. Every variable belongs to its whole function, and the list of
error records is shared by all functions of a run.
-/
namespace SchemaCompiler

/-- A statement. A handled block binds what was thrown to a name for its handler; the closing
statements of a block run however the block ends. -/
inductive Stmt where
  | declare (name : Name) (value : Option Expr) (constant : Bool)
  | assign (name : Name) (value : Expr)
  | setIndex (target : Name) (key value : Expr)
  | push (target : Name) (value : Expr)
  | expr (value : Expr)
  | branch (condition : Expr) (yes no : List Stmt)
  | forRange (var : Name) (start stop : Expr) (body : List Stmt)
  | forKeys (var : Name) (object : Expr) (body : List Stmt)
  | forEach (var : Name) (iterable : Expr) (body : List Stmt)
  | loop (body : List Stmt)
  | leave
  | return (value : Expr)
  | throw (value : Expr)
  | handled (body : List Stmt) (caught : Name) (handler closing : List Stmt)
  | guarded (body closing : List Stmt)
  | addError (record : Expr)
  | resetErrors (count : Expr)
deriving Inhabited

namespace Stmt

mutual
def names : Stmt → List Name
  | declare n value _ => n :: (value.map Expr.names).getD []
  | assign n value => n :: value.names
  | setIndex target key value => target :: (key.names ++ value.names)
  | push target value => target :: value.names
  | expr e => e.names
  | branch condition yes no => condition.names ++ namesOfBlock yes ++ namesOfBlock no
  | forRange var start stop body => var :: (start.names ++ stop.names ++ namesOfBlock body)
  | forKeys var object body => var :: (object.names ++ namesOfBlock body)
  | forEach var iterable body => var :: (iterable.names ++ namesOfBlock body)
  | loop body => namesOfBlock body
  | leave => []
  | .return e => e.names
  | throw e => e.names
  | handled body caught handler closing =>
    namesOfBlock body ++ caught :: (namesOfBlock handler ++ namesOfBlock closing)
  | guarded body closing => namesOfBlock body ++ namesOfBlock closing
  | addError e => e.names
  | resetErrors e => e.names

def namesOfBlock : List Stmt → List Name
  | [] => []
  | s :: rest => names s ++ namesOfBlock rest
end

end Stmt

/-- A function of a program. -/
structure FunctionDef where
  name : Name
  params : List Name
  body : List Stmt
  isAsync : Bool
deriving Inhabited

namespace FunctionDef

def referencedNames (f : FunctionDef) : List Name := Stmt.namesOfBlock f.body

end FunctionDef
end SchemaCompiler

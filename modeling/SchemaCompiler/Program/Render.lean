import SchemaCompiler.Json.Printer
import SchemaCompiler.Program.Stmt
import SchemaCompiler.Program.StoredValue

/-!
# Program text

Programs are shown as text for people to read. The text is never read back: modules are kept in
their stored form.
-/
namespace SchemaCompiler

namespace Expr

def joined (separator : String) (texts : List String) : String := separator.intercalate texts

mutual
/-- The text of an expression. A member whose key is a literal name is written with a dot. -/
def render : Expr → String
  | lit v => v.render
  | var n => n.text
  | index a (lit (.string s)) =>
    if isName s then render a ++ "." ++ s else render a ++ "[" ++ Json.quote s ++ "]"
  | index a k => render a ++ "[" ++ render k ++ "]"
  | has a k => "(" ++ render k ++ " in " ++ render a ++ ")"
  | not a => "!" ++ render a
  | and items => "(" ++ joined " && " (renderItems items) ++ ")"
  | or items => "(" ++ joined " || " (renderItems items) ++ ")"
  | binary op a b => "(" ++ render a ++ " " ++ op.sign ++ " " ++ render b ++ ")"
  | typeIs a t => "isType(" ++ render a ++ ", \"" ++ t.name ++ "\")"
  | len a => render a ++ ".length"
  | slice text start n => render text ++ ".substr(" ++ render start ++ ", " ++ toString n ++ ")"
  | call callee args => render callee ++ "(" ++ joined ", " (renderItems args) ++ ")"
  | await a => "(await " ++ render a ++ ")"
  | object members => "\x7b" ++ joined ", " (renderMembers members) ++ "\x7d"
  | array items => "[" ++ joined ", " (renderItems items) ++ "]"
  | errorCount => "errors"

def renderItems : List Expr → List String
  | [] => []
  | e :: rest => render e :: renderItems rest

def renderMembers : List (String × Expr) → List String
  | [] => []
  | (k, e) :: rest => (Json.quote k ++ ": " ++ render e) :: renderMembers rest
end

end Expr

namespace Stmt

def line (depth : Nat) (text : String) : String :=
  String.ofList (List.replicate (2 * depth) ' ') ++ text ++ "\n"

mutual
def render (depth : Nat) : Stmt → String
  | declare n (some v) constant =>
    line depth ((if constant then "const " else "let ") ++ n.text ++ " = " ++ v.render ++ ";")
  | declare n none _ => line depth ("let " ++ n.text ++ ";")
  | assign n v => line depth (n.text ++ " = " ++ v.render ++ ";")
  | setIndex target key v =>
    line depth (target.text ++ "[" ++ key.render ++ "] = " ++ v.render ++ ";")
  | push target v => line depth (target.text ++ ".push(" ++ v.render ++ ");")
  | expr e => line depth (e.render ++ ";")
  | branch condition yes no =>
    line depth ("if (" ++ condition.render ++ ") \x7b") ++ renderBlock (depth + 1) yes
      ++ renderElse depth no ++ line depth "\x7d"
  | forRange var start stop body =>
    line depth ("for (let " ++ var.text ++ " = " ++ start.render ++ "; " ++ var.text ++ " < "
      ++ stop.render ++ "; " ++ var.text ++ "++) \x7b")
      ++ renderBlock (depth + 1) body ++ line depth "\x7d"
  | forKeys var object body =>
    line depth ("for (const " ++ var.text ++ " in " ++ object.render ++ ") \x7b")
      ++ renderBlock (depth + 1) body ++ line depth "\x7d"
  | forEach var iterable body =>
    line depth ("for (const " ++ var.text ++ " of " ++ iterable.render ++ ") \x7b")
      ++ renderBlock (depth + 1) body ++ line depth "\x7d"
  | loop body => line depth "for (;;) \x7b" ++ renderBlock (depth + 1) body ++ line depth "\x7d"
  | leave => line depth "break;"
  | .return e => line depth ("return " ++ e.render ++ ";")
  | throw e => line depth ("throw " ++ e.render ++ ";")
  | handled body caught handler closing =>
    line depth "try \x7b" ++ renderBlock (depth + 1) body
      ++ line depth ("\x7d catch (" ++ caught.text ++ ") \x7b") ++ renderBlock (depth + 1) handler
      ++ (if closing.isEmpty then ""
          else line depth "\x7d finally \x7b" ++ renderBlock (depth + 1) closing)
      ++ line depth "\x7d"
  | guarded body closing =>
    line depth "try \x7b" ++ renderBlock (depth + 1) body
      ++ (if closing.isEmpty then ""
          else line depth "\x7d finally \x7b" ++ renderBlock (depth + 1) closing)
      ++ line depth "\x7d"
  | addError e => line depth ("errors.push(" ++ e.render ++ ");")
  | resetErrors e => line depth ("errors.length = " ++ e.render ++ ";")

def renderBlock (depth : Nat) : List Stmt → String
  | [] => ""
  | s :: rest => render depth s ++ renderBlock depth rest

/-- The text of the other side of a branch: nothing when it is empty, a flat `else if` when it is
a single branch. -/
def renderElse (depth : Nat) : List Stmt → String
  | [] => ""
  | [branch condition yes no] =>
    line depth ("\x7d else if (" ++ condition.render ++ ") \x7b") ++ renderBlock (depth + 1) yes
      ++ renderElse depth no
  | s :: rest =>
    line depth "\x7d else \x7b" ++ render (depth + 1) s ++ renderBlock (depth + 1) rest
end

end Stmt

def FunctionDef.render (f : FunctionDef) : String :=
  (if f.isAsync then "async function " else "function ") ++ f.name.text ++ "("
    ++ Expr.joined ", " (f.params.map Name.text) ++ ") \x7b\n"
    ++ Stmt.renderBlock 1 f.body ++ "\x7d\n"

def StoredValue.render : StoredValue → String
  | json v => v.render
  | imported path => "require(" ++ Json.quote path ++ ")"
  | pattern source => "new RegExp(" ++ Json.quote source ++ ", \"u\")"
  | function n => n.text
  | forward slot => "/* unresolved slot " ++ toString slot ++ " */ undefined"

end SchemaCompiler

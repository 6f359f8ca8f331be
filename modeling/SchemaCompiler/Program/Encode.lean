import SchemaCompiler.Json.Printer
import SchemaCompiler.Program.Stmt
import SchemaCompiler.Program.StoredValue

/-!
# Stored programs

The JSON form of programs. A construct with parts is an object whose single member is named for
the construct; a construct without parts is its name alone.
-/
namespace SchemaCompiler

def tagged (tag : String) (content : Json) : Json := .object [(tag, content)]

def Name.toJson (n : Name) : Json := .string n.text

namespace Expr

mutual
def toJson : Expr → Json
  | lit v => tagged "lit" v
  | var n => tagged "var" n.toJson
  | index a k => tagged "index" (.array [toJson a, toJson k])
  | has a k => tagged "has" (.array [toJson a, toJson k])
  | not a => tagged "not" (toJson a)
  | and items => tagged "and" (.array (itemsToJson items))
  | or items => tagged "or" (.array (itemsToJson items))
  | binary op a b => tagged "bin" (.array [.string op.tag, toJson a, toJson b])
  | typeIs a t => tagged "typeIs" (.array [toJson a, .string t.name])
  | len a => tagged "len" (toJson a)
  | slice text start n =>
    tagged "slice"
      (.object [("text", toJson text), ("start", toJson start), ("len", Json.ofNat n)])
  | call callee args => tagged "call" (.array [toJson callee, .array (itemsToJson args)])
  | await a => tagged "await" (toJson a)
  | object members => tagged "object" (.array (membersToJson members))
  | array items => tagged "array" (.array (itemsToJson items))
  | errorCount => .string "errorCount"

def itemsToJson : List Expr → List Json
  | [] => []
  | e :: rest => toJson e :: itemsToJson rest

def membersToJson : List (String × Expr) → List Json
  | [] => []
  | (k, e) :: rest => .array [.string k, toJson e] :: membersToJson rest
end

end Expr

namespace Stmt

mutual
def toJson : Stmt → Json
  | declare n value constant =>
    tagged "let"
      (.object [("name", n.toJson), ("value", (value.map Expr.toJson).getD .null),
        ("constant", .bool constant)])
  | assign n value => tagged "assign" (.object [("name", n.toJson), ("value", value.toJson)])
  | setIndex target key value =>
    tagged "setIndex"
      (.object [("target", target.toJson), ("key", key.toJson), ("value", value.toJson)])
  | push target value =>
    tagged "push" (.object [("target", target.toJson), ("value", value.toJson)])
  | expr e => tagged "expr" e.toJson
  | branch condition yes no =>
    tagged "if"
      (.object [("cond", condition.toJson), ("then", .array (blockToJson yes)),
        ("otherwise", .array (blockToJson no))])
  | forRange var start stop body =>
    tagged "forRange"
      (.object [("var", var.toJson), ("from", start.toJson), ("to", stop.toJson),
        ("body", .array (blockToJson body))])
  | forKeys var object body =>
    tagged "forKeys"
      (.object [("var", var.toJson), ("object", object.toJson),
        ("body", .array (blockToJson body))])
  | forEach var iterable body =>
    tagged "forEach"
      (.object [("var", var.toJson), ("iterable", iterable.toJson),
        ("body", .array (blockToJson body))])
  | loop body => tagged "loop" (.object [("body", .array (blockToJson body))])
  | leave => .string "break"
  | .return e => tagged "return" e.toJson
  | throw e => tagged "throw" e.toJson
  | handled body caught handler closing =>
    tagged "try"
      (.object [("body", .array (blockToJson body)),
        ("catch", .array [caught.toJson, .array (blockToJson handler)]),
        ("finally", .array (blockToJson closing))])
  | guarded body closing =>
    tagged "try"
      (.object [("body", .array (blockToJson body)), ("catch", .null),
        ("finally", .array (blockToJson closing))])
  | addError e => tagged "addError" e.toJson
  | resetErrors e => tagged "resetErrors" e.toJson

def blockToJson : List Stmt → List Json
  | [] => []
  | s :: rest => toJson s :: blockToJson rest
end

end Stmt

def FunctionDef.toJson (f : FunctionDef) : Json :=
  .object [("name", f.name.toJson), ("params", .array (f.params.map Name.toJson)),
    ("body", .array (Stmt.blockToJson f.body)), ("isAsync", .bool f.isAsync)]

def StoredValue.content : StoredValue → Json
  | json v => v
  | imported path => .string path
  | pattern source => .string source
  | function n => n.toJson
  | forward slot => Json.ofNat slot

def StoredValue.toJson (v : StoredValue) : Json :=
  .object [("kind", .string v.kind), ("value", v.content)]

end SchemaCompiler

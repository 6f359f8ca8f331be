import SchemaCompiler.Program.Decode
import SchemaCompiler.Program.Encode
import SchemaCompiler.Validator

/-!
# Stored modules

A stored module is a validator in a form that can be written down: every value it refers to is
plain data or has a path. It is read back and loaded without a compiler.
-/
namespace SchemaCompiler

/-- A validator that can be written down. -/
structure StoredModule where
  entry : Name
  isAsync : Bool
  maxDepth : Nat
  functions : List FunctionDef
  values : List (Name × StoredValue)

namespace StoredModule

def toJson (m : StoredModule) : Json :=
  .object [("entry", m.entry.toJson), ("isAsync", .bool m.isAsync),
    ("maxDepth", Json.ofNat m.maxDepth),
    ("functions", .array (m.functions.map FunctionDef.toJson)),
    ("values", .array (m.values.map fun (n, v) => .array [n.toJson, v.toJson]))]

def write (m : StoredModule) : String := m.toJson.render

/-- Whether two modules are the same, numbers by value and members in any order. -/
def same (a b : StoredModule) : Bool := Json.same a.toJson b.toJson

def decode : Decode.Decoder StoredModule := fun source draft => do
  let (entry, isAsync, maxDepth, functions, values, ()) ←
    Decode.record "struct StandaloneModule" .ignored
      (.cons (Decode.required "entry" Name.decode)
        (.cons (Decode.defaulted "isAsync" Decode.bool false)
          (.cons (Decode.required "maxDepth" Decode.nat)
            (.cons (Decode.required "functions" (Decode.list FunctionDef.decode))
              (.cons (Decode.required "values"
                (Decode.list (Decode.pair Name.decode StoredValue.decode))) .nil)))))
      source draft
  return ⟨entry, isAsync, maxDepth, functions, values⟩

/-- Reads a module from its text; what follows the module is not looked at. -/
def read (text : String) : Except RuntimeError StoredModule :=
  match decode .text (Json.readDraft text.toList).1 with
  | .ok m => .ok m
  | .error failure => .error (.malformed (.unreadable failure))

/-- The module as program text: its values, its functions, and what it stands for. -/
def source (m : StoredModule) : String :=
  String.join (m.values.map fun (n, v) => "const " ++ n.text ++ " = " ++ v.render ++ ";\n")
    ++ String.join (m.functions.map fun f => f.render ++ "\n")
    ++ "export default " ++ m.entry.text ++ ";\n"

def link (imports : Imports) :
    List (Name × StoredValue) → Except (Name × LinkFault) (List (Name × LiveValue))
  | [] => .ok []
  | (n, v) :: rest =>
    match imports.link v with
    | .error fault => .error (n, fault)
    | .ok live => do
      let lives ← link imports rest
      return (n, live) :: lives

def program (m : StoredModule) (values : List (Name × LiveValue)) : Program :=
  ⟨Assoc.ofList (m.functions.map fun f => (f.name, f)), Assoc.ofList values, m.maxDepth⟩

def load (imports : Imports) (m : StoredModule) : Except RuntimeError Validator :=
  match link imports m.values with
  | .error (n, fault) => .error (.malformed (.unlinked n fault))
  | .ok values =>
    let program := m.program values
    if (program.function? m.entry).isSome then .ok ⟨program, m.entry, m.isAsync⟩
    else .error (.malformed (.entryUndefined m.entry))

end StoredModule
end SchemaCompiler

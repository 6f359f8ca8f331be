import SchemaCompiler.Program.Name
import SchemaCompiler.Json.Value

/-!
# Stored values

The form in which a module keeps a value that its functions refer to: plain data, or what is
needed to make the value when the module is loaded.
-/
namespace SchemaCompiler

/-- A value as a module stores it. A forward reference names a slot that is filled later; a
finished module holds none. -/
inductive StoredValue where
  | json (value : Json)
  | imported (path : String)
  | pattern (source : String)
  | function (name : Name)
  | forward (slot : Nat)
deriving DecidableEq, Inhabited

namespace StoredValue

def kind : StoredValue → String
  | json _ => "json"
  | imported _ => "import"
  | pattern _ => "regex"
  | function _ => "function"
  | forward _ => "forward"

end StoredValue
end SchemaCompiler

import SchemaCompiler.Machine.Primitive
import SchemaCompiler.Pattern.Reader
import SchemaCompiler.Program.StoredValue

/-!
# Live values

The values that running programs refer to by name: data, compiled patterns, routines and
functions. An import table says what the paths of stored values stand for; the primitive routines
are always there.
-/
namespace SchemaCompiler

/-- A value that a running program refers to. Keywords and formats are tests given by whoever
defines them; a keyword gets its own value and the data. -/
inductive LiveValue where
  | json (value : Json)
  | pattern (source : String) (compiled : Pattern)
  | primitive (routine : Primitive)
  | function (name : Name)
  | forward (slot : Nat)
  | keyword (test : Json → Json → Bool)
  | format (test : Json → Bool)

namespace LiveValue

instance : Inhabited LiveValue := ⟨json .null⟩

def describe : LiveValue → String
  | json v => "Json(" ++ v.render ++ ")"
  | pattern source _ => "Regex(" ++ Text.quoted source ++ ")"
  | primitive routine => "Helper(" ++ routine.path ++ ")"
  | function name => "Function(" ++ name.text ++ ")"
  | forward slot => "Forward(" ++ toString slot ++ ")"
  | keyword _ => "Keyword(<closure>)"
  | format _ => "Format(<closure>)"

end LiveValue

/-- Why a stored value cannot be made live. -/
inductive LinkFault where
  | unknownImport (path : String)
  | badPattern (fault : Pattern.Fault)
  | unresolved (slot : Nat)
deriving DecidableEq, Repr

def LinkFault.message : LinkFault → String
  | unknownImport path => "unknown import " ++ Text.quoted path
  | badPattern fault => fault.message
  | unresolved slot => "unresolved forward reference " ++ toString slot

/-- What paths stand for. -/
structure Imports where
  entries : List (String × LiveValue)

namespace Imports

def none : Imports := ⟨[]⟩

def insert (path : String) (value : LiveValue) (imports : Imports) : Imports :=
  ⟨Assoc.insert path value imports.entries⟩

def link (imports : Imports) : StoredValue → Except LinkFault LiveValue
  | .json v => .ok (.json v)
  | .imported path =>
    match Assoc.get? path imports.entries with
    | some value => .ok value
    | _ =>
      match Primitive.ofPath? path with
      | some routine => .ok (.primitive routine)
      | _ => .error (.unknownImport path)
  | .pattern source =>
    match Pattern.read source with
    | .ok compiled => .ok (.pattern source compiled)
    | .error fault => .error (.badPattern fault)
  | .function name => .ok (.function name)
  | .forward slot => .error (.unresolved slot)

end Imports
end SchemaCompiler

import SchemaCompiler.Decode.Record
import SchemaCompiler.Machine.Basic
import SchemaCompiler.Program.Render

/-!
# Validators

A validator is a program with an entry function that takes the data, its path and the root of the
data. An asynchronous entry returns the data or throws; any other returns a truth value.
-/
namespace SchemaCompiler

/-- One error of a validation. -/
structure ValidationError where
  instancePath : String
  schemaPath : String
  keyword : String
  params : List (String × Json)
  message : String
deriving DecidableEq

namespace ValidationError

def decode : Decode.Decoder ValidationError := fun source draft => do
  let (instancePath, schemaPath, keyword, params, message, ()) ←
    Decode.record "struct ValidationError" .ignored
      (.cons (Decode.required "instancePath" Decode.string)
        (.cons (Decode.required "schemaPath" Decode.string)
          (.cons (Decode.required "keyword" Decode.string)
            (.cons (Decode.defaulted "params" (Decode.map Decode.json) [])
              (.cons (Decode.required "message" Decode.string) .nil))))) source draft
  return ⟨instancePath, schemaPath, keyword, params, message⟩

def describe (e : ValidationError) : String := "data" ++ e.instancePath ++ " " ++ e.message

def toJson (e : ValidationError) : Json :=
  .object [("instancePath", .string e.instancePath), ("schemaPath", .string e.schemaPath),
    ("keyword", .string e.keyword), ("params", .object e.params), ("message", .string e.message)]

end ValidationError

/-- The verdict on data, with the errors found. -/
structure Validation where
  valid : Bool
  errors : List ValidationError

def Validation.describe (v : Validation) : String :=
  ", ".intercalate (v.errors.map ValidationError.describe)

/-- A program with an entry function. -/
structure Validator where
  program : Program
  entry : Name
  isAsync : Bool

namespace Validator

def readErrors : List Json → Except RuntimeError (List ValidationError)
  | [] => .ok []
  | record :: rest =>
    match ValidationError.decode .value (Json.Draft.ofJson record) with
    | .error failure => .error (.malformed (.errorRecord failure))
    | .ok e => do
      let es ← readErrors rest
      return e :: es

def isVerdict (thrown : Json) : Bool := thrown.get? "validation" == some (.bool true)

def validate (v : Validator) (data : Json) : Except RuntimeError Validation := do
  let outcome ← Machine.run v.program v.entry [data, .string "", data]
  let valid ←
    match outcome.result with
    | .ok returned => pure (v.isAsync || returned.isBool true)
    | .error thrown => if isVerdict thrown then pure false else throw (.uncaught thrown)
  let errors ← readErrors outcome.errors
  return ⟨valid, errors⟩

def isValid (v : Validator) (data : Json) : Bool :=
  match v.validate data with
  | .ok validation => validation.valid
  | .error _ => false

def source (v : Validator) : String :=
  let functions := v.program.functions.map Prod.snd
  let (entry, others) := functions.partition fun f => f.name == v.entry
  "\n".intercalate ((entry ++ others).map FunctionDef.render)

def valueNames (v : Validator) : List String :=
  ((v.program.values.map fun e => e.1.text).eraseDups).mergeSort fun a b => decide (a ≤ b)

end Validator
end SchemaCompiler

import SchemaCompiler.Json.Value

/-!
# Types of JSON values

The seven type names of schemas. `integer` is a part of `number`: it holds of every number
without a fractional part, however it is written.
-/
namespace SchemaCompiler

/-- A type of JSON values. -/
inductive JsonType where
  | null
  | boolean
  | integer
  | number
  | string
  | array
  | object
deriving DecidableEq, Repr, Inhabited

namespace JsonType

def all : List JsonType := [null, boolean, integer, number, string, array, object]

def name : JsonType → String
  | null => "null"
  | boolean => "boolean"
  | integer => "integer"
  | number => "number"
  | string => "string"
  | array => "array"
  | object => "object"

def ofName? (s : String) : Option JsonType := all.find? fun t => t.name == s

def holds : JsonType → Json → Bool
  | null, .null => true
  | boolean, .bool _ => true
  | number, .number _ => true
  | integer, .number n => n.isIntegral
  | string, .string _ => true
  | array, .array _ => true
  | object, .object _ => true
  | _, _ => false

def of : Json → JsonType
  | .null => null
  | .bool _ => boolean
  | .number n => if n.isIntegral then integer else number
  | .string _ => string
  | .array _ => array
  | .object _ => object

theorem holds_of (v : Json) : (of v).holds v = true := by
  cases v with
  | number n =>
    by_cases h : n.isIntegral = true
    · simp [of, h, holds]
    · simp [of, h, holds]
  | _ => rfl

end JsonType
end SchemaCompiler

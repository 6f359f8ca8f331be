import SchemaCompiler.Calendar
import SchemaCompiler.Json.Equality
import SchemaCompiler.Json.Pointer
import SchemaCompiler.Json.Printer
import SchemaCompiler.Json.Reader

/-!
# Primitive routines

The routines that every compiled program can call. Each has a path by which stored modules name
it. A routine gives a value or throws one.
-/
namespace SchemaCompiler

/-- A primitive routine. -/
inductive Primitive where
  | equal
  | codePoints
  | escapePointer
  | parseString
  | parseNumber
  | parseValue
  | skipWhitespace
  | quote
  | toJson
  | isTimestamp
  | isDate
  | isTime
deriving DecidableEq, Repr, Inhabited

namespace Primitive

def all : List Primitive :=
  [equal, codePoints, escapePointer, parseString, parseNumber, parseValue, skipWhitespace, quote,
    toJson, isTimestamp, isDate, isTime]

def path : Primitive → String
  | equal => "runtime/equal"
  | codePoints => "runtime/ucs2length"
  | escapePointer => "runtime/escapePointer"
  | parseString => "runtime/parseString"
  | parseNumber => "runtime/parseNumber"
  | parseValue => "runtime/parseValue"
  | skipWhitespace => "runtime/skipWhitespace"
  | quote => "runtime/quote"
  | toJson => "runtime/toJson"
  | isTimestamp => "runtime/isTimestamp"
  | isDate => "runtime/isDate"
  | isTime => "runtime/isTime"

def ofPath? (s : String) : Option Primitive := all.find? fun p => p.path == s

def complaint (message : String) (position : Nat) : Json :=
  .object [("message", .string message), ("position", Json.ofNat position)]

def wrongArgument (routine : String) (found : Json) : Json :=
  complaint (routine ++ ": unexpected argument " ++ found.render) 0

def argument (args : List Json) (i : Nat) : Json := args[i]?.getD .null

def textAt (args : List Json) : Except Json (List Char × Nat) :=
  match args with
  | .string s :: position :: _ =>
    match position.unsigned? with
    | some n => .ok (s.toList, n)
    | none => .error (complaint "parser helper called without (text, position)" 0)
  | _ => .error (complaint "parser helper called without (text, position)" 0)

def offsetOf (text : List Char) (line column : Nat) : Nat :=
  min (Text.lineStart line text + (column - 1)) (Text.byteLength text)

/-- Reads one value from a position on; gives it with the position behind it. A text that ends too
early is faulted at its end. -/
def valueAt (text : List Char) (position : Nat) : Except Json Json :=
  let rest := (Text.dropBytes? position text).getD []
  match Json.readNext rest with
  | .ok (v, after) =>
    let stop := position + (Text.byteLength rest - Text.byteLength after)
    .ok (.array [v, Json.ofNat stop])
  | .error fault =>
    if fault.reason.isEnd then
      .error (complaint "unexpected end of input" (Text.byteLength text))
    else
      let (line, column) := fault.position rest
      .error (complaint ("invalid JSON: " ++ fault.message rest)
        (position + offsetOf rest line column))

def charAt (text : List Char) (position : Nat) : Option Char :=
  (Text.dropBytes? position text).bind List.head?

def blanksAt (text : List Char) (position : Nat) : Nat :=
  match Text.dropBytes? position text with
  | some rest => (rest.takeWhile Json.isBlank).length
  | none => 0

def ofText (test : String → Bool) (v : Json) : Json := .bool ((v.string?.map test).getD false)

def call (p : Primitive) (args : List Json) : Except Json Json :=
  let first := argument args 0
  match p with
  | equal => .ok (.bool (Json.equal first (argument args 1)))
  | codePoints =>
    match first with
    | .string s => .ok (Json.ofNat s.toList.length)
    | other => .error (wrongArgument "ucs2length" other)
  | escapePointer =>
    match first with
    | .string s => .ok (.string (Json.Pointer.escape s))
    | other => .ok (.string (Json.Pointer.escape other.render))
  | parseString => do
    let (text, position) ← textAt args
    if charAt text position = some '"' then valueAt text position
    else .error (complaint "expected string" position)
  | parseNumber => do
    let (text, position) ← textAt args
    match charAt text position with
    | some c =>
      if c = '-' ∨ c.isDigit then valueAt text position
      else .error (complaint "expected number" position)
    | none => .error (complaint "expected number" position)
  | parseValue => do
    let (text, position) ← textAt args
    valueAt text position
  | skipWhitespace => do
    let (text, position) ← textAt args
    return Json.ofNat (position + blanksAt text position)
  | quote =>
    match first with
    | .string s => .ok (.string (Json.quote s))
    | other => .error (wrongArgument "quote" other)
  | toJson => .ok (.string first.render)
  | isTimestamp => .ok (ofText Calendar.isTimestamp first)
  | isDate => .ok (ofText Calendar.isDate first)
  | isTime => .ok (ofText Calendar.isTime first)

end Primitive
end SchemaCompiler

import SchemaCompiler.Json.Value
import SchemaCompiler.Text.Bytes

/-!
# JSON text read as far as it goes

A draft is what a text says up to its first fault: a JSON value in which the place of the fault
is marked. Members of objects are listed as written, repeated names included. Whoever decodes a
draft meets its parts in the order of the text, so that a decoding error in front of the fault is
found before the fault.
-/
namespace SchemaCompiler.Json

/-- Why a text is not JSON. -/
inductive Reason where
  | endInList
  | endInObject
  | endInString
  | endInValue
  | expectedColon
  | expectedListEnd
  | expectedObjectEnd
  | expectedLiteral
  | expectedValue
  | invalidEscape
  | invalidNumber
  | numberOutOfRange
  | controlCharacter
  | expectedKey
  | loneSurrogate
  | trailingComma
  | trailingCharacters
  | unfinishedSurrogate
  | tooDeep
deriving DecidableEq, Repr, Inhabited

namespace Reason

def isEnd : Reason → Bool
  | endInList | endInObject | endInString | endInValue => true
  | _ => false

def message : Reason → String
  | endInList => "EOF while parsing a list"
  | endInObject => "EOF while parsing an object"
  | endInString => "EOF while parsing a string"
  | endInValue => "EOF while parsing a value"
  | expectedColon => "expected `:`"
  | expectedListEnd => "expected `,` or `]`"
  | expectedObjectEnd => "expected `,` or `\x7d`"
  | expectedLiteral => "expected ident"
  | expectedValue => "expected value"
  | invalidEscape => "invalid escape"
  | invalidNumber => "invalid number"
  | numberOutOfRange => "number out of range"
  | controlCharacter => "control character (\\u0000-\\u001F) found while parsing a string"
  | expectedKey => "key must be a string"
  | loneSurrogate => "lone leading surrogate in hex escape"
  | trailingComma => "trailing comma"
  | trailingCharacters => "trailing characters"
  | unfinishedSurrogate => "unexpected end of hex escape"
  | tooDeep => "recursion limit exceeded"

end Reason

/-- A fault of a text: its reason, and how many bytes follow the byte that showed it. -/
structure Fault where
  reason : Reason
  remaining : Nat
deriving DecidableEq, Repr, Inhabited

namespace Fault

def atEnd (reason : Reason) : Fault := ⟨reason, 0⟩

def atNext (reason : Reason) (rest : List Char) : Fault :=
  ⟨reason, Text.byteLength rest - 1⟩

def before (reason : Reason) (rest : List Char) : Fault := ⟨reason, Text.byteLength rest⟩

def position (fault : Fault) (text : List Char) : Nat × Nat :=
  Text.lineColumn (Text.byteLength text - fault.remaining) text

def message (fault : Fault) (text : List Char) : String :=
  let (line, column) := fault.position text
  fault.reason.message ++ " at line " ++ toString line ++ " column " ++ toString column

end Fault

/-- A JSON value with a mark where its text broke off. An array or object has a `stop` when the
fault came where its next part or its end was due. -/
inductive Draft where
  | null
  | bool (value : Bool)
  | number (value : Number)
  | string (value : String)
  | array (items : List Draft) (stop : Option Fault)
  | object (members : List (String × Draft)) (stop : Option Fault)
  | broken (fault : Fault)
deriving Inhabited

namespace Draft

mutual
def fault? : Draft → Option Fault
  | array items stop => (faultItems? items).or stop
  | object members stop => (faultMembers? members).or stop
  | broken fault => some fault
  | _ => none

def faultItems? : List Draft → Option Fault
  | [] => none
  | d :: ds => (fault? d).or (faultItems? ds)

def faultMembers? : List (String × Draft) → Option Fault
  | [] => none
  | (_, d) :: ds => (fault? d).or (faultMembers? ds)
end

mutual
/-- The value of a draft without a fault. A repeated name keeps its first place and takes its
last value. -/
def toJson : Draft → Json
  | null => .null
  | bool b => .bool b
  | number n => .number n
  | string s => .string s
  | array items _ => .array (toItems items)
  | object members _ => .object (Assoc.ofList (toMembers members))
  | broken _ => .null

def toItems : List Draft → List Json
  | [] => []
  | d :: ds => toJson d :: toItems ds

def toMembers : List (String × Draft) → List (String × Json)
  | [] => []
  | (k, d) :: ds => (k, toJson d) :: toMembers ds
end

mutual
def ofJson : Json → Draft
  | .null => null
  | .bool b => bool b
  | .number n => number n
  | .string s => string s
  | .array items => array (ofItems items) none
  | .object members => object (ofMembers members) none

def ofItems : List Json → List Draft
  | [] => []
  | v :: vs => ofJson v :: ofItems vs

def ofMembers : List (String × Json) → List (String × Draft)
  | [] => []
  | (k, v) :: vs => (k, ofJson v) :: ofMembers vs
end

mutual
def depth : Draft → Nat
  | array items _ => depthItems items + 1
  | object members _ => depthMembers members + 1
  | _ => 0

def depthItems : List Draft → Nat
  | [] => 0
  | d :: ds => max (depth d) (depthItems ds)

def depthMembers : List (String × Draft) → Nat
  | [] => 0
  | (_, d) :: ds => max (depth d) (depthMembers ds)
end

end Draft
end SchemaCompiler.Json

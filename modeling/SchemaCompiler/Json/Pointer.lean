import SchemaCompiler.Json.Value

/-!
# JSON pointers

A pointer is a sequence of tokens, each written behind a slash. In a token `~` is written `~0`
and `/` is written `~1`.
-/
namespace SchemaCompiler.Json.Pointer

def escapeChar (c : Char) : List Char :=
  if c = '~' then ['~', '0'] else if c = '/' then ['~', '1'] else [c]

def escape (token : String) : String := String.ofList (token.toList.flatMap escapeChar)

def unescapeSlash : List Char → List Char
  | '~' :: '1' :: rest => '/' :: unescapeSlash rest
  | c :: rest => c :: unescapeSlash rest
  | [] => []

def unescapeTilde : List Char → List Char
  | '~' :: '0' :: rest => '~' :: unescapeTilde rest
  | c :: rest => c :: unescapeTilde rest
  | [] => []

def unescape (token : String) : String :=
  String.ofList (unescapeTilde (unescapeSlash token.toList))

/-- The parts of a text between slashes; the first part is what stands before the first slash. -/
def splitSlash : List Char → List (List Char)
  | [] => [[]]
  | c :: rest =>
    if c = '/' then [] :: splitSlash rest
    else
      match splitSlash rest with
      | [] => [[c]]
      | part :: parts => (c :: part) :: parts

def tokens (pointer : String) : List String :=
  ((splitSlash pointer.toList).drop 1).map String.ofList

/-- A decimal number without sign: digits only, and a leading zero only alone. -/
def index? (token : String) : Option Nat :=
  match token.toList with
  | [] => none
  | ['0'] => some 0
  | '0' :: _ => none
  | cs =>
    if cs.all Char.isDigit then some (cs.foldl (fun n c => n * 10 + (c.toNat - 48)) 0) else none

def step (token : String) : Json → Option Json
  | .object members => Assoc.get? token members
  | .array items => (index? token).bind (items[·]?)
  | _ => none

def follow : List String → Json → Option Json
  | [], v => some v
  | t :: ts, v => (step (unescape t) v).bind (follow ts)

/-- The value at a pointer. The empty pointer is the whole value; any other starts with a
slash. -/
def get? (pointer : String) (v : Json) : Option Json :=
  if pointer.isEmpty then some v
  else if pointer.startsWith "/" then follow (tokens pointer) v
  else none

end SchemaCompiler.Json.Pointer

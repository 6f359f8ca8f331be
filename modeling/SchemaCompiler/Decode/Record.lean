import SchemaCompiler.Decode.Basic

/-!
# Records

A record is decoded from an object, its members in any order, or from an array, its items in the
order of the fields. Each field has a type of its own; the result is the product of them.
-/
namespace SchemaCompiler.Decode

/-- A field of a record: its key, how its value is decoded, and the values it takes when an object
lacks it and when an array is too short for it. -/
structure Field (α : Type) where
  key : String
  decode : Decoder α
  absent : Option α
  omitted : Option α

def required {α : Type} (key : String) (decode : Decoder α) : Field α := ⟨key, decode, none, none⟩

def defaulted {α : Type} (key : String) (decode : Decoder α) (value : α) : Field α :=
  ⟨key, decode, some value, some value⟩

def optional {α : Type} (key : String) (decode : Decoder α) : Field (Option α) :=
  ⟨key, option decode, some none, none⟩

/-- The fields of a record, in order. -/
inductive Fields : List Type → Type 1 where
  | nil : Fields []
  | cons {α : Type} {αs : List Type} (field : Field α) (rest : Fields αs) : Fields (α :: αs)

def Product : List Type → Type
  | [] => Unit
  | α :: αs => α × Product αs

def Partial : List Type → Type
  | [] => Unit
  | α :: αs => Option α × Partial αs

namespace Fields

def keys : {αs : List Type} → Fields αs → List String
  | _, nil => []
  | _, cons field rest => field.key :: rest.keys

def start : {αs : List Type} → Fields αs → Partial αs
  | _, nil => ()
  | _, cons _ rest => (none, rest.start)

/-- Takes a member in. A key that is taken already is a failure; a key of no field gives none. -/
def take : {αs : List Type} → Fields αs → Source → String → Json.Draft → Partial αs →
    Except Failure (Option (Partial αs))
  | _, nil, _, _, _, _ => .ok none
  | _, cons field rest, source, key, draft, (held, others) =>
    if field.key == key then
      match held with
      | some _ => fail (.duplicateField key)
      | none => do
        let value ← under (.key key) (field.decode source draft)
        return some (some value, others)
    else do
      let taken ← rest.take source key draft others
      return taken.map (held, ·)

def complete : {αs : List Type} → Fields αs → Partial αs → Except Failure (Product αs)
  | _, nil, _ => .ok ()
  | _, cons field rest, (held, others) =>
    match held.or field.absent with
    | none => fail (.missingField field.key)
    | some value => do
      let values ← rest.complete others
      return (value, values)

/-- What follows the items that a reader has asked for: nothing, or a failure. -/
def closing (source : Source) (length : Nat) (items : List Json.Draft)
    (stop : Option Json.Fault) : Except Failure Unit :=
  match source, items, stop with
  | _, [], none => .ok ()
  | .value, _, _ => fail (.invalidLength length "fewer elements in array")
  | .text, [], some fault =>
    match fault.reason with
    | .endInList => fail (.malformed .endInList)
    | .trailingComma => fail (.malformed .trailingComma)
    | _ => fail (.malformed .trailingCharacters)
  | .text, _, _ => fail (.malformed .trailingCharacters)

/-- Decodes the items of an array from an index on, field by field; gives what is left too. -/
def ofItems : {αs : List Type} → Fields αs → Source → String → Nat → List Json.Draft →
    Option Json.Fault → Except Failure (Product αs × List Json.Draft)
  | _, nil, _, _, _, items, _ => .ok ((), items)
  | _, cons field rest, source, expected, i, items, stop =>
    match items with
    | d :: ds => do
      let value ← under (.item i) (field.decode source d)
      let (values, left) ← rest.ofItems source expected (i + 1) ds stop
      return ((value, values), left)
    | [] =>
      match stop, field.omitted with
      | some fault, _ => fail (.malformed fault.reason)
      | none, none => fail (.invalidLength i expected)
      | none, some value => do
        let (values, left) ← rest.ofItems source expected (i + 1) [] stop
        return ((value, values), left)

def ofArray {αs : List Type} (fields : Fields αs) (source : Source) (expected : String)
    (items : List Json.Draft) (stop : Option Json.Fault) : Except Failure (Product αs) := do
  let (values, left) ← fields.ofItems source expected 0 items stop
  closing source items.length left stop
  return values

end Fields

/-- What happens to members that belong to no field. -/
inductive Unknown where
  | refused
  | ignored
deriving DecidableEq, Repr

def stray (unknown : Unknown) (keys : List String) (key : String) (draft : Json.Draft) :
    Except Failure Unit :=
  under (.key key)
    (match unknown with
    | .refused => fail (.unknownField key keys)
    | .ignored => unbroken draft.fault?)

def collect {αs : List Type} (fields : Fields αs) (unknown : Unknown) (source : Source) :
    List (String × Json.Draft) → Partial αs → Except Failure (Partial αs)
  | [], held => .ok held
  | (key, draft) :: rest, held => do
    match ← fields.take source key draft held with
    | some held => collect fields unknown source rest held
    | none =>
      stray unknown fields.keys key draft
      collect fields unknown source rest held

def countedElements (expected : String) (n : Nat) : String :=
  expected ++ " with " ++ toString n ++ (if n = 1 then " element" else " elements")

def record {αs : List Type} (expected : String) (unknown : Unknown) (fields : Fields αs) :
    Decoder (Product αs)
  | source, .object members stop => do
    let held ← collect fields unknown source members fields.start
    under .unread (unbroken stop)
    fields.complete held
  | source, .array items stop =>
    fields.ofArray source (countedElements expected fields.keys.length) items stop
  | _, draft => mismatch expected draft

/-- A sequence of parts of different types, from an array. `counted` is how it is named when there
are too few. -/
def tuple {αs : List Type} (expected counted : String) (fields : Fields αs) :
    Decoder (Product αs)
  | source, .array items stop => fields.ofArray source counted items stop
  | _, draft => mismatch expected draft

def pair {α β : Type} (first : Decoder α) (second : Decoder β) : Decoder (α × β) :=
  fun source draft => do
    let (a, b, ()) ←
      tuple "a tuple of size 2" "a tuple of size 2"
        (.cons (required "" first) (.cons (required "" second) .nil)) source draft
    return (a, b)

end SchemaCompiler.Decode

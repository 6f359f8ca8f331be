import SchemaCompiler.Decode.Record

/-!
# Variants

A choice between variants is decoded from an object whose one member is named for the variant and
holds its content, or from the name alone when the variant has no content.
-/
namespace SchemaCompiler.Decode

/-- What a variant holds. -/
inductive Shape where
  | unit
  | newtype
  | tuple
  | record
deriving DecidableEq, Repr

def Shape.expected : Shape → String
  | unit => "unit variant"
  | newtype => "newtype variant"
  | tuple => "tuple variant"
  | record => "struct variant"

/-- A variant: its name, what it holds and how that is decoded. -/
structure Variant (α : Type) where
  tag : String
  shape : Shape
  decode : Decoder α

def bare {α : Type} (tag : String) (value : α) : Variant α :=
  ⟨tag, .unit, fun source draft => (unit source draft).map fun _ => value⟩

def around {α β : Type} (tag : String) (decode : Decoder α) (make : α → β) : Variant β :=
  ⟨tag, .newtype, fun source draft => (decode source draft).map make⟩

def sequenced {αs : List Type} {β : Type} (tag name : String) (fields : Fields αs)
    (make : Product αs → β) : Variant β :=
  ⟨tag, .tuple, fun source draft =>
    (tuple ("tuple variant " ++ name)
      (countedElements ("tuple variant " ++ name) fields.keys.length) fields source draft).map
        make⟩

def structured {αs : List Type} {β : Type} (tag name : String) (fields : Fields αs)
    (make : Product αs → β) : Variant β :=
  ⟨tag, .record, fun source draft =>
    (record ("struct variant " ++ name) .ignored fields source draft).map make⟩

def pick {α : Type} (variants : List (Variant α)) (tag : String) : Except Failure (Variant α) :=
  match variants.find? fun v => v.tag == tag with
  | some v => .ok v
  | none => fail (.unknownVariant tag (variants.map Variant.tag))

def ofTag {α : Type} (variants : List (Variant α)) (source : Source) (tag : String) :
    Except Failure α := do
  let v ← pick variants tag
  under (.key tag)
    (match v.shape with
    | .unit => v.decode source .null
    | shape => fail (.invalidType .unitVariant shape.expected))

def lacksColon : Json.Draft → Bool
  | .broken fault => fault.reason == .expectedColon || fault.reason == .endInObject
  | _ => false

def afterVariant (rest : List (String × Json.Draft)) (stop : Option Json.Fault) :
    Except Failure Unit :=
  match rest, stop with
  | [], none => .ok ()
  | [], some fault =>
    if fault.reason = .endInObject then fail (.malformed .endInObject)
    else fail (.malformed .expectedValue)
  | _, _ => fail (.malformed .expectedValue)

def noVariant {α : Type} : Option Json.Fault → Except Failure α
  | none => fail (.malformed .expectedValue)
  | some fault =>
    match fault.reason with
    | .endInObject => fail (.malformed .endInValue)
    | .expectedKey => fail (.malformed .expectedValue)
    | reason => fail (.malformed reason)

def choice {α : Type} (variants : List (Variant α)) : Decoder α
  | source, .string tag => ofTag variants source tag
  | .text, .object [] stop => noVariant stop
  | .text, .object ((tag, content) :: rest) stop => do
    let v ← pick variants tag
    if lacksColon content then mismatch "" content
    else do
      let value ← under (.key tag) (v.decode .text content)
      afterVariant rest stop
      return value
  | .value, .object [(tag, content)] _ => do
    let v ← pick variants tag
    under (.key tag) (v.decode .value content)
  | .value, .object _ _ => fail (.invalidValue .map "map with a single key")
  | _, .broken fault => fail (.malformed fault.reason)
  | .text, _ => fail (.malformed .expectedValue)
  | .value, draft => mismatch "string or map" draft

def names {α : Type} (table : List (String × α)) : Decoder α :=
  choice (table.map fun (tag, value) => bare tag value)

end SchemaCompiler.Decode

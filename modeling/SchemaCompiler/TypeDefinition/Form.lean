import SchemaCompiler.CompileError
import SchemaCompiler.Decode.Variant

/-!
# Type definitions

A type definition says of which form a JSON value is. Its document is decoded member by member, and
then folded into a form, of which there is exactly one.
-/
namespace SchemaCompiler.TypeDefinition

/-- A type of scalars. -/
inductive ScalarType where
  | boolean
  | string
  | timestamp
  | float32
  | float64
  | int8
  | uint8
  | int16
  | uint16
  | int32
  | uint32
deriving DecidableEq, Repr, Inhabited

namespace ScalarType

def all : List ScalarType :=
  [boolean, string, timestamp, float32, float64, int8, uint8, int16, uint16, int32, uint32]

def name : ScalarType → String
  | boolean => "boolean"
  | string => "string"
  | timestamp => "timestamp"
  | float32 => "float32"
  | float64 => "float64"
  | int8 => "int8"
  | uint8 => "uint8"
  | int16 => "int16"
  | uint16 => "uint16"
  | int32 => "int32"
  | uint32 => "uint32"

def bounds? : ScalarType → Option (Int × Int)
  | int8 => some (-128, 127)
  | uint8 => some (0, 255)
  | int16 => some (-32768, 32767)
  | uint16 => some (0, 65535)
  | int32 => some (-2147483648, 2147483647)
  | uint32 => some (0, 4294967295)
  | _ => none

end ScalarType

/-- The form of a value. -/
inductive Form where
  /-- Any value. -/
  | empty
  /-- A value of the form that a name stands for. -/
  | ref (name : String)
  /-- A scalar. -/
  | type (type : ScalarType)
  /-- One of some texts. -/
  | enum (values : List String)
  /-- An array. -/
  | elements (item : Form)
  /-- An object with known properties; others are allowed only with `additional`. -/
  | properties (required optional : List (String × Form)) (additional : Bool)
  /-- An object with any properties. -/
  | values (item : Form)
  /-- An object whose property `tag` selects the form of the others. -/
  | discriminator (tag : String) (mapping : List (String × Form))
  /-- A value of a form, or `null`. -/
  | nullable (form : Form)
deriving Inhabited, Repr

namespace Form

mutual
def hasRef : Form → Bool
  | ref _ => true
  | empty => false
  | type _ => false
  | enum _ => false
  | elements item => hasRef item
  | values item => hasRef item
  | nullable form => hasRef form
  | properties required optional _ => anyHasRef required || anyHasRef optional
  | discriminator _ mapping => anyHasRef mapping

def anyHasRef : List (String × Form) → Bool
  | [] => false
  | (_, f) :: rest => hasRef f || anyHasRef rest
end

end Form

/-- A type definition: the form of the value, and the forms that names stand for. -/
structure Schema where
  definitions : List (String × Form)
  root : Form
deriving Inhabited

/-! ## Documents -/

/-- A type definition as written. -/
inductive Document where
  | mk (definitions : Option (List (String × Document))) (nullable : Bool)
    (ref : Option String) (type : Option ScalarType) (enum : Option (List String))
    (elements : Option Document) (properties optional : Option (List (String × Document)))
    (additional : Option Bool) (values : Option Document) (discriminator : Option String)
    (mapping : Option (List (String × Document)))
deriving Inhabited

namespace Document

def typeNames : List (String × ScalarType) := ScalarType.all.map fun t => (t.name, t)

def decodeTo : Nat → Decode.Decoder Document
  | 0 => fun _ _ => Decode.fail (.refused "definitions go too deep")
  | depth + 1 => fun source draft => do
    let inner := decodeTo depth
    let (definitions, nullable, _, ref, type, enum, elements, properties, optional, additional,
        values, discriminator, mapping, ()) ←
      Decode.record "struct Raw" .refused
        (.cons (Decode.optional "definitions" (Decode.map inner))
          (.cons (Decode.defaulted "nullable" Decode.bool false)
          (.cons (Decode.optional "metadata" (Decode.map Decode.json))
          (.cons (Decode.optional "ref" Decode.string)
          (.cons (Decode.optional "type" (Decode.names typeNames))
          (.cons (Decode.optional "enum" (Decode.list Decode.string))
          (.cons (Decode.optional "elements" inner)
          (.cons (Decode.optional "properties" (Decode.map inner))
          (.cons (Decode.optional "optionalProperties" (Decode.map inner))
          (.cons (Decode.optional "additionalProperties" Decode.bool)
          (.cons (Decode.optional "values" inner)
          (.cons (Decode.optional "discriminator" Decode.string)
          (.cons (Decode.optional "mapping" (Decode.map inner)) .nil)))))))))))))
        source draft
    return .mk definitions nullable ref type enum elements properties optional additional values
      discriminator mapping

def bad {α : Type} (path : String) (fault : Fault) : Except CompileError α :=
  .error (.invalidTypeDefinition path fault)

def ofJson (v : Json) : Except CompileError Document :=
  match decodeTo ((Json.Draft.ofJson v).depth + 1) .value (Json.Draft.ofJson v) with
  | .ok d => .ok d
  | .error failure => bad failure.pathText (.undecodable failure)

def firstRepeated (seen : List String) : List String → Option String
  | [] => none
  | v :: rest => if seen.contains v then some v else firstRepeated (v :: seen) rest

def enumForm (path : String) (values : List String) : Except CompileError Form :=
  if values.isEmpty then bad (path ++ "/enum") .emptyEnum
  else
    match firstRepeated [] values with
    | some v => bad (path ++ "/enum") (.repeatedEnum v)
    | none => .ok (.enum values)

/-- The form of an object with known properties; none is both required and optional. -/
def propertiesForm (path : String) (required optional : List (String × Form))
    (additional : Bool) : Except CompileError Form :=
  match required.find? fun (k, _) => Assoc.contains k optional with
  | some (k, _) => bad path (.requiredAndOptional k)
  | none => .ok (.properties required optional additional)

/-- The forms that tags select are objects with known properties, the tag not among them. -/
def checkMapping (path tag : String) : List (String × Form) → Except CompileError Unit
  | [] => .ok ()
  | (value, .properties required optional _) :: rest =>
    if Assoc.contains tag required || Assoc.contains tag optional then
      bad (path ++ "/mapping/" ++ Json.Pointer.escape value) (.redefinesTag tag)
    else checkMapping path tag rest
  | (value, _) :: _ => bad (path ++ "/mapping/" ++ Json.Pointer.escape value) .notProperties

def combinationFault? (path : String) : Document → Option Fault
  | .mk definitions _ ref type enum elements properties optional additional values discriminator
      mapping =>
    let isProperties := properties.isSome || optional.isSome
    let forms := [ref.isSome, type.isSome, enum.isSome, elements.isSome, isProperties,
      values.isSome, discriminator.isSome]
    if definitions.isSome && !path.isEmpty then some .nestedDefinitions
    else if forms.countP id > 1 then some .mixedForms
    else if additional.isSome && !isProperties then some .strayAdditional
    else if mapping.isSome != discriminator.isSome then some .loneMapping
    else none

mutual
def form (path : String) : Document → Except CompileError Form
  | .mk definitions isNullable ref type enum elements properties optional additional values
      discriminator mapping => do
    match combinationFault? path
      (.mk definitions isNullable ref type enum elements properties optional additional values
        discriminator mapping) with
    | some fault => bad path fault
    | none =>
      let form ←
        match ref, type, enum with
        | some name, _, _ => pure (.ref name)
        | none, some t, _ => pure (.type t)
        | none, none, some values => enumForm path values
        | none, none, none => do
          match ← formOf (path ++ "/elements") elements with
          | some item => pure (.elements item)
          | none =>
            if properties.isSome || optional.isSome then
              let required ← formsOf (path ++ "/properties") properties
              let optional ← formsOf (path ++ "/optionalProperties") optional
              propertiesForm path required optional (additional.getD false)
            else
              match ← formOf (path ++ "/values") values with
              | some item => pure (.values item)
              | none =>
                match discriminator with
                | none => pure .empty
                | some tag => do
                  let mapping ← formsOf (path ++ "/mapping") mapping
                  checkMapping path tag mapping
                  pure (.discriminator tag mapping)
      return if isNullable then .nullable form else form

def formOf (path : String) : Option Document → Except CompileError (Option Form)
  | none => .ok none
  | some d => (form path d).map some

def formsOf (path : String) :
    Option (List (String × Document)) → Except CompileError (List (String × Form))
  | none => .ok []
  | some ds => forms path ds

def forms (path : String) :
    List (String × Document) → Except CompileError (List (String × Form))
  | [] => .ok []
  | (key, d) :: rest => do
    let f ← form (path ++ "/" ++ Json.Pointer.escape key) d
    let fs ← forms path rest
    return (key, f) :: fs
end

def definitions : Document → List (String × Document)
  | .mk definitions .. => definitions.getD []

end Document

namespace Schema

mutual
def checkRefs (known : List (String × Form)) (path : String) : Form → Except CompileError Unit
  | .ref name =>
    if Assoc.contains name known then .ok () else Document.bad path (.undefinedRef name)
  | .elements item => checkRefs known (path ++ "/elements") item
  | .values item => checkRefs known (path ++ "/values") item
  | .nullable form => checkRefs known path form
  | .properties required optional _ => do
    checkRefsIn known (path ++ "/properties") required
    checkRefsIn known (path ++ "/optionalProperties") optional
  | .discriminator _ mapping => checkRefsIn known (path ++ "/mapping") mapping
  | .empty => .ok ()
  | .type _ => .ok ()
  | .enum _ => .ok ()

def checkRefsIn (known : List (String × Form)) (path : String) :
    List (String × Form) → Except CompileError Unit
  | [] => .ok ()
  | (key, f) :: rest => do
    checkRefs known (path ++ "/" ++ Json.Pointer.escape key) f
    checkRefsIn known path rest
end

def ofJson (v : Json) : Except CompileError Schema := do
  let document ← Document.ofJson v
  let definitions ← Document.forms "/definitions" document.definitions
  let root ← Document.form "" document
  checkRefs definitions "" root
  checkRefsIn definitions "/definitions" definitions
  return ⟨definitions, root⟩

end Schema
end SchemaCompiler.TypeDefinition

import SchemaCompiler.TypeDefinition.Options
import SchemaCompiler.TypeDefinition.Unit

/-!
# Serializers

The serializer of a type definition is a program that writes the text of a value of its form. It
takes the value to be of that form. Each function joins pieces to one text.
-/
namespace SchemaCompiler.TypeDefinition.Serializer

abbrev Emit (α : Type) := Gen Defined α

def dataName : Name := ⟨"data", Eq.refl true⟩

def serializeStem : Stem := .of "serialize"

def textStem : LocalStem := .of "json"

def valueStem : LocalStem := .of "value"

def indexStem : LocalStem := .of "i"

def keyStem : LocalStem := .of "key"

def firstStem : LocalStem := .of "first"

def tagStem : LocalStem := .of "tag"

def write (text : Name) (piece : Expr) : Emit Unit := Gen.add text piece

def writeCall (text : Name) (routine : Primitive) (argument : Expr) : Emit Unit := do
  let f ← Gen.primitive routine
  write text (.callName f [argument])

def bind : Expr → Emit Name
  | .var name => return name
  | e => Gen.constant valueStem e

/-- What is known of the members written so far: none, some, or only when the program runs, by a
mark. -/
inductive Separator where
  | first
  | comma
  | mark (name : Name)

def separate (text : Name) : Separator → Emit Unit
  | .first => return ()
  | .comma => write text (.str ",")
  | .mark first => do
    Gen.ifThen (Expr.var first).negate (write text (.str ","))
    Gen.assign first (.bool false)

def writeKey (text : Name) (key : String) : Emit Unit :=
  write text (.str (Json.quote key ++ ":"))

def writeMember (text key : Name) (value : Emit Unit) : Emit Unit := do
  writeCall text .quote (.var key)
  write text (.str ":")
  value

def writeAdditional (text data : Name) (known : List String) (separator : Separator) :
    Emit Unit :=
  Gen.forKeys keyStem (.var data) fun key =>
    Gen.ifThen (.all (known.map fun k => .differs (.var key) (.str k))) do
      separate text separator
      writeMember text key (writeCall text .toJson (.index (.var data) (.var key)))

def unknownTag (tag : Name) : Expr :=
  .object [("message", .str "unknown discriminator tag value"), ("tag", .var tag)]

/-- The separator behind the required members, `hasTag` saying whether a tag was written in front
of them. -/
def afterRequired (hasTag : Bool) (required optional : List (String × Form))
    (additional : Bool) : Emit Separator :=
  if hasTag || !required.isEmpty then return .comma
  else if !optional.isEmpty || additional then do
    return .mark (← Gen.declare firstStem (.bool true))
  else return .first

def object (text data : Name) (required optional : List (String × Form)) (additional : Bool)
    (tag : Option (String × String)) (writeRequired : Separator → Emit Unit)
    (writeOptional : Separator → Emit Unit) : Emit Unit := do
  write text (.str "\x7b")
  match tag with
  | some (tag, value) => do
    write text (.str (Json.quote tag ++ ":" ++ Json.quote value))
    writeRequired .comma
  | none => writeRequired .first
  let separator ← afterRequired tag.isSome required optional additional
  writeOptional separator
  if additional then
    let known := required.map Prod.fst ++ optional.map Prod.fst ++ (tag.map Prod.fst).toList
    writeAdditional text data known separator
  write text (.str "\x7d")

mutual
/-- Writes a value of a form. `onRef` writes a value of the form of a name. -/
def ofForm (onRef : String → Expr → Emit Unit) (text : Name) : Form → Expr → Emit Unit
  | .type .string, data => writeCall text .quote data
  | .type .timestamp, data => writeCall text .quote data
  | .enum _, data => writeCall text .quote data
  | .empty, data => writeCall text .toJson data
  | .type _, data => writeCall text .toJson data
  | .ref name, data => onRef name data
  | .elements item, data => do
    let data ← bind data
    write text (.str "[")
    Gen.forRange indexStem (.nat 0) (.len (.var data)) fun i => do
      Gen.ifThen (.binary .gt (.var i) (.nat 0)) (write text (.str ","))
      ofForm onRef text item (.index (.var data) (.var i))
    write text (.str "]")
  | .values item, data => do
    let data ← bind data
    write text (.str "\x7b")
    let first ← Gen.declare firstStem (.bool true)
    Gen.forKeys keyStem (.var data) fun key => do
      separate text (.mark first)
      writeMember text key (ofForm onRef text item (.index (.var data) (.var key)))
    write text (.str "\x7d")
  | .properties required optional additional, data => do
    let data ← bind data
    object text data required optional additional none
      (fun separator => requiredMembers onRef text data separator required)
      (fun separator => optionalMembers onRef text data separator optional)
  | .discriminator tag mapping, data => do
    let data ← bind data
    let found ← Gen.constant tagStem (.index (.var data) (.str tag))
    Gen.choose (mappingArms onRef text data found tag mapping)
      (Gen.emit (.throw (unknownTag found)))
  | .nullable form, data => do
    let data ← bind data
    Gen.ifElse (.equals (.var data) .null) (write text (.str "null"))
      (ofForm onRef text form (.var data))

def requiredMembers (onRef : String → Expr → Emit Unit) (text data : Name)
    (separator : Separator) : List (String × Form) → Emit Unit
  | [] => return ()
  | (name, form) :: rest => do
    separate text separator
    writeKey text name
    ofForm onRef text form (.index (.var data) (.str name))
    requiredMembers onRef text data .comma rest

def optionalMembers (onRef : String → Expr → Emit Unit) (text data : Name)
    (separator : Separator) : List (String × Form) → Emit Unit
  | [] => return ()
  | (name, form) :: rest => do
    Gen.ifThen (.has (.var data) (.str name)) do
      separate text separator
      writeKey text name
      ofForm onRef text form (.index (.var data) (.str name))
    optionalMembers onRef text data separator rest

def mappingArms (onRef : String → Expr → Emit Unit) (text data found : Name) (tag : String) :
    List (String × Form) → List (Expr × Emit Unit)
  | [] => []
  | (value, form) :: rest =>
    (.equals (.var found) (.str value), selected onRef text data tag value form)
      :: mappingArms onRef text data found tag rest

def selected (onRef : String → Expr → Emit Unit) (text data : Name) (tag value : String) :
    Form → Emit Unit
  | .properties required optional additional =>
    object text data required optional additional (some (tag, value))
      (fun separator => requiredMembers onRef text data separator required)
      (fun separator => optionalMembers onRef text data separator optional)
  | _ => throw (.invalidTypeDefinition "/mapping" .notProperties)
end

/-! ## Functions -/

def emitFunction (onRef : Name → String → Expr → Emit Unit) (function : Name) (form : Form) :
    Emit Unit :=
  Gen.function function [dataName] false do
    let text ← Gen.declare textStem (.str "")
    ofForm (onRef text) text form (.var dataName)
    Gen.emit (.return (.var text))

def functionFor (name : String) (define : Name → Emit Unit) : Emit Name := do
  match Assoc.get? name (← Gen.session) with
  | some function => return function
  | none => do
    let function ← Gen.onScope (ValueScope.fresh serializeStem)
    Gen.modifySession fun defined => Assoc.insert name function defined
    define function
    return function

/-- Writes a value of the form of a name to a text, by its function. At most `rounds` functions are
begun inside each other. -/
def ofName (definitions : List (String × Form)) :
    Nat → Name → String → Expr → Emit Unit
  | rounds, text, name, data =>
    match Assoc.get? name definitions with
    | none => throw (undefinedRef name)
    | some form =>
      if !form.hasRef then
        ofForm (fun inner _ => throw (undefinedRef inner)) text form data
      else do
        let function ← functionFor name fun function =>
          match rounds with
          | 0 => throw (.endless name)
          | rounds + 1 => emitFunction (ofName definitions rounds) function form
        write text (.callName function [data])

end Serializer

/-- The serializer of a type definition. -/
structure Serializer extends Compiled

namespace Serializer

def emitEntry (schema : Schema) : Emit Name := do
  let entry ← Gen.onScope (ValueScope.fresh serializeStem)
  emitFunction (ofName schema.definitions schema.definitions.length) entry schema.root
  return entry

def compile (options : Options) (definition : Json) : Except CompileError Serializer := do
  let schema ← Schema.ofJson definition
  let compiled ← Compiled.ofEmission options.maxDepth [] (emitEntry schema)
  return ⟨compiled⟩

def serialize (s : Serializer) (v : Json) : Except RuntimeError String := do
  let outcome ← Machine.run s.program s.entry [v]
  match outcome.result with
  | .ok (.string text) => return text
  | .ok other => throw (.malformed (.unexpectedResult other))
  | .error thrown => throw (.uncaught thrown)

end Serializer
end SchemaCompiler.TypeDefinition

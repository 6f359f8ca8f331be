import SchemaCompiler.Compiler.Basic
import SchemaCompiler.Json.Debug
import SchemaCompiler.TypeDefinition.Parser
import SchemaCompiler.TypeDefinition.Serializer

/-!
# Groups of cases

A suite file is a list of groups. A group has a schema and cases, each with data and the verdict
that is expected of it.
-/
namespace SchemaCompiler.Suite

/-- What the schema of a group is. -/
inductive GroupKind where
  | jsonSchema
  | typeDefinition
deriving DecidableEq, Repr, Inhabited

/-- A case. Those of type definitions have a text, and may have the value that is expected of
it. -/
structure Case where
  description : String
  data : Json
  text : Option String
  valid : Bool
  value : Option Json

/-- A group of cases. -/
structure Group where
  description : String
  kind : GroupKind
  schema : Json
  options : Option Json
  /-- Whether the schema itself has to be rejected. -/
  invalidSchema : Bool
  cases : List Case

namespace Case

def decode : Decode.Decoder Case := fun source draft => do
  let (description, data, text, valid, value, ()) ←
    Decode.record "struct Case" .ignored
      (.cons (Decode.required "description" Decode.string)
        (.cons (Decode.defaulted "data" Decode.json .null)
        (.cons (Decode.defaulted "json" (Decode.option Decode.string) none)
        (.cons (Decode.required "valid" Decode.bool)
        (.cons (Decode.defaulted "value" (Decode.option Decode.json) none) .nil)))))
      source draft
  return ⟨description, data, text, valid, value⟩

end Case

namespace Group

def decode : Decode.Decoder Group := fun source draft => do
  let (description, kind, schema, options, invalidSchema, cases, ()) ←
    Decode.record "struct Group" .ignored
      (.cons (Decode.required "description" Decode.string)
        (.cons (Decode.defaulted "kind"
          (Decode.names [("jsonSchema", GroupKind.jsonSchema), ("jtd", .typeDefinition)])
          .jsonSchema)
        (.cons (Decode.required "schema" Decode.json)
        (.cons (Decode.defaulted "options" (Decode.option Decode.json) none)
        (.cons (Decode.defaulted "invalidSchema" Decode.bool false)
        (.cons (Decode.defaulted "tests" (Decode.list Case.decode) []) .nil))))))
      source draft
  return ⟨description, kind, schema, options, invalidSchema, cases⟩

end Group

def readGroups (text : String) : Except String (List Group) :=
  let (draft, rest) := Json.readDraft text.toList
  match Decode.list Group.decode .text draft with
  | .error failure => .error failure.message
  | .ok groups =>
    if rest.all fun cs => cs.all Json.isBlank then .ok groups
    else .error Json.Reason.trailingCharacters.message

/-- What came of a case: nothing, or why it failed. -/
structure CaseOutcome where
  group : String
  case : String
  failure : Option String
deriving DecidableEq, Repr

/-- How groups are run. -/
structure RunOptions where
  allErrors : Bool
  /-- Whether validators are also stored, loaded and compared. -/
  standalone : Bool
deriving DecidableEq, Repr

def errorText (e : ValidationError) : String :=
  "ValidationError \x7b instance_path: " ++ Text.quoted e.instancePath ++ ", schema_path: "
    ++ Text.quoted e.schemaPath ++ ", keyword: " ++ Text.quoted e.keyword ++ ", params: \x7b"
    ++ Json.taggedMembers e.params ++ "\x7d, message: " ++ Text.quoted e.message ++ " \x7d"

def errorsText (es : List ValidationError) : String :=
  "[" ++ ", ".intercalate (es.map errorText) ++ "]"

def boolText (b : Bool) : String := if b then "true" else "false"

def sameValidation (a b : Validation) : Bool :=
  a.valid == b.valid
    && Json.same (.array (a.errors.map ValidationError.toJson))
      (.array (b.errors.map ValidationError.toJson))

namespace Group

def outcome (g : Group) (case : String) (failure : Option String) : CaseOutcome :=
  ⟨g.description, case, failure⟩

/-- The outcomes of a group, by what compiled its schema and what runs a case. -/
def outcomes {α : Type} (g : Group) (compiled : Except String α)
    (run : α → Case → Option String) : List CaseOutcome :=
  match compiled, g.invalidSchema with
  | .error _, true => [g.outcome "schema is rejected" none]
  | .ok _, true => [g.outcome "schema is rejected" (some "compiled")]
  | .error message, false => [g.outcome "schema compiles" (some message)]
  | .ok a, false => g.cases.map fun c => g.outcome c.description (run a c)

/-! ## JSON Schema -/

/-- The validator of a schema, and the one that was stored and loaded if that is asked for. -/
def validators (run : RunOptions) (g : Group) :
    Except String (Validator × Option Validator) := do
  let options ←
    match g.options with
    | some v => (Options.read v.render).mapError CompileError.message
    | none => pure Options.standard
  let compiler := Compiler.new { options with allErrors := options.allErrors || run.allErrors }
  let (live, compiler) := compiler.compile g.schema
  let live ← live.mapError CompileError.message
  if run.standalone then
    let (stored, _) := compiler.compileStored g.schema
    let stored ← stored.mapError CompileError.message
    let loaded ← (stored.load Imports.none).mapError RuntimeError.message
    return (live, some loaded)
  else return (live, none)

def caseFailure (validators : Validator × Option Validator) (c : Case) : Option String :=
  match validators.1.validate c.data with
  | .error e => some ("runtime fault: " ++ e.message)
  | .ok v =>
    if v.valid != c.valid then
      some ("expected valid=" ++ boolText c.valid ++ ", got " ++ errorsText v.errors)
    else
      validators.2.bind fun stored =>
        match stored.validate c.data with
        | .ok again =>
          if sameValidation again v then none else some "standalone module disagrees"
        | .error e => some ("standalone fault: " ++ e.message)

/-! ## Type definitions -/

def converters (g : Group) :
    Except String (TypeDefinition.Parser × TypeDefinition.Serializer) := do
  let options ←
    match g.options with
    | some v => (TypeDefinition.Options.read v.render).mapError CompileError.message
    | none => pure TypeDefinition.Options.standard
  let parser ← (TypeDefinition.Parser.compile options g.schema).mapError CompileError.message
  let serializer ←
    (TypeDefinition.Serializer.compile options g.schema).mapError CompileError.message
  return (parser, serializer)

/-- Why a value that was read is not right, if it is not: it has to be the expected one, and its
text has to be read back as the same value. -/
def valueFailure (parser : TypeDefinition.Parser) (serializer : TypeDefinition.Serializer)
    (expected : Option Json) (v : Json) : Option String :=
  let wrong : Option Json := expected.bind fun e => if Json.same e v then none else some e
  match wrong with
  | some e => some ("parsed " ++ v.render ++ ", expected " ++ e.render)
  | none =>
    match serializer.serialize v with
    | .error e => some ("serializer fault: " ++ e.message)
    | .ok text =>
      let back : Bool :=
        match parser.parse text with
        | .parsed again _ => Json.same again v
        | .failed _ _ => false
      if back then none else some "serialized text does not parse back to the same value"

def textFailure (converters : TypeDefinition.Parser × TypeDefinition.Serializer) (c : Case) :
    Option String :=
  match c.text with
  | none => some "JTD cases need \"json\" text"
  | some text =>
    match converters.1.parse text, c.valid with
    | .parsed v _, true => valueFailure converters.1 converters.2 c.value v
    | .failed _ _, false => none
    | .parsed v _, false => some ("expected a failure, parsed " ++ v.render)
    | .failed message position, true =>
      some ("failed at " ++ toString position ++ ": " ++ message)

def run (options : RunOptions) (g : Group) : List CaseOutcome :=
  match g.kind with
  | .jsonSchema => g.outcomes (g.validators options) caseFailure
  | .typeDefinition => g.outcomes g.converters textFailure

end Group
end SchemaCompiler.Suite

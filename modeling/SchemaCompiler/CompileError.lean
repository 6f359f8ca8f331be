import SchemaCompiler.Builder.Misuse
import SchemaCompiler.Machine.LiveValue
import SchemaCompiler.Template
import SchemaCompiler.TypeDefinition.Fault
import SchemaCompiler.Url.Reader

/-!
# Errors of compilation

An error ends the compilation that it arises in. A value that does not fit its schema is no error:
that is what the compiled program reports. All wordings are here.
-/
namespace SchemaCompiler

/-- What is wrong at a place of a schema. -/
inductive SchemaFault where
  | notASchema
  | wrongType (expected : List JsonType)
  | notSchemas (found : Json)
  | noTarget
  | badDataPointer (pointer : String)
  | notAbsolute (fault : Url.Fault)
  | badUri (fault : Url.Fault)
  | badId (id : String) (fault : Url.Fault)
  | alreadyIdentifies (uri other : String)
  | typeNotString (found : Json)
  | unknownType (name : String)
  | repeatedType (name : String)
  | notPositive
  | notNatural
  | badPattern (source : String) (fault : Pattern.Fault)
  | itemNotString (keyword : String)
  | repeatedItem (keyword item : String)
  | noTagName
  | badMapping
  | untagged (branch : Nat) (property : String)
  | asyncFormat (name : String)
  | undecodable (failure : Decode.Failure)
  | unlinked (fault : LinkFault)
  | refused (reason : String)

namespace SchemaFault

def unknownTypeText (name : String) : String := "unknown type " ++ Text.quoted name

def message : SchemaFault → String
  | notASchema => "schema must be an object or a boolean"
  | wrongType expected => "value must be " ++ " or ".intercalate (expected.map JsonType.name)
  | notSchemas found => "expected schemas, found " ++ found.render
  | noTarget => "reference target does not exist"
  | badDataPointer pointer => "invalid $data pointer " ++ Text.quoted pointer
  | notAbsolute fault => "schema id is not an absolute URI: " ++ fault.message
  | badUri fault => fault.message
  | badId id fault => "bad $id " ++ Text.quoted id ++ ": " ++ fault.message
  | alreadyIdentifies uri other => uri ++ " already identifies the schema at " ++ other
  | typeNotString found => "type names must be strings, found " ++ found.render
  | unknownType name => unknownTypeText name
  | repeatedType name => "type " ++ Text.quoted name ++ " is listed twice"
  | notPositive => "multipleOf must be greater than 0"
  | notNatural => "must be a non-negative integer"
  | badPattern source fault => "invalid pattern " ++ Text.quoted source ++ ": " ++ fault.message
  | itemNotString keyword => keyword ++ " items must be strings"
  | repeatedItem keyword item => keyword ++ " lists " ++ Text.quoted item ++ " twice"
  | noTagName => "discriminator needs a string \"propertyName\""
  | badMapping => "discriminator \"mapping\" must map tags to reference strings"
  | untagged branch property =>
    "oneOf/" ++ toString branch ++ " has no string const or enum for tag \"" ++ property
      ++ "\" and no mapping entry"
  | asyncFormat name => "async format " ++ Text.quoted name ++ " in sync schema"
  | undecodable failure => failure.message
  | unlinked fault => fault.message
  | refused reason => reason

end SchemaFault

/-- What is wrong with the definition of a keyword. -/
inductive DefinitionFault where
  | alreadyDefined
  | emptyName
  | badTemplate (source : String) (fault : Template.Fault)
  | dependsOnItself
  | expansionTakesData
  | annotationReports

def DefinitionFault.message : DefinitionFault → String
  | alreadyDefined => "keyword is already defined"
  | emptyName => "keyword name is empty"
  | badTemplate source fault => fault.message source
  | dependsOnItself => "keyword cannot depend on itself"
  | expansionTakesData => "macro keywords cannot accept $data"
  | annotationReports =>
    "annotations do not validate, so $data and error templates make no sense"

/-- A reference that leads nowhere from a base. -/
structure MissingReference where
  reference : String
  base : Url
deriving DecidableEq, Repr

/-- The document that a loader would have to supply. It stays folded where a compilation is unfolded. -/
@[irreducible] def MissingReference.document (m : MissingReference) : String :=
  match m.base.join m.reference with
  | .ok target => target.withoutFragment.toText
  | .error _ => m.reference

def MissingReference.message (m : MissingReference) : String :=
  "can't resolve reference " ++ m.reference ++ " from id " ++ m.base.toText

/-- Why a compilation gives no program. -/
inductive CompileError where
  | invalidSchema (path : String) (fault : SchemaFault)
  | unknownKeyword (keyword path : String)
  | missingSibling (keyword sibling path : String)
  | duplicateTag (tag path : String)
  | notStorable (name : Name)
  | unfilledSlot (name : Name)
  | asyncReference (path : String)
  | missingReference (missing : MissingReference)
  | unresolvedReference (missing : MissingReference)
  | invalidDefinition (keyword : String) (fault : DefinitionFault)
  | unknownFormat (format path : String)
  | invalidPattern (source : String) (fault : Pattern.Fault)
  | invalidTypeDefinition (path : String) (fault : TypeDefinition.Fault)
  | misuse (misuse : Misuse)
  | endless (path : String)

def CompileError.message : CompileError → String
  | invalidSchema path fault => "schema is invalid at " ++ path ++ ": " ++ fault.message
  | unknownKeyword keyword path =>
    "strict mode: unknown keyword " ++ Text.quoted keyword ++ " at " ++ path
  | missingSibling keyword sibling path =>
    "keyword " ++ Text.quoted keyword ++ " at " ++ path ++ " requires sibling keyword "
      ++ Text.quoted sibling
  | duplicateTag tag path =>
    "discriminator at " ++ path ++ ": tag value " ++ Text.quoted tag ++ " is mapped more than once"
  | notStorable name =>
    "standalone code: value " ++ name.text ++ " has no literal or import form"
  | unfilledSlot name => "forward reference " ++ name.text ++ " was never filled"
  | asyncReference path => "async schema referenced by sync schema at " ++ path
  | missingReference missing => missing.message
  | unresolvedReference missing => "unresolved reference: " ++ missing.message
  | invalidDefinition keyword fault =>
    "invalid keyword definition " ++ Text.quoted keyword ++ ": " ++ fault.message
  | unknownFormat format path => "unknown format " ++ Text.quoted format ++ " at " ++ path
  | invalidPattern source fault =>
    "invalid regular expression " ++ Text.quoted source ++ ": " ++ fault.message
  | invalidTypeDefinition path fault =>
    "invalid JTD schema at " ++ path ++ ": " ++ fault.message
  | misuse m => m.message
  | endless path => "the schema at " ++ path ++ " does not come to its end"

end SchemaCompiler

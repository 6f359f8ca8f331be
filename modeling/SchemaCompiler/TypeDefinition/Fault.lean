import SchemaCompiler.Decode.Failure

/-!
# Faults of type definitions

What can be wrong with a type definition. All wordings are here.
-/
namespace SchemaCompiler.TypeDefinition

/-- What is wrong at a place of a type definition. -/
inductive Fault where
  | undecodable (failure : Decode.Failure)
  | nestedDefinitions
  | mixedForms
  | strayAdditional
  | loneMapping
  | emptyEnum
  | repeatedEnum (value : String)
  | requiredAndOptional (key : String)
  | redefinesTag (tag : String)
  | notProperties
  | undefinedRef (name : String)
deriving DecidableEq, Repr

def Fault.message : Fault → String
  | undecodable failure => failure.message
  | nestedDefinitions => "definitions are only allowed at the root"
  | mixedForms => "schema mixes keywords of more than one form"
  | strayAdditional => "additionalProperties needs properties or optionalProperties"
  | loneMapping => "discriminator and mapping go together"
  | emptyEnum => "enum must not be empty"
  | repeatedEnum value => "enum repeats " ++ Text.quoted value
  | requiredAndOptional key => Text.quoted key ++ " is both required and optional"
  | redefinesTag tag => "mapping redefines the tag " ++ Text.quoted tag
  | notProperties => "mapping values must be non-nullable properties forms"
  | undefinedRef name => "ref " ++ Text.quoted name ++ " has no definition"

end SchemaCompiler.TypeDefinition

import SchemaCompiler.Proofs.Json.Printing
import SchemaCompiler.Proofs.TypeDefinition.Acceptance
import SchemaCompiler.Proofs.TypeDefinition.Accepted
import SchemaCompiler.Proofs.TypeDefinition.Parsing.Running

/-!
# Parsers accept the texts of values that conform

The parser of a type definition reads a text exactly if the text is JSON and its value conforms to
the definition; it reads it to the end, and gives its value up to the order of members.

Three limits are part of this. Places in a text are binary64 numbers, which are exact for texts of
up to `2 ^ 53` bytes. Values without a form of their own are read by a routine that allows a nesting
of 127. And calls may go only so deep.
-/
namespace SchemaCompiler.TypeDefinition.Parser

open Json (IsText)

def sizesDefinition : Json := .object [
  ("definitions", .object [("sizes", .object [
    ("properties", .object [("size", .object [("type", .string "uint8")])]),
    ("optionalProperties", .object [("next", .object [("ref", .string "sizes")])])])]),
  ("ref", .string "sizes")]

def sizesSchema : Schema :=
  ⟨[("sizes", .properties [("size", .type .uint8)] [("next", .ref "sizes")] false)], .ref "sizes"⟩

def twoSizes : Json :=
  .object [("next", .object [("size", .number (.int 2))]), ("size", .number (.int 1))]

end SchemaCompiler.TypeDefinition.Parser

import SchemaCompiler.Options

/-!
# Options for type definitions
-/
namespace SchemaCompiler.TypeDefinition

/-- How type definitions are compiled. -/
structure Options where
  /-- Whether blanks between tokens are read over. -/
  whitespace : Bool
  /-- The deepest that calls of compiled programs may go. -/
  maxDepth : Nat
deriving DecidableEq, Repr

namespace Options

def standard : Options := ⟨false, defaultDepth⟩

instance : Inhabited Options := ⟨standard⟩

def decode : Decode.Decoder Options := fun source draft => do
  let (whitespace, maxDepth, ()) ←
    Decode.record "struct JtdOptions" .refused
      (.cons (Decode.defaulted "whitespace" Decode.bool standard.whitespace)
        (.cons (Decode.defaulted "maxDepth" Decode.nat standard.maxDepth) .nil))
      source draft
  return ⟨whitespace, maxDepth⟩

def read (text : String) : Except CompileError Options :=
  (decode .text (Json.readDraft text.toList).1).mapError SchemaCompiler.Options.invalid

end Options
end SchemaCompiler.TypeDefinition

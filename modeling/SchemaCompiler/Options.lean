import SchemaCompiler.CompileError
import SchemaCompiler.Decode.Variant

/-!
# Options of the compiler

How schemas are compiled. Options are read from a JSON object, each with a value of its own accord.
-/
namespace SchemaCompiler

/-- What becomes of keywords that nobody has defined. -/
inductive Strictness where
  | error
  | log
  | off
deriving DecidableEq, Repr, Inhabited

/-- What becomes of references that lead nowhere: an error, nothing, or an error that a loader can
answer. -/
inductive MissingPolicy where
  | fail
  | warn
  | propagate
deriving DecidableEq, Repr, Inhabited

def defaultDepth : Nat := 128

/-- The options of a compiler. -/
structure Options where
  /-- Whether all errors are collected; otherwise validation stops at the first. -/
  allErrors : Bool
  strictness : Strictness
  /-- Whether a value of a keyword may be a pointer into the data. -/
  dataReferences : Bool
  /-- The largest schema, in keywords, that is put in the place of a reference to it. -/
  inlineLimit : Option Nat
  missing : MissingPolicy
  discriminator : Bool
  validateFormats : Bool
  /-- The deepest that calls of compiled programs may go. -/
  maxDepth : Nat
deriving DecidableEq, Repr

/-- The options that decide what a plan is. -/
structure Policy where
  strictness : Strictness
  inlineLimit : Option Nat
  missing : MissingPolicy
  validateFormats : Bool
deriving DecidableEq, Repr

namespace Options

def policy (o : Options) : Policy := ⟨o.strictness, o.inlineLimit, o.missing, o.validateFormats⟩

def defaultInlineLimit : Nat := 8

def standard : Options where
  allErrors := false
  strictness := .error
  dataReferences := false
  inlineLimit := some defaultInlineLimit
  missing := .propagate
  discriminator := false
  validateFormats := true
  maxDepth := defaultDepth

instance : Inhabited Options := ⟨standard⟩

def decodeInlineLimit : Decode.Decoder (Option Nat) := fun source draft => do
  match ← Decode.json source draft with
  | .bool true => return some defaultInlineLimit
  | .bool false => return none
  | value =>
    match value.unsigned? with
    | some n => return some n
    | none =>
      Decode.fail (.refused "data did not match any variant of untagged enum InlineRefs")

def decode : Decode.Decoder Options := fun source draft => do
  let (allErrors, strictness, dataReferences, inlineLimit, missing, discriminator,
      validateFormats, maxDepth, ()) ←
    Decode.record "struct Options" .refused
      (.cons (Decode.defaulted "allErrors" Decode.bool standard.allErrors)
        (.cons (Decode.defaulted "strict"
          (Decode.names [("error", Strictness.error), ("log", .log), ("off", .off)])
          standard.strictness)
        (.cons (Decode.defaulted "data" Decode.bool standard.dataReferences)
        (.cons (Decode.defaulted "inlineRefs" decodeInlineLimit standard.inlineLimit)
        (.cons (Decode.defaulted "missingRefs"
          (Decode.names [("fail", MissingPolicy.fail), ("warn", .warn),
            ("propagate", .propagate)]) standard.missing)
        (.cons (Decode.defaulted "discriminator" Decode.bool standard.discriminator)
        (.cons (Decode.defaulted "validateFormats" Decode.bool standard.validateFormats)
        (.cons (Decode.defaulted "maxDepth" Decode.nat standard.maxDepth) .nil))))))))
      source draft
  return { allErrors, strictness, dataReferences, inlineLimit, missing, discriminator,
           validateFormats, maxDepth }

def invalid (failure : Decode.Failure) : CompileError :=
  .invalidSchema ("options" ++ failure.pathText) (.undecodable failure)

def read (text : String) : Except CompileError Options :=
  (decode .text (Json.readDraft text.toList).1).mapError invalid

end Options
end SchemaCompiler

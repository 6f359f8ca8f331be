import SchemaCompiler.Json.Draft
import SchemaCompiler.Json.Printer
import SchemaCompiler.Text.Quoted

/-!
# Why a document cannot be decoded

A failure has the path of the place where it arose and its cause. All wordings are here.
-/
namespace SchemaCompiler.Decode

/-- One step of the path to a failure: a member or variant, an item, or a key that could not be
read. -/
inductive Segment where
  | key (name : String)
  | item (index : Nat)
  | unread
deriving DecidableEq, Repr

/-- What stood in the place of something else. -/
inductive Found where
  | boolean (value : Bool)
  | number (value : Json.Number)
  | string (value : String)
  | null
  | sequence
  | map
  | unitVariant
deriving DecidableEq, Repr

/-- Why a part of a document cannot be decoded. -/
inductive Cause where
  | invalidType (found : Found) (expected : String)
  | invalidValue (found : Found) (expected : String)
  | invalidLength (length : Nat) (expected : String)
  | unknownField (key : String) (known : List String)
  | unknownVariant (tag : String) (known : List String)
  | missingField (key : String)
  | duplicateField (key : String)
  | malformed (reason : Json.Reason)
  | refused (message : String)
deriving DecidableEq, Repr

/-- A failure of decoding. -/
structure Failure where
  path : List Segment
  cause : Cause
deriving DecidableEq, Repr

namespace Found

def describe : Found → String
  | boolean b => "boolean `" ++ (if b then "true" else "false") ++ "`"
  | number (.int i) => "integer `" ++ toString i ++ "`"
  | number (.float x) => "floating point `" ++ (Json.Number.float x).render ++ "`"
  | string s => "string " ++ Text.quoted s
  | null => "null"
  | sequence => "sequence"
  | map => "map"
  | unitVariant => "unit variant"

end Found

namespace Cause

def ticked (s : String) : String := "`" ++ s ++ "`"

/-- What could have stood in the place of an unknown key; `plural` is for when nothing could. -/
def alternatives (plural : String) : List String → String
  | [] => "there are no " ++ plural
  | [a] => "expected " ++ ticked a
  | [a, b] => "expected " ++ ticked a ++ " or " ++ ticked b
  | many => "expected one of " ++ ", ".intercalate (many.map ticked)

def message : Cause → String
  | invalidType found expected => "invalid type: " ++ found.describe ++ ", expected " ++ expected
  | invalidValue found expected => "invalid value: " ++ found.describe ++ ", expected " ++ expected
  | invalidLength n expected => "invalid length " ++ toString n ++ ", expected " ++ expected
  | unknownField key known => "unknown field " ++ ticked key ++ ", " ++ alternatives "fields" known
  | unknownVariant tag known =>
    "unknown variant " ++ ticked tag ++ ", " ++ alternatives "variants" known
  | missingField key => "missing field " ++ ticked key
  | duplicateField key => "duplicate field " ++ ticked key
  | malformed reason => reason.message
  | refused message => message

end Cause

namespace Failure

def here (cause : Cause) : Failure := ⟨[], cause⟩

def under (segment : Segment) (failure : Failure) : Failure :=
  ⟨segment :: failure.path, failure.cause⟩

/-- The texts of segments: members are divided by dots, items stand in brackets. -/
def segmentsText (first : Bool) : List Segment → String
  | [] => ""
  | .item i :: rest => "[" ++ toString i ++ "]" ++ segmentsText false rest
  | .key k :: rest => (if first then "" else ".") ++ k ++ segmentsText false rest
  | .unread :: rest => (if first then "" else ".") ++ "?" ++ segmentsText false rest

/-- The text of the path: empty at the root, otherwise led by a dot or a bracket. -/
def pathText (failure : Failure) : String :=
  if failure.path.isEmpty then ""
  else
    let text := segmentsText true failure.path
    if text == "." then ""
    else if text.startsWith "." || text.startsWith "[" then text
    else "." ++ text

def message (failure : Failure) : String := failure.cause.message

/-- The wording of the failure with its path, the root being a single dot. -/
def located (failure : Failure) : String :=
  let path := failure.pathText
  "at JSON path " ++ (if path.isEmpty then "." else path) ++ " → " ++ failure.message

end Failure
end SchemaCompiler.Decode

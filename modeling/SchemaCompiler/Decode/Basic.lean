import SchemaCompiler.Decode.Failure

/-!
# Decoders

A decoder turns a draft into a value of a type. It meets the parts of the draft in the order of
the text and stops at the first thing that is wrong, be it a fault of the text or a part of the
wrong kind.
-/
namespace SchemaCompiler.Decode

/-- Where a draft comes from. A text shows its faults where they stand; a value has none, and
knows beforehand how many parts it has. -/
inductive Source where
  | text
  | value
deriving DecidableEq, Repr

abbrev Decoder (α : Type) := Source → Json.Draft → Except Failure α

def fail {α : Type} (cause : Cause) : Except Failure α := .error (.here cause)

def under {α : Type} (segment : Segment) : Except Failure α → Except Failure α
  | .ok a => .ok a
  | .error failure => .error (failure.under segment)

/-- Something else stood where `expected` should be: a fault of the text comes first. -/
def mismatch {α : Type} (expected : String) : Json.Draft → Except Failure α
  | .null => fail (.invalidType .null expected)
  | .bool b => fail (.invalidType (.boolean b) expected)
  | .number n => fail (.invalidType (.number n) expected)
  | .string s => fail (.invalidType (.string s) expected)
  | .array _ _ => fail (.invalidType .sequence expected)
  | .object _ _ => fail (.invalidType .map expected)
  | .broken fault => fail (.malformed fault.reason)

/-! ## Scalars -/

def bool : Decoder Bool
  | _, .bool b => .ok b
  | _, draft => mismatch "a boolean" draft

def string : Decoder String
  | _, .string s => .ok s
  | _, draft => mismatch "a string" draft

def nat : Decoder Nat
  | _, .number (.int i) =>
    if 0 ≤ i then .ok i.toNat else fail (.invalidValue (.number (.int i)) "usize")
  | _, draft => mismatch "usize" draft

def unit : Decoder Unit
  | _, .null => .ok ()
  | _, draft => mismatch "unit" draft

def option {α : Type} (decode : Decoder α) : Decoder (Option α)
  | _, .null => .ok none
  | source, draft => (decode source draft).map some

/-! ## Containers -/

def itemsFrom {α : Type} (decode : Decoder α) (source : Source) :
    Nat → List Json.Draft → Except Failure (List α)
  | _, [] => .ok []
  | i, d :: ds => do
    let a ← under (.item i) (decode source d)
    let rest ← itemsFrom decode source (i + 1) ds
    return a :: rest

def unbroken : Option Json.Fault → Except Failure Unit
  | none => .ok ()
  | some fault => fail (.malformed fault.reason)

def list {α : Type} (decode : Decoder α) : Decoder (List α)
  | source, .array items stop => do
    let values ← itemsFrom decode source 0 items
    unbroken stop
    return values
  | _, draft => mismatch "a sequence" draft

def membersFrom {α : Type} (decode : Decoder α) (source : Source) :
    List (String × Json.Draft) → Except Failure (List (String × α))
  | [] => .ok []
  | (k, d) :: ds => do
    let a ← under (.key k) (decode source d)
    let rest ← membersFrom decode source ds
    return (k, a) :: rest

/-- A map from names to values of one type. A repeated name keeps its first place and takes its
last value. -/
def map {α : Type} (decode : Decoder α) : Decoder (List (String × α))
  | source, .object members stop => do
    let entries ← membersFrom decode source members
    under .unread (unbroken stop)
    return Assoc.ofList entries
  | _, draft => mismatch "a map" draft

mutual
/-- The failure of a draft that is only read as a value: the fault of its text, if it has one. -/
def faultOf : Json.Draft → Option Failure
  | .array items stop =>
    (faultOfItems 0 items).or (stop.map fun fault => .here (.malformed fault.reason))
  | .object members stop =>
    (faultOfMembers members).or
      (stop.map fun fault => ⟨[.unread], .malformed fault.reason⟩)
  | .broken fault => some (.here (.malformed fault.reason))
  | _ => none

def faultOfItems (i : Nat) : List Json.Draft → Option Failure
  | [] => none
  | d :: ds => ((faultOf d).map (·.under (.item i))).or (faultOfItems (i + 1) ds)

def faultOfMembers : List (String × Json.Draft) → Option Failure
  | [] => none
  | (k, d) :: ds => ((faultOf d).map (·.under (.key k))).or (faultOfMembers ds)
end

def json : Decoder Json
  | _, draft =>
    match faultOf draft with
    | some failure => .error failure
    | none => .ok draft.toJson

end SchemaCompiler.Decode

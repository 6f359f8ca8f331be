import SchemaCompiler.Machine.Fault
import SchemaCompiler.Program.Expr

/-!
# Operations on values

What the operators of expressions do. Numbers are compared and combined as doubles, except that
sums and differences of signed integers are exact while they fit.
-/
namespace SchemaCompiler.Machine

/-- Whether a value counts as true: `null`, `false`, zero and the empty text do not. -/
def truthy : Json → Bool
  | .null => false
  | .bool b => b
  | .number n => !n.toBinary64.isZero
  | .string s => !s.isEmpty
  | .array _ => true
  | .object _ => true

/-- The member or item that a key leads to. A number leads to the member named by its text. -/
def lookup (base key : Json) : Option Json :=
  match base, key with
  | .object members, .string k => Assoc.get? k members
  | .object members, .number n => Assoc.get? n.render members
  | .array items, .number n => n.unsigned?.bind (items[·]?)
  | _, _ => none

def maxIndex : Nat := Json.maxUnsigned

def index? : Json → Option Nat
  | .number n =>
    let x := n.toBinary64
    if x.negative && !x.isZero then none else some (min x.truncate.toNat maxIndex)
  | _ => none

def asIndex (v : Json) : Except TypeFault Nat :=
  match index? v with
  | some n => .ok n
  | none => .error (.notIndex v)

/-- The text of a value that is joined to a text: strings as they are, integral doubles below
`10 ^ 15` as integers, all else as JSON. -/
def concatText : Json → String
  | .string s => s
  | .number (.float x) =>
    if x.isIntegral && x.truncate.natAbs < 10 ^ 15 then toString x.truncate
    else (Json.Number.float x).render
  | v => v.render

/-- The number of a computed double: an integer when it is integral and below `9 * 10 ^ 15`. What
is not finite is `null`. -/
def number : Option Binary64 → Json
  | none => .null
  | some x =>
    if x.isIntegral && x.truncate.natAbs < 9 * 10 ^ 15 then .number (.int x.truncate)
    else .number (.float x)

def toDouble : Json → Except TypeFault Binary64
  | .number n => .ok n.toBinary64
  | v => .error (.notNumber v)

def strictEq : Json → Json → Bool
  | .number x, .number y => x.toBinary64.same y.toBinary64
  | .null, .null => true
  | .bool x, .bool y => x == y
  | .string x, .string y => x == y
  | _, _ => false

def order (a b : Json) : Except TypeFault Ordering :=
  match a, b with
  | .string x, .string y => .ok (if x < y then .lt else if x = y then .eq else .gt)
  | _, _ => do
    let x ← toDouble a
    let y ← toDouble b
    return x.compare y

def arithmetic (op : Binary64 → Binary64 → Option Binary64) (a b : Json) :
    Except TypeFault Json := do
  let x ← toDouble a
  let y ← toDouble b
  return number (op x y)

def signed? (v : Json) : Option Int := v.number?.bind Json.Number.signed?

/-- An operation on integers that is exact while the result fits, and one on doubles else. -/
def exact (ints : Int → Int → Int) (doubles : Binary64 → Binary64 → Option Binary64)
    (a b : Json) : Except TypeFault Json :=
  match signed? a, signed? b with
  | some x, some y =>
    let z := ints x y
    if Json.minSigned ≤ z ∧ z ≤ Json.maxSigned then .ok (.number (.int z))
    else .ok (number (doubles (Binary64.ofInt x) (Binary64.ofInt y)))
  | _, _ => arithmetic doubles a b

def binary (op : BinaryOp) (a b : Json) : Except TypeFault Json :=
  match op with
  | .eq => .ok (.bool (strictEq a b))
  | .ne => .ok (.bool !strictEq a b)
  | .lt => return .bool ((← order a b) == .lt)
  | .le => return .bool ((← order a b) != .gt)
  | .gt => return .bool ((← order a b) == .gt)
  | .ge => return .bool ((← order a b) != .lt)
  | .add =>
    if a.isString || b.isString then .ok (.string (concatText a ++ concatText b))
    else exact (· + ·) Binary64.add a b
  | .sub => exact (· - ·) Binary64.sub a b
  | .mul => arithmetic Binary64.mul a b
  | .div => arithmetic Binary64.div a b
  | .rem => arithmetic Binary64.rem a b

def length? : Json → Option Nat
  | .array items => some items.length
  | .object members => some members.length
  | .string s => some s.utf8ByteSize
  | _ => none

/-- The bytes of a text from a start on; empty when they are not a piece of it. -/
def slice (text : Json) (start count : Nat) : String :=
  match text with
  | .string s =>
    match (Text.dropBytes? start s.toList).bind (Text.takeBytes? count) with
    | some piece => String.ofList piece
    | none => ""
  | _ => ""

def setItem (items : List Json) (i : Nat) (v : Json) : List Json :=
  if i < items.length then items.set i v
  else items ++ List.replicate (i - items.length) .null ++ [v]

end SchemaCompiler.Machine

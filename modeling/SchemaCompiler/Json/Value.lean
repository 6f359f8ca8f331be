import SchemaCompiler.Assoc
import SchemaCompiler.Number.Binary64

/-!
# JSON values

Numbers are either integers or finite doubles, and the two are told apart: `1` and `1.0` are
different values that denote the same number. Integers read from text lie between `-2 ^ 63` and
`2 ^ 64 - 1`. Objects keep the order of their members.
-/
namespace SchemaCompiler

/-- A JSON number: an integer, or a finite double. -/
inductive Json.Number where
  | int (value : Int)
  | float (value : Binary64)
deriving DecidableEq, Repr, Inhabited

/-- A JSON value. -/
inductive Json where
  | null
  | bool (value : Bool)
  | number (value : Json.Number)
  | string (value : String)
  | array (items : List Json)
  | object (members : List (String × Json))
deriving Repr, Inhabited

namespace Json

def minSigned : Int := -(2 ^ 63)

def maxSigned : Int := 2 ^ 63 - 1

def maxUnsigned : Nat := 2 ^ 64 - 1

namespace Number

def toBinary64 : Number → Binary64
  | int i => Binary64.ofInt i
  | float x => x

/-- The number as a signed 64-bit integer; floats have none, even integral ones. -/
def signed? : Number → Option Int
  | int i => if minSigned ≤ i ∧ i ≤ maxSigned then some i else none
  | float _ => none

def unsigned? : Number → Option Nat
  | int i => if 0 ≤ i then some i.toNat else none
  | float _ => none

def isIntegral : Number → Bool
  | int _ => true
  | float x => x.isIntegral

end Number

def ofNat (n : Nat) : Json := number (.int n)

def get? (key : String) : Json → Option Json
  | object members => Assoc.get? key members
  | _ => none

def string? : Json → Option String
  | string s => some s
  | _ => none

def array? : Json → Option (List Json)
  | array items => some items
  | _ => none

def object? : Json → Option (List (String × Json))
  | object members => some members
  | _ => none

def bool? : Json → Option Bool
  | bool b => some b
  | _ => none

def number? : Json → Option Number
  | number n => some n
  | _ => none

def unsigned? (v : Json) : Option Nat := v.number?.bind Number.unsigned?

def isBool (b : Bool) : Json → Bool
  | bool c => b == c
  | _ => false

def isString : Json → Bool
  | string _ => true
  | _ => false

def isContainer : Json → Bool
  | array _ => true
  | object _ => true
  | _ => false

mutual
def beq : Json → Json → Bool
  | null, null => true
  | bool a, bool b => a == b
  | number a, number b => a == b
  | string a, string b => a == b
  | array xs, array ys => beqItems xs ys
  | object xs, object ys => beqMembers xs ys
  | _, _ => false

def beqItems : List Json → List Json → Bool
  | [], [] => true
  | x :: xs, y :: ys => beq x y && beqItems xs ys
  | _, _ => false

def beqMembers : List (String × Json) → List (String × Json) → Bool
  | [], [] => true
  | (k, x) :: xs, (l, y) :: ys => k == l && beq x y && beqMembers xs ys
  | _, _ => false
end

mutual
theorem beq_iff : (a b : Json) → (beq a b = true ↔ a = b)
  | null, b => by cases b <;> simp [beq]
  | bool _, b => by cases b <;> simp [beq]
  | number _, b => by cases b <;> simp [beq]
  | string _, b => by cases b <;> simp [beq]
  | array xs, b => by
    cases b with
    | array ys => simpa [beq] using beqItems_iff xs ys
    | _ => simp [beq]
  | object xs, b => by
    cases b with
    | object ys => simpa [beq] using beqMembers_iff xs ys
    | _ => simp [beq]

theorem beqItems_iff : (xs ys : List Json) → (beqItems xs ys = true ↔ xs = ys)
  | [], ys => by cases ys <;> simp [beqItems]
  | x :: xs, ys => by
    cases ys with
    | nil => simp [beqItems]
    | cons y ys => simp [beqItems, beq_iff x y, beqItems_iff xs ys]

theorem beqMembers_iff : (xs ys : List (String × Json)) → (beqMembers xs ys = true ↔ xs = ys)
  | [], ys => by cases ys <;> simp [beqMembers]
  | (k, x) :: xs, ys => by
    cases ys with
    | nil => simp [beqMembers]
    | cons e ys =>
      obtain ⟨l, y⟩ := e
      simp [beqMembers, beq_iff x y, beqMembers_iff xs ys, and_assoc]
end

instance : DecidableEq Json := fun a b =>
  decidable_of_iff (beq a b = true) (beq_iff a b)

end Json
end SchemaCompiler

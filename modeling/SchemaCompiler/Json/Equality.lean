import SchemaCompiler.Json.Value

/-!
# Equality of JSON values

`equal` is the equality that schemas ask for: numbers are compared by value, and the order of
members does not matter. `same` is narrower: it also tells integers from doubles.
-/
namespace SchemaCompiler.Json

/-- Equality of numbers: two signed integers as integers, any others as doubles. -/
def Number.equal (a b : Number) : Bool :=
  match a.signed?, b.signed? with
  | some i, some j => i == j
  | _, _ => a.toBinary64.same b.toBinary64

/-- Equality of numbers of one representation; the two zeros of a double are the same. -/
def Number.same : Number → Number → Bool
  | int i, int j => i == j
  | float x, float y => x.same y
  | _, _ => false

variable (numbers : Number → Number → Bool)

mutual
/-- Equality up to the order of members; `numbers` compares numbers. -/
def equalBy : Json → Json → Bool
  | null, null => true
  | bool a, bool b => a == b
  | number a, number b => numbers a b
  | string a, string b => a == b
  | array xs, array ys => equalItems xs ys
  | object xs, object ys => xs.length == ys.length && equalMembers xs ys
  | _, _ => false

def equalItems : List Json → List Json → Bool
  | [], [] => true
  | x :: xs, y :: ys => equalBy x y && equalItems xs ys
  | _, _ => false

/-- Whether each member of the first list has an equal partner of its name in the second. -/
def equalMembers : List (String × Json) → List (String × Json) → Bool
  | [], _ => true
  | (k, x) :: xs, ys =>
    (match Assoc.get? k ys with
      | some y => equalBy x y
      | none => false) && equalMembers xs ys
end

/-- Equality up to the representation of numbers and the order of members. -/
abbrev equal : Json → Json → Bool := equalBy Number.equal

abbrev same : Json → Json → Bool := equalBy Number.same

end SchemaCompiler.Json

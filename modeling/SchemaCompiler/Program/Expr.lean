import SchemaCompiler.Json.Type
import SchemaCompiler.Program.Name

/-!
# Expressions

The expressions of compiled programs. Literals are JSON values and identifiers are names, so that
text from a schema can only ever be data. Besides the plain constructors there are folding ones
(`negate`, `all`, `any`, `plus`), which settle what is known before the program runs.
-/
namespace SchemaCompiler

/-- A binary operator. Equality compares scalars by value and never holds of containers; addition
joins texts when either side is one. -/
inductive BinaryOp where
  | eq
  | ne
  | lt
  | le
  | gt
  | ge
  | add
  | sub
  | mul
  | div
  | rem
deriving DecidableEq, Repr, Inhabited

namespace BinaryOp

def operators : List BinaryOp := [eq, ne, lt, le, gt, ge, add, sub, mul, div, rem]

def tag : BinaryOp → String
  | eq => "eq"
  | ne => "ne"
  | lt => "lt"
  | le => "le"
  | gt => "gt"
  | ge => "ge"
  | add => "add"
  | sub => "sub"
  | mul => "mul"
  | div => "div"
  | rem => "rem"

def sign : BinaryOp → String
  | eq => "==="
  | ne => "!=="
  | lt => "<"
  | le => "<="
  | gt => ">"
  | ge => ">="
  | add => "+"
  | sub => "-"
  | mul => "*"
  | div => "/"
  | rem => "%"

def ofTag? (s : String) : Option BinaryOp := operators.find? fun op => op.tag == s

end BinaryOp

/-- An expression. -/
inductive Expr where
  | lit (value : Json)
  | var (name : Name)
  | index (base key : Expr)
  | has (base key : Expr)
  | not (operand : Expr)
  | and (items : List Expr)
  | or (items : List Expr)
  | binary (op : BinaryOp) (left right : Expr)
  | typeIs (operand : Expr) (type : JsonType)
  | len (operand : Expr)
  | slice (text start : Expr) (length : Nat)
  | call (callee : Expr) (args : List Expr)
  | await (operand : Expr)
  | object (members : List (String × Expr))
  | array (items : List Expr)
  | errorCount
deriving Inhabited

namespace Expr

def str (s : String) : Expr := lit (.string s)

def bool (b : Bool) : Expr := lit (.bool b)

def nat (n : Nat) : Expr := lit (Json.ofNat n)

def null : Expr := lit .null

def equals (a b : Expr) : Expr := binary .eq a b

def differs (a b : Expr) : Expr := binary .ne a b

def callName (callee : Name) (args : List Expr) : Expr := call (var callee) args

def isTrue : Expr → Bool
  | lit (.bool true) => true
  | _ => false

def isFalse : Expr → Bool
  | lit (.bool false) => true
  | _ => false

def plus (a b : Expr) : Expr :=
  match a, b with
  | lit (.string x), lit (.string y) => str (x ++ y)
  | binary .add l (lit (.string x)), lit (.string y) => binary .add l (str (x ++ y))
  | a, b => binary .add a b

/-- The negation of an expression. Constants, double negations and equalities are folded. -/
def negate : Expr → Expr
  | lit (.bool b) => bool !b
  | not e => e
  | binary .eq a b => binary .ne a b
  | binary .ne a b => binary .eq a b
  | e => not e

/-- A conjunction for `true`, and a disjunction for `false`. -/
def joint : Bool → List Expr → Expr
  | true => and
  | false => or

/-- The operands that are left of a conjunction: constants `true` go, nested conjunctions are
spliced in. There are none left to ask when an operand is the constant `false`. For a disjunction
`true` and `false` are swapped. -/
def left : Bool → List Expr → Option (List Expr)
  | _, [] => some []
  | k, lit (.bool b) :: rest => if b = k then left k rest else none
  | true, and items :: rest => (left true rest).map (items ++ ·)
  | false, or items :: rest => (left false rest).map (items ++ ·)
  | k, e :: rest => (left k rest).map (e :: ·)

/-- The joint of what is left. -/
def rejoined (k : Bool) : Option (List Expr) → Expr
  | none => bool !k
  | some [] => bool k
  | some [e] => e
  | some es => joint k es

def folded (k : Bool) (items : List Expr) : Expr := rejoined k (left k items)

def all : List Expr → Expr := folded true

def any : List Expr → Expr := folded false

mutual
def names : Expr → List Name
  | lit _ => []
  | errorCount => []
  | var n => [n]
  | index a b => names a ++ names b
  | has a b => names a ++ names b
  | binary _ a b => names a ++ names b
  | not a => names a
  | typeIs a _ => names a
  | len a => names a
  | await a => names a
  | and items => namesOfItems items
  | or items => namesOfItems items
  | array items => namesOfItems items
  | slice text start _ => names text ++ names start
  | call callee args => names callee ++ namesOfItems args
  | object members => namesOfMembers members

def namesOfItems : List Expr → List Name
  | [] => []
  | e :: rest => names e ++ namesOfItems rest

def namesOfMembers : List (String × Expr) → List Name
  | [] => []
  | (_, e) :: rest => names e ++ namesOfMembers rest
end

end Expr
end SchemaCompiler

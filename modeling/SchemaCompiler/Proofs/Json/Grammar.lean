import SchemaCompiler.Json.Printer
import SchemaCompiler.Json.Reader

/-!
# The grammar of JSON text

The grammar of RFC 8259 as relations between a text, what it spells, and the rest of the text
behind that. An object is taken as it is written: a name that is repeated is listed as often as it
stands in the text. With `ws` false the relations leave no room for blanks between tokens, so that
they describe compact text.

A numeral is described by its shape. Which number it stands for is a matter of how decimals are
rounded, and is what `readNumeral?` says.
-/
namespace SchemaCompiler.Json

/-! ## Blanks -/

/-- `rest` is what follows some blanks in front of a text; there are none unless `ws`. -/
inductive Blanks (ws : Bool) : List Char → List Char → Prop
  | nil (cs : List Char) : Blanks ws cs cs
  | cons {c : Char} {cs rest : List Char} (hws : ws = true) (hc : isBlank c = true)
      (h : Blanks ws cs rest) : Blanks ws (c :: cs) rest

/-! ## Strings -/

/-- A text starts with the inside of a string and its closing quote: the characters that this stands
for, and the rest. -/
inductive Letters : List Char → List Char → List Char → Prop
  | close (rest : List Char) : Letters ('"' :: rest) [] rest
  | plain {c : Char} {cs s rest : List Char} (hquote : c ≠ '"') (hslash : c ≠ '\\')
      (hc : 32 ≤ c.toNat) (h : Letters cs s rest) : Letters (c :: cs) (c :: s) rest
  | short {c e : Char} {cs s rest : List Char} (he : shortEscape? c = some e)
      (h : Letters cs s rest) : Letters ('\\' :: c :: cs) (e :: s) rest
  | code {a b c d : Char} {n : Nat} {cs s rest : List Char} (hn : hexWord? a b c d = some n)
      (hplain : n < 0xD800 ∨ 0xDFFF < n) (h : Letters cs s rest) :
      Letters ('\\' :: 'u' :: a :: b :: c :: d :: cs) (Char.ofNat n :: s) rest
  | pair {a b c d e f g k : Char} {n m : Nat} {cs s rest : List Char}
      (hn : hexWord? a b c d = some n) (hhigh : 0xD800 ≤ n ∧ n ≤ 0xDBFF)
      (hm : hexWord? e f g k = some m) (hlow : 0xDC00 ≤ m ∧ m ≤ 0xDFFF) (h : Letters cs s rest) :
      Letters ('\\' :: 'u' :: a :: b :: c :: d :: '\\' :: 'u' :: e :: f :: g :: k :: cs)
        (Char.ofNat (0x10000 + (n - 0xD800) * 0x400 + (m - 0xDC00)) :: s) rest

/-! ## Numerals -/

def IsDigits (ds : List Char) : Prop := ds ≠ [] ∧ ∀ c ∈ ds, c.isDigit = true

def IsWhole (ds : List Char) : Prop := IsDigits ds ∧ (ds.head? = some '0' → ds = ['0'])

variable (cs : List Char)

def IsFraction : Prop := cs = [] ∨ ∃ ds, cs = '.' :: ds ∧ IsDigits ds

def IsExponent : Prop :=
  cs = [] ∨ ∃ mark sign ds, cs = mark :: (sign ++ ds) ∧ (mark = 'e' ∨ mark = 'E') ∧
    (sign = [] ∨ sign = ['+'] ∨ sign = ['-']) ∧ IsDigits ds

def IsUnsigned : Prop :=
  ∃ whole fraction exponent, cs = whole ++ (fraction ++ exponent) ∧ IsWhole whole ∧
    IsFraction fraction ∧ IsExponent exponent

/-- The number that a numeral without its sign stands for, none when it is too large. -/
def readNumeral? (negative : Bool) (cs : List Char) : Option Number :=
  match readNumber negative cs with
  | .ok (n, []) => some n
  | _ => none

/-- A numeral and the number that it stands for. -/
inductive Numeral : List Char → Number → Prop
  | unsigned {cs : List Char} {n : Number} (h : IsUnsigned cs)
      (hn : readNumeral? false cs = some n) : Numeral cs n
  | negative {cs : List Char} {n : Number} (h : IsUnsigned cs)
      (hn : readNumeral? true cs = some n) : Numeral ('-' :: cs) n

/-! ## Values -/

mutual
/-- A text starts with a spelling of a value; the last argument is the rest. -/
inductive Spells (ws : Bool) : List Char → Json → List Char → Prop
  | null (rest : List Char) : Spells ws ('n' :: 'u' :: 'l' :: 'l' :: rest) .null rest
  | boolTrue (rest : List Char) : Spells ws ('t' :: 'r' :: 'u' :: 'e' :: rest) (.bool true) rest
  | boolFalse (rest : List Char) :
      Spells ws ('f' :: 'a' :: 'l' :: 's' :: 'e' :: rest) (.bool false) rest
  | number {w : List Char} {n : Number} (rest : List Char) (h : Numeral w n) :
      Spells ws (w ++ rest) (.number n) rest
  | string {cs s rest : List Char} (h : Letters cs s rest) :
      Spells ws ('"' :: cs) (.string (String.ofList s)) rest
  | array {cs rest : List Char} {items : List Json} (h : SpellsItems ws cs items rest) :
      Spells ws ('[' :: cs) (.array items) rest
  | object {cs rest : List Char} {members : List (String × Json)}
      (h : SpellsMembers ws cs members rest) : Spells ws ('\x7b' :: cs) (.object members) rest

/-- The inside of an array and its closing bracket. -/
inductive SpellsItems (ws : Bool) : List Char → List Json → List Char → Prop
  | close {cs rest : List Char} (h : Blanks ws cs (']' :: rest)) : SpellsItems ws cs [] rest
  | some {cs rest : List Char} {items : List Json} (h : SpellsSome ws cs items rest) :
      SpellsItems ws cs items rest

/-- One item or more with commas between them, and the closing bracket. -/
inductive SpellsSome (ws : Bool) : List Char → List Json → List Char → Prop
  | last {cs start stop rest : List Char} {v : Json} (hb : Blanks ws cs start)
      (hv : Spells ws start v stop) (he : Blanks ws stop (']' :: rest)) :
      SpellsSome ws cs [v] rest
  | more {cs start stop next rest : List Char} {v : Json} {items : List Json}
      (hb : Blanks ws cs start) (hv : Spells ws start v stop) (hc : Blanks ws stop (',' :: next))
      (h : SpellsSome ws next items rest) : SpellsSome ws cs (v :: items) rest

/-- The inside of an object and its closing brace. -/
inductive SpellsMembers (ws : Bool) : List Char → List (String × Json) → List Char → Prop
  | close {cs rest : List Char} (h : Blanks ws cs ('\x7d' :: rest)) : SpellsMembers ws cs [] rest
  | some {cs rest : List Char} {members : List (String × Json)}
      (h : SpellsFields ws cs members rest) : SpellsMembers ws cs members rest

/-- One member or more with commas between them, and the closing brace. -/
inductive SpellsFields (ws : Bool) : List Char → List (String × Json) → List Char → Prop
  | last {cs rest stop : List Char} {k : String} {v : Json} (hm : SpellsField ws cs (k, v) stop)
      (he : Blanks ws stop ('\x7d' :: rest)) : SpellsFields ws cs [(k, v)] rest
  | more {cs rest stop next : List Char} {k : String} {v : Json} {members : List (String × Json)}
      (hm : SpellsField ws cs (k, v) stop) (hc : Blanks ws stop (',' :: next))
      (h : SpellsFields ws next members rest) : SpellsFields ws cs ((k, v) :: members) rest

/-- A name, a colon and a value. -/
inductive SpellsField (ws : Bool) : List Char → String × Json → List Char → Prop
  | mk {cs name key colon start rest : List Char} {v : Json} (hb : Blanks ws cs ('"' :: name))
      (hk : Letters name key colon) (hc : Blanks ws colon (':' :: start))
      {value : List Char} (hs : Blanks ws start value) (hv : Spells ws value v rest) :
      SpellsField ws cs (String.ofList key, v) rest
end

def IsText (ws : Bool) (cs : List Char) (v : Json) : Prop :=
  ∃ start stop, Blanks ws cs start ∧ Spells ws start v stop ∧ Blanks ws stop []

/-! ## Values as written -/

mutual
def nesting : Json → Nat
  | array items => nestingItems items + 1
  | object members => nestingMembers members + 1
  | _ => 0

def nestingItems : List Json → Nat
  | [] => 0
  | v :: vs => max (nesting v) (nestingItems vs)

def nestingMembers : List (String × Json) → Nat
  | [] => 0
  | (_, v) :: vs => max (nesting v) (nestingMembers vs)
end

mutual
def Distinct : Json → Prop
  | array items => DistinctItems items
  | object members => (members.map Prod.fst).Nodup ∧ DistinctMembers members
  | _ => True

def DistinctItems : List Json → Prop
  | [] => True
  | v :: vs => Distinct v ∧ DistinctItems vs

def DistinctMembers : List (String × Json) → Prop
  | [] => True
  | (_, v) :: vs => Distinct v ∧ DistinctMembers vs
end

mutual
def AllNumbers (p : Number → Prop) : Json → Prop
  | number n => p n
  | array items => AllNumbersItems p items
  | object members => AllNumbersMembers p members
  | _ => True

def AllNumbersItems (p : Number → Prop) : List Json → Prop
  | [] => True
  | v :: vs => AllNumbers p v ∧ AllNumbersItems p vs

def AllNumbersMembers (p : Number → Prop) : List (String × Json) → Prop
  | [] => True
  | (_, v) :: vs => AllNumbers p v ∧ AllNumbersMembers p vs
end

def Number.IsInteger (n : Number) : Prop := ∃ i : Int, n = .int i ∧ minSigned ≤ i ∧ i ≤ maxUnsigned

/-- A number that an integer of 64 bits without point and exponent stands for: itself, or the
negative zero for `-0`. -/
def Number.IsWhole (n : Number) : Prop := n.IsInteger ∨ n = .float (Binary64.zero true)

end SchemaCompiler.Json

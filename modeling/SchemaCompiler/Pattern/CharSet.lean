import SchemaCompiler.Text.Unicode.Category
import SchemaCompiler.Text.Unicode.Folding
import SchemaCompiler.Text.Unicode.Property

/-!
# Sets of characters

The sets that character classes of patterns denote, as expressions over tables and ranges.
-/
namespace SchemaCompiler.Pattern
open Text.Unicode

/-- A set of characters. A folded set also holds every character that is equal to one of its own
up to case, the case of all scripts or of ASCII only. -/
inductive CharSet where
  | none
  | any
  | range (low high : Nat)
  | table (ranges : Ranges)
  | digit
  | space
  | word
  | union (a b : CharSet)
  | inter (a b : CharSet)
  | diff (a b : CharSet)
  | either (a b : CharSet)
  | complement (a : CharSet)
  | folded (a : CharSet)
  | foldedAscii (a : CharSet)
deriving DecidableEq, Repr

namespace CharSet

def single (c : Char) : CharSet := range c.toNat c.toNat

/-- Whether a code point is a word character: a letter, a mark, a digit, a connector or a
joiner. -/
def isWordPoint (n : Nat) : Bool :=
  if n < 128 then
    (48 ≤ n && n ≤ 57) || (65 ≤ n && n ≤ 90) || (97 ≤ n && n ≤ 122) || n == 95
  else
    Property.alphabetic.contains n || (Category.members ["Mn", "Mc", "Me", "Nd", "Pc"]).contains n
      || Property.joinControl.contains n

def swapAscii (n : Nat) : Nat :=
  if 65 ≤ n ∧ n ≤ 90 then n + 32 else if 97 ≤ n ∧ n ≤ 122 then n - 32 else n

def contains : CharSet → Nat → Bool
  | none, _ => false
  | any, _ => true
  | range low high, n => low ≤ n && n ≤ high
  | table ranges, n => ranges.contains n
  | digit, n => Category.decimalNumber.contains n
  | space, n => Property.whiteSpace.contains n
  | word, n => isWordPoint n
  | union a b, n => a.contains n || b.contains n
  | inter a b, n => a.contains n && b.contains n
  | diff a b, n => a.contains n && !b.contains n
  | either a b, n => a.contains n != b.contains n
  | complement a, n => !a.contains n
  | folded a, n => (Folding.orbit n).any fun m => a.contains m
  | foldedAscii a, n => a.contains n || a.contains (swapAscii n)

/-- A measure of how much a compiled set takes: an ASCII range counts once, and each range of a
large table twice. -/
def weight : CharSet → Nat
  | none => 1
  | any => 20
  | range _ high => if high < 128 then 1 else 4
  | table ranges => 2 * ranges.list.length + 1
  | digit => 2 * Category.decimalNumber.list.length
  | space => 2 * Property.whiteSpace.list.length
  | word => 1500
  | union a b => a.weight + b.weight
  | inter a b => min a.weight b.weight
  | diff a b => a.weight + b.weight
  | either a b => a.weight + b.weight
  | complement a => a.weight + 20
  | folded a => 2 * a.weight
  | foldedAscii a => 2 * a.weight

end CharSet
end SchemaCompiler.Pattern

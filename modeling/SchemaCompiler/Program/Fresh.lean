import SchemaCompiler.Assoc
import SchemaCompiler.Builder.Misuse

/-!
# Fresh names

Fresh names are a stem and a number that counts up for each stem. A stem is a name that does not
end in a digit, so that names of different stems differ. Some stems are kept for the values and
functions of a whole program; names inside a function use the others.
-/
namespace SchemaCompiler

def endsInDigit (text : String) : Bool :=
  match text.toList.getLast? with
  | some c => c.isDigit
  | none => false

/-- What fresh names start with. -/
structure Stem where
  text : String
  named : isName text = true
  undigited : endsInDigit text = false
deriving Repr

namespace Stem

theorem ext_iff {a b : Stem} : a.text = b.text ↔ a = b := by
  cases a; cases b; simp

instance : DecidableEq Stem := fun _ _ => decidable_of_iff _ ext_iff

def reserved : List String :=
  ["validate", "parse", "serialize", "wrapper", "schema", "pattern", "format", "keyword", "func",
    "root"]

def isReserved (stem : Stem) : Bool := reserved.contains stem.text

/-- A text taken as a stem. The name shown when it is none is the first that it would give. -/
def ofString (text : String) (number : Nat) : Except Misuse Stem :=
  if hd : endsInDigit text = false then
    if hn : isName text = true then .ok ⟨text, hn, hd⟩
    else .error (.invalidName (text ++ toString number))
  else .error (.prefixEndsInDigit text)

theorem isNamePart_of_isDigit {c : Char} (h : c.isDigit = true) : isNamePart c = true := by
  simp [isNamePart, h]

theorem isName_append_digits (text : String) (n : Nat) (h : isName text = true) :
    isName (text ++ toString n) = true := by
  have digits : ∀ c ∈ (toString n).toList, isNamePart c = true := by
    intro c hc
    have hc' : c ∈ n.repr.toList := hc
    rw [Nat.toList_repr] at hc'
    exact isNamePart_of_isDigit (Nat.isDigit_of_mem_toDigits (by decide) (by decide) hc')
  unfold isName at h ⊢
  rw [String.toList_append]
  cases hs : text.toList with
  | nil => rw [hs] at h; simp [spellsName] at h
  | cons c cs =>
    rw [hs] at h
    simp only [spellsName, Bool.and_eq_true, List.cons_append, List.all_append] at h ⊢
    exact ⟨h.1, h.2, List.all_eq_true.2 digits⟩

def of (text : String) (named : isName text = true := by exact Eq.refl true)
    (undigited : endsInDigit text = false := by exact Eq.refl false) : Stem :=
  ⟨text, named, undigited⟩

def name (stem : Stem) (n : Nat) : Name :=
  ⟨stem.text ++ toString n, isName_append_digits stem.text n stem.named⟩

end Stem

/-- A stem for names inside a function. -/
structure LocalStem extends Stem where
  free : toStem.isReserved = false

namespace LocalStem

def of (text : String) (named : isName text = true := by exact Eq.refl true)
    (undigited : endsInDigit text = false := by exact Eq.refl false)
    (free : Stem.isReserved ⟨text, named, undigited⟩ = false := by exact Eq.refl false) :
    LocalStem :=
  ⟨⟨text, named, undigited⟩, free⟩

def ofString (text : String) (number : Nat) : Except Misuse LocalStem :=
  if Stem.reserved.contains text then .error (.reservedPrefix text)
  else
    match Stem.ofString text number with
    | .error misuse => .error misuse
    | .ok stem =>
      if h : stem.isReserved = false then .ok ⟨stem, h⟩ else .error (.reservedPrefix text)

end LocalStem

/-- How many names each stem has given. -/
structure Counters where
  counts : List (String × Nat)

namespace Counters

def empty : Counters := ⟨[]⟩

instance : Inhabited Counters := ⟨empty⟩

def count (counters : Counters) (text : String) : Nat :=
  (Assoc.get? text counters.counts).getD 0

def next (counters : Counters) (stem : Stem) : Name × Counters :=
  let n := counters.count stem.text
  (stem.name n, ⟨Assoc.insert stem.text (n + 1) counters.counts⟩)

end Counters
end SchemaCompiler

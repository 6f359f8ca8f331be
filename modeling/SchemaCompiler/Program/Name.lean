import SchemaCompiler.Text.Quoted

/-!
# Names

A name is a text that is safe wherever a program has an identifier. The check runs when a name is
made, so that nothing else ever reaches a name position.
-/
namespace SchemaCompiler

def isNameStart (c : Char) : Bool := c.isAlpha || c == '_' || c == '$'

def isNamePart (c : Char) : Bool := isNameStart c || c.isDigit

/-- Whether characters spell a name: one that may start it, then any that may go on. -/
def spellsName : List Char → Bool
  | [] => false
  | c :: cs => isNameStart c && cs.all isNamePart

def isName (text : String) : Bool := spellsName text.toList

/-- An identifier of a program. -/
structure Name where
  text : String
  valid : isName text = true
deriving DecidableEq, Repr

namespace Name

instance : Inhabited Name := ⟨⟨"x", by decide⟩⟩

instance : ToString Name := ⟨text⟩

@[ext] theorem ext {a b : Name} (h : a.text = b.text) : a = b := by
  cases a; cases b; simp_all

def ofString? (text : String) : Option Name :=
  if h : isName text = true then some ⟨text, h⟩ else none

def refusal (text : String) : String :=
  "invalid name " ++ Text.quoted text ++ ": names must match ^[a-zA-Z_$][a-zA-Z_$0-9]*$"

/-- A text is taken as a name exactly when it spells one, and then unchanged. -/
theorem ofString?_eq_some_iff {text : String} {n : Name} :
    ofString? text = some n ↔ n.text = text := by
  unfold ofString?
  split
  · constructor
    · intro h; simp only [Option.some.injEq] at h; rw [← h]
    · intro h; simp only [Option.some.injEq]; exact Name.ext h.symm
  · rename_i hno
    constructor
    · intro h; cases h
    · intro h; exact absurd (h ▸ n.valid) hno

end Name
end SchemaCompiler

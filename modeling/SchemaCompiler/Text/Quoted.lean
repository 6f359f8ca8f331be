import SchemaCompiler.Text.Unicode.Category
import SchemaCompiler.Text.Unicode.Property

/-!
# Quoted texts in messages

Messages quote names, keywords and patterns so that each stays on one line and shows what it
holds: quotes and backslashes are escaped, and so is every character without a visible form of
its own, by its code point between braces.
-/
namespace SchemaCompiler.Text

def hexDigits (n : Nat) : List Char := Nat.toDigits 16 n

def escapePoint (c : Char) : List Char :=
  ['\\', 'u', '\x7b'] ++ hexDigits c.toNat ++ ['\x7d']

/-- Whether a quoted text shows a character as it is: it has a visible form and does not merge
with the character in front of it. -/
def showsPlainly (c : Char) : Bool :=
  if c.toNat < 127 then 32 ≤ c.toNat
  else Unicode.Category.isPrintable c && !Unicode.Property.graphemeExtend.contains c.toNat

def quoteChar (c : Char) : List Char :=
  if c = '"' then ['\\', '"']
  else if c = '\\' then ['\\', '\\']
  else if c = '\n' then ['\\', 'n']
  else if c = '\r' then ['\\', 'r']
  else if c = '\t' then ['\\', 't']
  else if c.toNat = 0 then ['\\', '0']
  else if showsPlainly c then [c]
  else escapePoint c

def quoted (s : String) : String :=
  "\"" ++ String.ofList (s.toList.flatMap quoteChar) ++ "\""

end SchemaCompiler.Text

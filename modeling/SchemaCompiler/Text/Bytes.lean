/-!
# Texts measured in bytes

Positions in a text count the bytes of its UTF-8 encoding. Texts are handled as lists of
characters, so that a position inside a character is simply not the length of any prefix.
-/
namespace SchemaCompiler.Text

/-- The value of a hexadecimal digit. -/
def hexValue? (c : Char) : Option Nat :=
  if c.isDigit then some (c.toNat - 48)
  else if 'a' ≤ c ∧ c ≤ 'f' then some (c.toNat - 87)
  else if 'A' ≤ c ∧ c ≤ 'F' then some (c.toNat - 55)
  else none

def byteLength : List Char → Nat
  | [] => 0
  | c :: cs => c.utf8Size + byteLength cs

@[simp] theorem byteLength_nil : byteLength [] = 0 := rfl

@[simp] theorem byteLength_cons (c : Char) (cs : List Char) :
    byteLength (c :: cs) = c.utf8Size + byteLength cs := rfl

theorem byteLength_append (xs ys : List Char) :
    byteLength (xs ++ ys) = byteLength xs + byteLength ys := by
  induction xs with
  | nil => simp
  | cons c cs ih => simp [ih, Nat.add_assoc]

theorem utf8ByteSize_ofList (cs : List Char) : (String.ofList cs).utf8ByteSize = byteLength cs := by
  induction cs with
  | nil => rfl
  | cons c cs ih =>
    rw [show c :: cs = [c] ++ cs from rfl, String.ofList_append, String.utf8ByteSize_append, ih,
      byteLength_append, ← String.singleton_eq_ofList, String.utf8ByteSize_singleton]
    rfl

theorem byteLength_toList (s : String) : byteLength s.toList = s.utf8ByteSize := by
  rw [← utf8ByteSize_ofList, String.ofList_toList]

theorem length_le_byteLength (cs : List Char) : cs.length ≤ byteLength cs := by
  induction cs with
  | nil => exact Nat.le_refl _
  | cons c cs ih =>
    have hc := c.utf8Size_pos
    rw [byteLength_cons, List.length_cons]
    omega

theorem length_toList_le (s : String) : s.toList.length ≤ s.utf8ByteSize := by
  rw [← byteLength_toList]
  exact length_le_byteLength _

/-- What follows the first `n` bytes; none when that is inside a character or past the end. -/
def dropBytes? : Nat → List Char → Option (List Char)
  | 0, cs => some cs
  | _ + 1, [] => none
  | n + 1, c :: cs => if c.utf8Size ≤ n + 1 then dropBytes? (n + 1 - c.utf8Size) cs else none
termination_by structural _ cs => cs

/-- The first `n` bytes; none when the cut is inside a character or past the end. -/
def takeBytes? : Nat → List Char → Option (List Char)
  | 0, _ => some []
  | _ + 1, [] => none
  | n + 1, c :: cs =>
    if c.utf8Size ≤ n + 1 then (takeBytes? (n + 1 - c.utf8Size) cs).map (c :: ·) else none
termination_by structural _ cs => cs

/-- The line, counted from one, and the column, in bytes, after the first `offset` bytes. -/
def lineColumn (offset : Nat) (text : List Char) : Nat × Nat :=
  go offset 1 0 text
where
  /-- Goes on from a line and column with `left` bytes to go. -/
  go (left line column : Nat) : List Char → Nat × Nat
    | [] => (line, column)
    | c :: cs =>
      if left = 0 then (line, column)
      else if c = '\n' then go (left - 1) (line + 1) 0 cs
      else go (left - c.utf8Size) line (column + min left c.utf8Size) cs

def lineStart (line : Nat) (text : List Char) : Nat :=
  go (line - 1) 0 text
where
  /-- Skips `lines` more lines from `offset`. -/
  go (lines offset : Nat) : List Char → Nat
    | [] => offset
    | c :: cs =>
      if lines = 0 then offset
      else if c = '\n' then go (lines - 1) (offset + 1) cs
      else go lines (offset + c.utf8Size) cs

end SchemaCompiler.Text

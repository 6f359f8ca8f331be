/-!
# UTF-8

Encoding of characters as bytes, and decoding of any bytes, in which each longest start of a
character that is not completed gives a replacement character.
-/
namespace SchemaCompiler.Text.Utf8

def encode (cs : List Char) : List UInt8 := cs.flatMap String.utf8EncodeChar

def replacement : Char := '\ufffd'

def isContinuation (b : UInt8) : Bool := 0x80 ≤ b.toNat && b.toNat ≤ 0xBF

/-- For a byte that leads a character: how many bytes follow, the value it brings, and the bounds
of the byte behind it. -/
def lead (b : Nat) : Option (Nat × Nat × Nat × Nat) :=
  if 0xC2 ≤ b ∧ b ≤ 0xDF then some (1, b - 0xC0, 0x80, 0xBF)
  else if b = 0xE0 then some (2, 0, 0xA0, 0xBF)
  else if b = 0xED then some (2, 0xD, 0x80, 0x9F)
  else if 0xE1 ≤ b ∧ b ≤ 0xEF then some (2, b - 0xE0, 0x80, 0xBF)
  else if b = 0xF0 then some (3, 0, 0x90, 0xBF)
  else if b = 0xF4 then some (3, 4, 0x80, 0x8F)
  else if 0xF1 ≤ b ∧ b ≤ 0xF3 then some (3, b - 0xF0, 0x80, 0xBF)
  else none

/-- Decodes bytes; `need` bytes are still due for the character whose value so far is `value`, the
next of them between `low` and `high`. -/
def decodeFrom (need value low high : Nat) : List UInt8 → List Char
  | [] => if need = 0 then [] else [replacement]
  | b :: rest =>
    let n := b.toNat
    let fresh : List Char :=
      if n < 0x80 then Char.ofNat n :: decodeFrom 0 0 0 0 rest
      else
        match lead n with
        | some (due, start, low, high) => decodeFrom due start low high rest
        | none => replacement :: decodeFrom 0 0 0 0 rest
    if need = 0 then fresh
    else if low ≤ n ∧ n ≤ high then
      let value := value * 64 + (n - 0x80)
      if need = 1 then Char.ofNat value :: decodeFrom 0 0 0 0 rest
      else decodeFrom (need - 1) value 0x80 0xBF rest
    else replacement :: fresh

def decodeLossy (bytes : List UInt8) : List Char := decodeFrom 0 0 0 0 bytes

end SchemaCompiler.Text.Utf8

import SchemaCompiler.Text.Bytes
import SchemaCompiler.Text.Utf8

/-!
# Percent encoding

Each part of a URL has its own set of characters that are written by their bytes in hexadecimal.
-/
namespace SchemaCompiler.Url

def upperDigit (n : Nat) : Char := if n < 10 then Char.ofNat (n + 48) else Char.ofNat (n + 55)

def percentByte (b : UInt8) : List Char :=
  ['%', upperDigit (b.toNat / 16), upperDigit (b.toNat % 16)]

/-- Whether a character is encoded in every part: controls and all beyond ASCII. -/
def isControl (c : Char) : Bool := c.toNat < 0x20 || c.toNat ≥ 0x7F

def inFragmentSet (c : Char) : Bool := isControl c || [' ', '"', '<', '>', '`'].contains c

def inPathSet (c : Char) : Bool :=
  inFragmentSet c || ['#', '?', '\x7b', '\x7d'].contains c

def inUserSet (c : Char) : Bool :=
  inPathSet c || ['/', ':', ';', '=', '@', '[', '\\', ']', '^', '|'].contains c

/-- The characters encoded in queries; schemes with a host also encode the apostrophe. -/
def inQuerySet (special : Bool) (c : Char) : Bool :=
  isControl c || [' ', '"', '#', '<', '>'].contains c || (special && c == '\'')

def encode (inSet : Char → Bool) (cs : List Char) : List Char :=
  cs.flatMap fun c => if inSet c then (String.utf8EncodeChar c).flatMap percentByte else [c]

/-- The bytes that a text stands for: a percent sign with two digits is a byte, all else is
itself. -/
def decodeBytes : List Char → List UInt8
  | [] => []
  | '%' :: a :: b :: rest =>
    match Text.hexValue? a, Text.hexValue? b with
    | some hi, some lo => UInt8.ofNat (hi * 16 + lo) :: decodeBytes rest
    | _, _ => 37 :: decodeBytes (a :: b :: rest)
  | c :: rest => String.utf8EncodeChar c ++ decodeBytes rest

def decode (s : String) : String := String.ofList (Text.Utf8.decodeLossy (decodeBytes s.toList))

end SchemaCompiler.Url

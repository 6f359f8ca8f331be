import SchemaCompiler.Json.Draft
import SchemaCompiler.Number.Decimal

/-!
# Reading JSON text

The reader turns a text into a draft and the rest of the text behind it. It accepts the standard
grammar with at most 127 nested arrays and objects. A number without point and exponent is an
integer when it fits into 64 bits and is not `-0`; every other number is a double.
-/
namespace SchemaCompiler.Json

def isBlank (c : Char) : Bool := c == ' ' || c == '\t' || c == '\n' || c == '\r'

def skipBlank (cs : List Char) : List Char := cs.dropWhile isBlank

/-- What a step of the reader gives: a part and the rest of the text, or a fault. -/
abbrev Step (α : Type) := Except Fault (α × List Char)

/-! ## Strings -/

def hexWord? (a b c d : Char) : Option Nat := do
  let a ← Text.hexValue? a
  let b ← Text.hexValue? b
  let c ← Text.hexValue? c
  let d ← Text.hexValue? d
  return ((a * 16 + b) * 16 + c) * 16 + d

/-- Why the text is not four hexadecimal digits: it ends within four bytes, or they say nothing. -/
def badHex (cs : List Char) : Fault :=
  if Text.byteLength cs < 4 then .atEnd .endInString
  else ⟨.invalidEscape, Text.byteLength cs - 4⟩

def shortEscape? (c : Char) : Option Char :=
  if c = '"' then some '"'
  else if c = '\\' then some '\\'
  else if c = '/' then some '/'
  else if c = 'b' then some '\x08'
  else if c = 'f' then some '\x0c'
  else if c = 'n' then some '\n'
  else if c = 'r' then some '\r'
  else if c = 't' then some '\t'
  else none

def consChar (c : Char) : Step (List Char) → Step (List Char)
  | .ok (s, rest) => .ok (c :: s, rest)
  | .error fault => .error fault

def readChars : List Char → Step (List Char)
  | [] => .error (.atEnd .endInString)
  | '"' :: rest => .ok ([], rest)
  | '\\' :: 'u' :: a :: b :: c :: d :: rest =>
    match hexWord? a b c d with
    | none => .error (badHex (a :: b :: c :: d :: rest))
    | some n =>
      if 0xDC00 ≤ n ∧ n ≤ 0xDFFF then .error (.before .loneSurrogate rest)
      else if 0xD800 ≤ n ∧ n ≤ 0xDBFF then
        match rest with
        | '\\' :: 'u' :: e :: f :: g :: h :: rest =>
          match hexWord? e f g h with
          | none => .error (badHex (e :: f :: g :: h :: rest))
          | some m =>
            if 0xDC00 ≤ m ∧ m ≤ 0xDFFF then
              consChar (Char.ofNat (0x10000 + (n - 0xD800) * 0x400 + (m - 0xDC00)))
                (readChars rest)
            else .error (.before .loneSurrogate rest)
        | '\\' :: 'u' :: short => .error (badHex short)
        | ['\\'] => .error (.atEnd .endInString)
        | '\\' :: other => .error (.atNext .unfinishedSurrogate other)
        | [] => .error (.atEnd .endInString)
        | other => .error (.atNext .unfinishedSurrogate other)
      else consChar (Char.ofNat n) (readChars rest)
  | '\\' :: 'u' :: short => .error (badHex short)
  | ['\\'] => .error (.atEnd .endInString)
  | '\\' :: c :: rest =>
    match shortEscape? c with
    | some e => consChar e (readChars rest)
    | none => .error (.atNext .invalidEscape (c :: rest))
  | c :: rest =>
    if c.toNat < 32 then .error (.before .controlCharacter rest)
    else consChar c (readChars rest)

def readString (cs : List Char) : Step String :=
  match readChars cs with
  | .ok (s, rest) => .ok (String.ofList s, rest)
  | .error fault => .error fault

/-! ## Numbers -/

/-- Adds digits to a coefficient as long as it fits into 64 bits; gives the coefficient, how many
digits were added, and the rest. -/
def absorb (coefficient : Nat) : List Char → Nat × Nat × List Char
  | [] => (coefficient, 0, [])
  | c :: rest =>
    let next := coefficient * 10 + (c.toNat - 48)
    if c.isDigit && next ≤ maxUnsigned then
      let (n, count, rest) := absorb next rest
      (n, count + 1, rest)
    else (coefficient, 0, c :: rest)

/-- Adds digits to an exponent. It gives none when the exponent outgrows 31 bits, with the rest
behind the digit that did so. -/
def absorbExponent (exponent : Nat) : List Char → Option Nat × List Char
  | [] => (some exponent, [])
  | c :: rest =>
    if c.isDigit then
      let next := exponent * 10 + (c.toNat - 48)
      if next ≤ 2147483647 then absorbExponent next rest else (none, rest)
    else (some exponent, c :: rest)

def readScaled (negative : Bool) (coefficient : Nat) (exponent : Int) (rest : List Char) :
    Step Number :=
  match Binary64.ofDecimal? negative coefficient exponent with
  | some x => .ok (.float x, rest)
  | none => .error (.before .numberOutOfRange rest)

def readExponent (negative : Bool) (coefficient : Nat) (shift : Int) (cs : List Char) :
    Step Number :=
  let (down, cs) :=
    match cs with
    | '+' :: rest => (false, rest)
    | '-' :: rest => (true, rest)
    | _ => (false, cs)
  match cs with
  | [] => .error (.atEnd .endInValue)
  | c :: rest =>
    if c.isDigit then
      match absorbExponent (c.toNat - 48) rest with
      | (some e, rest) =>
        readScaled negative coefficient (if down then shift - e else shift + e) rest
      | (none, rest) =>
        if coefficient ≠ 0 ∧ down = false then .error (.before .numberOutOfRange rest)
        else .ok (.float (Binary64.zero negative), rest.dropWhile Char.isDigit)
    else .error (.atNext .invalidNumber cs)

def readFractionEnd (negative : Bool) (coefficient : Nat) (shift : Int) (cs : List Char) :
    Step Number :=
  match cs with
  | 'e' :: rest | 'E' :: rest => readExponent negative coefficient shift rest
  | _ => readScaled negative coefficient shift cs

/-- A fraction whose point has been read. Digits that do not fit are dropped. -/
def readFraction (negative : Bool) (coefficient : Nat) (shift : Int) (cs : List Char) :
    Step Number :=
  let (n, count, rest) := absorb coefficient cs
  match rest with
  | [] =>
    if count = 0 then .error (.atEnd .endInValue)
    else readFractionEnd negative n (shift - count) []
  | c :: _ =>
    if count = 0 ∧ c.isDigit = false then .error (.atNext .invalidNumber rest)
    else readFractionEnd negative n (shift - count) (rest.dropWhile Char.isDigit)

/-- What follows the digits in front of the point. Digits that did not fit are counted by
`dropped`. -/
def readNumberEnd (negative : Bool) (coefficient dropped : Nat) (cs : List Char) :
    Step Number :=
  match cs with
  | '.' :: rest => readFraction negative coefficient dropped rest
  | 'e' :: rest | 'E' :: rest => readExponent negative coefficient dropped rest
  | _ =>
    if dropped ≠ 0 then readScaled negative coefficient dropped cs
    else if negative = false then .ok (.int coefficient, cs)
    else if coefficient = 0 ∨ minSigned > -(coefficient : Int) then
      .ok (.float (Binary64.nearest true coefficient 1), cs)
    else .ok (.int (-(coefficient : Int)), cs)

def readNumber (negative : Bool) (cs : List Char) : Step Number :=
  match cs with
  | [] => .error (.atEnd .endInValue)
  | '0' :: rest =>
    match rest with
    | c :: _ =>
      if c.isDigit then .error (.atNext .invalidNumber rest)
      else readNumberEnd negative 0 0 rest
    | [] => readNumberEnd negative 0 0 []
  | c :: _ =>
    if c.isDigit then
      let (n, _, rest) := absorb 0 cs
      let dropped := rest.takeWhile Char.isDigit
      readNumberEnd negative n dropped.length (rest.dropWhile Char.isDigit)
    else .error (.atNext .invalidNumber cs)

/-! ## Values -/

def readLiteral : List Char → List Char → Except Fault (List Char)
  | [], rest => .ok rest
  | _ :: _, [] => .error (.atEnd .endInValue)
  | e :: es, c :: rest =>
    if e = c then readLiteral es rest else .error (.atNext .expectedLiteral (c :: rest))

/-- A part of a draft and the rest of the text; no rest when a fault ends the reading. -/
abbrev Reading (α : Type) := α × Option (List Char)

def scalar {α : Type} (wrap : α → Draft) : Step α → Reading Draft
  | .ok (a, rest) => (wrap a, some rest)
  | .error fault => (.broken fault, none)

def consItem (item : Draft) (rest : Reading (List Draft × Option Fault)) :
    Reading (List Draft × Option Fault) :=
  ((item :: rest.1.1, rest.1.2), rest.2)

def consMember (key : String) (value : Draft)
    (rest : Reading (List (String × Draft) × Option Fault)) :
    Reading (List (String × Draft) × Option Fault) :=
  (((key, value) :: rest.1.1, rest.1.2), rest.2)

def stopAt {α : Type} (fault : Fault) : Reading (List α × Option Fault) :=
  (([], some fault), none)

mutual
/-- One value, with leading blanks. `levels` bounds the nesting; `fuel` the number of steps, and
twice the length of the text is always enough. -/
def readValue (fuel levels : Nat) (cs : List Char) : Reading Draft :=
  match fuel with
  | 0 => (.broken (.atEnd .endInValue), none)
  | fuel + 1 =>
    match skipBlank cs with
    | [] => (.broken (.atEnd .endInValue), none)
    | 'n' :: rest => scalar (fun _ => .null) ((readLiteral ['u', 'l', 'l'] rest).map ((), ·))
    | 't' :: rest => scalar (fun _ => .bool true) ((readLiteral ['r', 'u', 'e'] rest).map ((), ·))
    | 'f' :: rest =>
      scalar (fun _ => .bool false) ((readLiteral ['a', 'l', 's', 'e'] rest).map ((), ·))
    | '-' :: rest => scalar .number (readNumber true rest)
    | '"' :: rest => scalar .string (readString rest)
    | '[' :: rest =>
      if levels ≤ 1 then (.broken (.before .tooDeep rest), none)
      else
        let ((items, stop), rest) := readItems fuel (levels - 1) true rest
        (.array items stop, rest)
    | '\x7b' :: rest =>
      if levels ≤ 1 then (.broken (.before .tooDeep rest), none)
      else
        let ((members, stop), rest) := readMembers fuel (levels - 1) true rest
        (.object members stop, rest)
    | c :: rest =>
      if c.isDigit then scalar .number (readNumber false (c :: rest))
      else (.broken (.atNext .expectedValue (c :: rest)), none)

def readItems (fuel levels : Nat) (first : Bool) (cs : List Char) :
    Reading (List Draft × Option Fault) :=
  match fuel with
  | 0 => stopAt (.atEnd .endInList)
  | fuel + 1 =>
    match skipBlank cs with
    | [] => stopAt (.atEnd .endInList)
    | ']' :: rest => (([], none), some rest)
    | c :: rest =>
      if first then readItem fuel levels (c :: rest)
      else if c = ',' then
        match skipBlank rest with
        | [] => stopAt (.atEnd .endInValue)
        | ']' :: rest => stopAt (.before .trailingComma rest)
        | c :: rest => readItem fuel levels (c :: rest)
      else stopAt (.atNext .expectedListEnd (c :: rest))

def readItem (fuel levels : Nat) (cs : List Char) : Reading (List Draft × Option Fault) :=
  match fuel with
  | 0 => stopAt (.atEnd .endInList)
  | fuel + 1 =>
    match readValue fuel levels cs with
    | (item, some rest) => consItem item (readItems fuel levels false rest)
    | (item, none) => (([item], none), none)

/-- The members of an object up to its end; `first` when none has been read. -/
def readMembers (fuel levels : Nat) (first : Bool) (cs : List Char) :
    Reading (List (String × Draft) × Option Fault) :=
  match fuel with
  | 0 => stopAt (.atEnd .endInObject)
  | fuel + 1 =>
    match skipBlank cs with
    | [] => stopAt (.atEnd .endInObject)
    | '\x7d' :: rest => (([], none), some rest)
    | c :: rest =>
      if first then
        if c = '"' then readMember fuel levels rest
        else stopAt (.atNext .expectedKey (c :: rest))
      else if c = ',' then
        match skipBlank rest with
        | [] => stopAt (.atEnd .endInValue)
        | '"' :: rest => readMember fuel levels rest
        | '\x7d' :: rest => stopAt (.before .trailingComma rest)
        | c :: rest => stopAt (.atNext .expectedKey (c :: rest))
      else stopAt (.atNext .expectedObjectEnd (c :: rest))

/-- One member, the opening quote of which has been read, and those behind it. -/
def readMember (fuel levels : Nat) (cs : List Char) :
    Reading (List (String × Draft) × Option Fault) :=
  match fuel with
  | 0 => stopAt (.atEnd .endInObject)
  | fuel + 1 =>
    match readString cs with
    | .error fault => stopAt fault
    | .ok (key, rest) =>
      match skipBlank rest with
      | [] => (([(key, .broken (.atEnd .endInObject))], none), none)
      | ':' :: rest =>
        match readValue fuel levels rest with
        | (value, some rest) => consMember key value (readMembers fuel levels false rest)
        | (value, none) => (([(key, value)], none), none)
      | c :: rest => (([(key, .broken (.atNext .expectedColon (c :: rest)))], none), none)
end

def nestingLimit : Nat := 128

def readDraft (cs : List Char) : Reading Draft :=
  readValue (3 * cs.length + 3) nestingLimit cs

def readPrefix (cs : List Char) : Step Json :=
  let (draft, rest) := readDraft cs
  match draft.fault?, rest with
  | some fault, _ => .error fault
  | none, some rest => .ok (draft.toJson, rest)
  | none, none => .error (.atEnd .endInValue)

def endsToken (c : Char) : Bool :=
  isBlank c || ['"', '[', ']', '\x7b', '\x7d', ',', ':'].contains c

/-- The first of a sequence of values, with the rest of the text. A number or a literal has to be
followed by a blank, by punctuation or by the end. -/
def readNext (cs : List Char) : Step Json :=
  match readPrefix cs with
  | .error fault => .error fault
  | .ok (value, rest) =>
    match value, rest with
    | .string _, _ | .array _, _ | .object _, _ => .ok (value, rest)
    | _, [] => .ok (value, rest)
    | _, c :: _ =>
      if endsToken c then .ok (value, rest) else .error (.atNext .trailingCharacters rest)

def read (text : String) : Except Fault Json :=
  match readPrefix text.toList with
  | .error fault => .error fault
  | .ok (value, rest) =>
    match skipBlank rest with
    | [] => .ok value
    | other => .error (.atNext .trailingCharacters other)

end SchemaCompiler.Json

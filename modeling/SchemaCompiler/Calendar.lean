import SchemaCompiler.Text.Unicode.Property

/-!
# Dates and times

Which texts are dates, times of day and timestamps. Dates are those of the Gregorian calendar,
extended to all years.
-/
namespace SchemaCompiler.Calendar

def isLeap (year : Int) : Bool := year % 4 == 0 && (year % 100 != 0 || year % 400 == 0)

def daysIn (year : Int) (month : Nat) : Nat :=
  match month with
  | 1 | 3 | 5 | 7 | 8 | 10 | 12 => 31
  | 4 | 6 | 9 | 11 => 30
  | 2 => if isLeap year then 29 else 28
  | _ => 0

def isDay (year : Int) (month day : Nat) : Bool := 1 ≤ day && day ≤ daysIn year month

def number (digits : List Char) : Nat := digits.foldl (fun n c => n * 10 + (c.toNat - 48)) 0

/-- The first `count` characters as a number, when all of them are digits. -/
def fixed (count : Nat) (cs : List Char) : Option (Nat × List Char) :=
  let digits := cs.take count
  if digits.length = count ∧ digits.all Char.isDigit then some (number digits, cs.drop count)
  else none

def expect (c : Char) : List Char → Option (List Char)
  | d :: rest => if c = d then some rest else none
  | [] => none

def skipFraction : List Char → Option (List Char)
  | '.' :: c :: rest => if c.isDigit then some (rest.dropWhile Char.isDigit) else none
  | ['.'] => none
  | cs => some cs

/-- Whether the text is a shift from universal time: the letter `Z`, or hours and minutes below a
day with a sign. -/
def isShift : List Char → Bool
  | ['Z'] => true
  | ['z'] => true
  | sign :: cs =>
    (sign == '+' || sign == '-' || sign == '−')
      && (match (do
            let (hours, rest) ← fixed 2 cs
            let rest ← expect ':' rest
            let (minutes, rest) ← fixed 2 rest
            return (hours, minutes, rest) : Option (Nat × Nat × List Char)) with
          | some (hours, minutes, []) => hours ≤ 23 && minutes ≤ 59
          | _ => false)
  | [] => false

def isTimestampText (cs : List Char) : Bool :=
  match (do
      let (year, rest) ← fixed 4 cs
      let rest ← expect '-' rest
      let (month, rest) ← fixed 2 rest
      let rest ← expect '-' rest
      let (day, rest) ← fixed 2 rest
      let rest ←
        match rest with
        | c :: rest => if c = 'T' ∨ c = 't' ∨ c = ' ' then some rest else none
        | [] => none
      let (hour, rest) ← fixed 2 rest
      let rest ← expect ':' rest
      let (minute, rest) ← fixed 2 rest
      let rest ← expect ':' rest
      let (second, rest) ← fixed 2 rest
      let rest ← skipFraction rest
      return (isDay year month day && hour ≤ 23 && minute ≤ 59 && second ≤ 60 && isShift rest) :
      Option Bool) with
  | some ok => ok
  | none => false

def isTimestamp (s : String) : Bool := isTimestampText s.toList

def isTime (s : String) : Bool := isTimestampText ("1970-01-01T".toList ++ s.toList)

def upTo (count : Nat) (cs : List Char) : Option (Nat × List Char) :=
  let digits := (cs.take count).takeWhile Char.isDigit
  if digits.isEmpty then none else some (number digits, cs.drop digits.length)

def skipSpace (cs : List Char) : List Char :=
  cs.dropWhile fun c => Text.Unicode.Property.whiteSpace.contains c.toNat

def readYear (cs : List Char) : Option (Int × List Char) :=
  match skipSpace cs with
  | '-' :: rest => (upTo rest.length rest).map fun (n, rest) => (-(n : Int), rest)
  | '+' :: rest => (upTo rest.length rest).map fun (n, rest) => ((n : Int), rest)
  | cs => (upTo 4 cs).map fun (n, rest) => ((n : Int), rest)

/-- Whether a text of ten bytes is a date; its numbers may have white space in front. -/
def isDate (s : String) : Bool :=
  s.utf8ByteSize == 10
    && (match (do
          let (year, rest) ← readYear s.toList
          let rest ← expect '-' rest
          let (month, rest) ← upTo 2 (skipSpace rest)
          let rest ← expect '-' rest
          let (day, rest) ← upTo 2 (skipSpace rest)
          return (isDay year month day && rest.isEmpty) : Option Bool) with
        | some ok => ok
        | none => false)

end SchemaCompiler.Calendar

import SchemaCompiler.Url.Basic

/-!
# Hosts

Hosts of special schemes are names in lower case or addresses; other hosts are kept as written.
-/
namespace SchemaCompiler.Url

def splitOn (mark : Char) : List Char → List (List Char)
  | [] => [[]]
  | c :: rest =>
    if c = mark then [] :: splitOn mark rest
    else
      match splitOn mark rest with
      | [] => [[c]]
      | part :: parts => (c :: part) :: parts

def numberOf? (base : Nat) (cs : List Char) : Option Nat :=
  cs.foldlM (fun n c => do
    let d ← Text.hexValue? c
    if d < base then some (n * base + d) else none) 0

/-- A part of an address of four numbers: hexadecimal behind `0x`, octal behind `0`. -/
def ipv4Part? (cs : List Char) : Option Nat :=
  match cs with
  | [] => none
  | '0' :: 'x' :: rest => numberOf? 16 rest
  | '0' :: 'X' :: rest => numberOf? 16 rest
  | '0' :: c :: rest => numberOf? 8 (c :: rest)
  | cs => numberOf? 10 cs

def dottedParts (cs : List Char) : List (List Char) :=
  let parts := splitOn '.' cs
  match parts.getLast? with
  | some [] => if parts.length > 1 then parts.dropLast else parts
  | _ => parts

/-- Whether the last part of a name is a number, so that the name has to be an address. -/
def endsInNumber (cs : List Char) : Bool :=
  match (dottedParts cs).getLast? with
  | some part => (!part.isEmpty && part.all Char.isDigit) || (ipv4Part? part).isSome
  | none => false

def ipv4Text (n : Nat) : List Char :=
  Nat.toDigits 10 (n / 16777216) ++ '.' :: (Nat.toDigits 10 (n / 65536 % 256) ++ '.' ::
    (Nat.toDigits 10 (n / 256 % 256) ++ '.' :: Nat.toDigits 10 (n % 256)))

/-- An address of up to four numbers: the last fills what the others leave. -/
def ipv4 (cs : List Char) : Except Fault (List Char) :=
  let parts := dottedParts cs
  if parts.length > 4 then .error .invalidIpv4
  else
    match parts.mapM ipv4Part? with
    | none => .error .invalidIpv4
    | some numbers =>
      let last := numbers.getLast?.getD 0
      let front := numbers.dropLast
      if front.any (· > 255) || last ≥ 256 ^ (5 - numbers.length) then .error .invalidIpv4
      else
        let (value, _) :=
          front.foldl (fun (value, i) n => (value + n * 256 ^ (3 - i), i + 1)) (last, 0)
        .ok (ipv4Text value)

def ipv4Bytes? (cs : List Char) : Option (List Nat) :=
  let parts := splitOn '.' cs
  if parts.length ≠ 4 then none
  else
    parts.mapM fun part =>
      if part.isEmpty || part.length > 3 || (part.length > 1 && part.head? == some '0') then none
      else (numberOf? 10 part).bind fun n => if n ≤ 255 then some n else none

/-- The groups of a part of an address on one side of a double colon; the last group of the whole
may be an address of four numbers. -/
def ipv6Groups? (isLast : Bool) (cs : List Char) : Option (List Nat) :=
  if cs.isEmpty then some []
  else
    let parts := splitOn ':' cs
    let rec groups : List (List Char) → Option (List Nat)
      | [] => some []
      | part :: rest =>
        if rest.isEmpty && isLast && part.contains '.' then do
          let bytes ← ipv4Bytes? part
          match bytes with
          | [a, b, c, d] => some [a * 256 + b, c * 256 + d]
          | _ => none
        else if part.isEmpty || part.length > 4 then none
        else do
          let n ← numberOf? 16 part
          let ns ← groups rest
          return n :: ns
    groups parts

def splitDouble : List Char → Option (List Char × List Char)
  | ':' :: ':' :: rest => some ([], rest)
  | c :: rest => (splitDouble rest).map fun (a, b) => (c :: a, b)
  | [] => none

def ipv6Parts? (cs : List Char) : Option (List Nat) :=
  match splitDouble cs with
  | none => do
    let groups ← ipv6Groups? true cs
    if groups.length = 8 then some groups else none
  | some (front, back) => do
    let a ← ipv6Groups? false front
    let b ← ipv6Groups? true back
    if a.length + b.length ≤ 7 then
      some (a ++ List.replicate (8 - a.length - b.length) 0 ++ b)
    else none

def zeroRun (groups : List Nat) : Nat := (groups.takeWhile (· == 0)).length

/-- Where the first longest run of at least two zeros starts, and its length. -/
def longestZeros (groups : List Nat) : Option (Nat × Nat) :=
  (List.range groups.length).foldl (fun best i =>
    let n := zeroRun (groups.drop i)
    match best with
    | some (_, m) => if n > m then some (i, n) else best
    | none => if n ≥ 2 then some (i, n) else none) none

def groupsText (groups : List Nat) : List Char :=
  [':'].intercalate (groups.map (Nat.toDigits 16))

def ipv6Text (groups : List Nat) : List Char :=
  match longestZeros groups with
  | none => groupsText groups
  | some (i, n) => groupsText (groups.take i) ++ ':' :: ':' :: groupsText (groups.drop (i + n))

def ipv6 (cs : List Char) : Except Fault (List Char) :=
  match cs.reverse with
  | ']' :: rest =>
    match ipv6Parts? rest.reverse with
    | some groups => .ok ('[' :: ipv6Text groups ++ [']'])
    | none => .error .invalidIpv6
  | _ => .error .invalidIpv6

def isForbidden (c : Char) : Bool :=
  c.toNat == 0 || ['\t', '\n', '\r', ' ', '#', '/', ':', '<', '>', '?', '@', '[', '\\', ']', '^',
    '|'].contains c

def isForbiddenInName (c : Char) : Bool :=
  isForbidden c || c.toNat < 0x20 || c.toNat == 0x7F || c == '%'

def specialHost (cs : List Char) : Except Fault (List Char) :=
  match cs with
  | '[' :: rest => ipv6 rest
  | cs =>
    let name := (Text.Utf8.decodeLossy (decodeBytes cs)).map Char.toLower
    if name.isEmpty then .error .emptyHost
    else if name.any fun c => c.toNat ≥ 0x80 then .error .invalidName
    else if name.any isForbiddenInName then .error .invalidDomain
    else if endsInNumber name then ipv4 name
    else .ok name

def opaqueHost (cs : List Char) : Except Fault (List Char) :=
  match cs with
  | '[' :: rest => ipv6 rest
  | cs =>
    if cs.any isForbidden then .error .invalidDomain
    else .ok (encode isControl cs)

end SchemaCompiler.Url

import SchemaCompiler.Pattern.Basic
import SchemaCompiler.Pattern.Property
import SchemaCompiler.Text.Bytes

/-!
# Reading patterns

The notation of patterns: literals and escapes, classes in brackets with nested classes and set
operations, groups with flags, counted repetitions, alternatives and assertions. There is no
look-around and there are no back references. A text that is not a pattern has no reading; why
not is not told apart.
-/
namespace SchemaCompiler.Pattern

/-- The flags in force at a place of a pattern. -/
structure Flags where
  caseless : Bool
  multiLine : Bool
  dotAll : Bool
  unicode : Bool
  verbose : Bool
  bothEnds : Bool

namespace Flags

def initial : Flags := ⟨false, false, false, true, false, false⟩

def set (flags : Flags) (letter : Char) (on : Bool) : Option Flags :=
  match letter with
  | 'i' => some { flags with caseless := on }
  | 'm' => some { flags with multiLine := on }
  | 's' => some { flags with dotAll := on }
  | 'U' => some flags
  | 'u' => some { flags with unicode := on }
  | 'R' => some { flags with bothEnds := on }
  | 'x' => some { flags with verbose := on }
  | _ => none

def fold (flags : Flags) (chars : CharSet) : CharSet :=
  if flags.caseless then
    if flags.unicode then .folded chars else .foldedAscii chars
  else chars

end Flags

/-! ## Blanks -/

def isSpace (c : Char) : Bool := Text.Unicode.Property.whiteSpace.contains c.toNat

def skipVerbose (inComment : Bool) : List Char → List Char
  | [] => []
  | c :: rest =>
    if inComment then skipVerbose (c != '\n') rest
    else if isSpace c then skipVerbose false rest
    else if c = '#' then skipVerbose true rest
    else c :: rest

/-- Skips what does not count: white space and comments in a verbose pattern, else nothing. -/
def skip (flags : Flags) (cs : List Char) : List Char :=
  if flags.verbose then skipVerbose false cs else cs

/-! ## Escapes -/

/-- What an escape or a plain character stands for. A code given by two hexadecimal digits is
kept apart, since without the flag `u` it means a byte. -/
inductive Atom where
  | char (c : Char)
  | byte (c : Char)
  | chars (set : CharSet)
  | assertion (a : Assertion)

def isMeta (c : Char) : Bool :=
  ['\\', '.', '+', '*', '?', '(', ')', '|', '[', ']', '\x7b', '\x7d', '^', '$', '#', '&', '-',
    '~'].contains c

def isEscapable (c : Char) : Bool :=
  isMeta c || (c.toNat < 128 && !c.isAlphanum && c != '<' && c != '>')

def charOf? (n : Nat) : Option Char :=
  if h : n.isValidChar then some (Char.ofNatAux n h) else none

def readHexDigits (flags : Flags) : Nat → Nat → List Char → Option (Nat × List Char)
  | 0, n, cs => some (n, cs)
  | _ + 1, _, [] => none
  | count + 1, n, c :: rest => do
    let digit ← Text.hexValue? c
    readHexDigits flags count (n * 16 + digit) (skip flags rest)

/-- Hexadecimal digits up to a closing brace; `some` digit has been read when `any`. -/
def readHexBrace (flags : Flags) (fuel : Nat) (any : Bool) (n : Nat) (cs : List Char) :
    Option (Nat × List Char) :=
  match fuel, skip flags cs with
  | 0, _ => none
  | _ + 1, [] => none
  | fuel + 1, c :: rest =>
    if c = '\x7d' then if any && n ≤ 0xFFFFFFFF then some (n, skip flags rest) else none
    else do
      let digit ← Text.hexValue? c
      readHexBrace flags fuel true (n * 16 + digit) rest

/-- A character by its code, behind the letter that announces `digits` digits. -/
def readHex (flags : Flags) (digits : Nat) (cs : List Char) : Option (Atom × List Char) :=
  match skip flags cs with
  | [] => none
  | '\x7b' :: rest => do
    let (n, rest) ← readHexBrace flags (rest.length + 1) false 0 rest
    let c ← charOf? n
    return (.char c, rest)
  | cs => do
    let (n, rest) ← readHexDigits flags digits 0 cs
    let c ← charOf? n
    return (if digits = 2 then .byte c else .char c, rest)

def readBraced (flags : Flags) (fuel : Nat) (cs : List Char) : Option (List Char × List Char) :=
  match fuel, skip flags cs with
  | 0, _ => none
  | _ + 1, [] => none
  | fuel + 1, c :: rest =>
    if c = '\x7d' then some ([], rest)
    else do
      let (name, rest) ← readBraced flags fuel rest
      return (c :: name, rest)

def splitAt? (mark : List Char) : List Char → Option (List Char × List Char)
  | [] => none
  | c :: rest =>
    if mark.isPrefixOf (c :: rest) then some ([], (c :: rest).drop mark.length)
    else (splitAt? mark rest).map fun (a, b) => (c :: a, b)

def propertySet (name : List Char) : Option (CharSet × Bool) :=
  match splitAt? ['!', '='] name with
  | some (p, v) => (valued? (String.ofList p) (String.ofList v)).map (·, true)
  | none =>
    match (splitAt? [':'] name).or (splitAt? ['='] name) with
    | some (p, v) => (valued? (String.ofList p) (String.ofList v)).map (·, false)
    | none => (named? (String.ofList name)).map (·, false)

def readProperty (flags : Flags) (negated : Bool) (cs : List Char) :
    Option (Atom × List Char) :=
  if !flags.unicode then none
  else
    match skip flags cs with
    | [] => none
    | '\x7b' :: rest => do
      let (name, rest) ← readBraced flags (rest.length + 1) rest
      let (chars, flipped) ← propertySet name
      let chars := flags.fold chars
      return (.chars (if negated != flipped then .complement chars else chars), rest)
    | c :: rest =>
      if c = '\\' then none
      else do
        let chars ← named? (String.ofList [c])
        let chars := flags.fold chars
        return (.chars (if negated then .complement chars else chars), skip flags rest)

def letterSet (flags : Flags) (c : Char) : Option CharSet :=
  let set (wide narrow : CharSet) := if flags.unicode then wide else narrow
  let ascii (l : List (Nat × Nat)) : CharSet := .table ⟨l⟩
  match c with
  | 'd' | 'D' => some (set .digit (ascii [(48, 57)]))
  | 's' | 'S' => some (set .space (ascii [(9, 13), (32, 32)]))
  | 'w' | 'W' => some (set .word (ascii [(48, 57), (65, 90), (95, 95), (97, 122)]))
  | _ => none

def edgeNamed? (ascii : Bool) (name : List Char) : Option Assertion :=
  if name == "start".toList then some (.wordStart ascii)
  else if name == "end".toList then some (.wordStop ascii)
  else if name == "start-half".toList then some (.wordStartHalf ascii)
  else if name == "end-half".toList then some (.wordStopHalf ascii)
  else none

/-- A word boundary behind its letter, with the name of a special one in braces. A brace that
starts no name belongs to a repetition. -/
def readEdge (flags : Flags) (cs : List Char) : Option (Atom × List Char) :=
  let plain := some (Atom.assertion (.wordEdge !flags.unicode), cs)
  match cs with
  | '\x7b' :: rest =>
    match skip flags rest with
    | [] => none
    | c :: rest =>
      if c.isAlpha || c = '-' then do
        let (name, rest) ← readBraced flags (rest.length + 2) (c :: rest)
        let edge ← edgeNamed? (!flags.unicode) name
        return (.assertion edge, rest)
      else plain
  | _ => plain

def readEscape (flags : Flags) : List Char → Option (Atom × List Char)
  | [] => none
  | c :: rest =>
    let ascii := !flags.unicode
    if c.isDigit then none
    else if c = 'x' then readHex flags 2 rest
    else if c = 'u' then readHex flags 4 rest
    else if c = 'U' then readHex flags 8 rest
    else if c = 'p' then readProperty flags false rest
    else if c = 'P' then readProperty flags true rest
    else
      match letterSet flags c with
      | some chars =>
        if c.isUpper then
          if flags.unicode then some (.chars (.complement chars), rest) else none
        else some (.chars chars, rest)
      | none =>
        if isEscapable c then some (.char c, rest)
        else
          match c with
          | 'a' => some (.char '\x07', rest)
          | 'f' => some (.char '\x0c', rest)
          | 't' => some (.char '\t', rest)
          | 'n' => some (.char '\n', rest)
          | 'r' => some (.char '\r', rest)
          | 'v' => some (.char '\x0b', rest)
          | 'A' => some (.assertion .start, rest)
          | 'z' => some (.assertion .stop, rest)
          | 'b' => readEdge flags rest
          | 'B' => some (.assertion (.noWordEdge ascii), rest)
          | '<' => some (.assertion (.wordStart ascii), rest)
          | '>' => some (.assertion (.wordStop ascii), rest)
          | _ => none

/-! ## Classes in brackets -/

/-- An operation between the parts of a class. -/
inductive SetOp where
  | inter
  | diff
  | either

def SetOp.apply : SetOp → CharSet → CharSet → CharSet
  | inter, a, b => .inter a b
  | diff, a, b => .diff a b
  | either, a, b => .either a b

/-- A set with its depth of nesting. -/
structure ClassPart where
  chars : CharSet
  depth : Nat

def posixSets : List (String × List (Nat × Nat)) :=
  [ ("alnum", [(48, 57), (65, 90), (97, 122)]),
    ("alpha", [(65, 90), (97, 122)]),
    ("ascii", [(0, 127)]),
    ("blank", [(9, 9), (32, 32)]),
    ("cntrl", [(0, 31), (127, 127)]),
    ("digit", [(48, 57)]),
    ("graph", [(33, 126)]),
    ("lower", [(97, 122)]),
    ("print", [(32, 126)]),
    ("punct", [(33, 47), (58, 64), (91, 96), (123, 126)]),
    ("space", [(9, 13), (32, 32)]),
    ("upper", [(65, 90)]),
    ("word", [(48, 57), (65, 90), (95, 95), (97, 122)]),
    ("xdigit", [(48, 57), (65, 70), (97, 102)]) ]

def readPosix (flags : Flags) (cs : List Char) : Option (CharSet × List Char) :=
  match cs with
  | ':' :: rest =>
    let (negated, rest) :=
      match rest with
      | '^' :: rest => (true, rest)
      | _ => (false, rest)
    let name := rest.takeWhile (· != ':')
    match rest.dropWhile (· != ':') with
    | ':' :: ']' :: rest => do
      let ranges ← posixSets.lookup (String.ofList name)
      let chars := flags.fold (.table ⟨ranges⟩)
      if negated then
        if flags.unicode then some (.complement chars, rest) else none
      else some (chars, rest)
    | _ => none
  | _ => none

/-- One item of a class: a character, possibly the start of a range, or a set. -/
def readItem (flags : Flags) : List Char → Option (Atom × List Char)
  | [] => none
  | '\\' :: rest => readEscape flags rest
  | c :: rest => some (.char c, rest)

/-- The character of an item that stands for one. Without the flag `u` it has to be ASCII. -/
def itemChar (flags : Flags) : Atom → Option Char
  | .char c => if flags.unicode || c.toNat < 128 then some c else none
  | .byte c => if flags.unicode || c.toNat < 128 then some c else none
  | _ => none

def itemSet (flags : Flags) : Atom → Option CharSet
  | .chars held => some held
  | atom => (itemChar flags atom).map CharSet.single

def second (flags : Flags) : List Char → Option Char
  | [] => none
  | _ :: rest => (skip flags rest).head?

/-- An item or a range of a class. A dash in front of the end or of another dash starts no
range. -/
def readRange (flags : Flags) (cs : List Char) : Option (CharSet × List Char) := do
  let (low, rest) ← readItem flags cs
  match skip flags rest with
  | [] => none
  | '-' :: after =>
    if second flags ('-' :: after) == some ']' || second flags ('-' :: after) == some '-' then
      let chars ← itemSet flags low
      return (chars, '-' :: after)
    else
      match skip flags after with
      | [] => none
      | cs =>
        let (high, rest) ← readItem flags cs
        let low ← itemChar flags low
        let high ← itemChar flags high
        if low ≤ high then some (.range low.toNat high.toNat, rest) else none
  | rest =>
    let chars ← itemSet flags low
    return (chars, rest)

def leadingDashes (flags : Flags) : Nat → CharSet → List Char → CharSet × List Char
  | 0, chars, cs => (chars, cs)
  | fuel + 1, chars, cs =>
    match skip flags cs with
    | '-' :: rest => leadingDashes flags fuel (.union chars (.single '-')) rest
    | cs => (chars, cs)

/-- The start of a class whose bracket has been read: whether it is negated, and what its first
characters stand for when they would otherwise end it. -/
def openClass (flags : Flags) (cs : List Char) : Option (Bool × CharSet × List Char) :=
  match skip flags cs with
  | [] => none
  | c :: rest =>
    let negated := c == '^'
    let cs := if negated then rest else c :: rest
    let (chars, cs) := leadingDashes flags (cs.length + 1) .none cs
    match cs with
    | [] => none
    | ']' :: rest =>
      if chars = .none then
        match skip flags rest with
        | [] => none
        | rest => some (negated, .single ']', rest)
      else some (negated, chars, cs)
    | cs => some (negated, chars, cs)

/-- The set of what stands in front of an operation or the end of a class. -/
def combine (flags : Flags) (pending : Option (ClassPart × SetOp)) (part : ClassPart) :
    ClassPart :=
  match pending with
  | none => part
  | some (left, op) =>
    ⟨op.apply (flags.fold left.chars) (flags.fold part.chars), max left.depth part.depth + 1⟩

/-- Reads on in a class up to its end. `pending` is what stands in front of the last operation,
`part` what has been read behind it. -/
def readClass (fuel : Nat) (flags : Flags) (negated : Bool)
    (pending : Option (ClassPart × SetOp)) (part : ClassPart) (cs : List Char) :
    Option (ClassPart × List Char) :=
  match fuel with
  | 0 => none
  | fuel + 1 =>
    match skip flags cs with
    | [] => none
    | '[' :: rest =>
      match readPosix flags rest with
      | some (chars, rest) =>
        readClass fuel flags negated pending ⟨.union part.chars chars, part.depth⟩ rest
      | none => do
        let (inverse, start, rest) ← openClass flags rest
        let (inner, rest) ← readClass fuel flags inverse none ⟨start, 0⟩ rest
        readClass fuel flags negated pending
          ⟨.union part.chars inner.chars, max part.depth (inner.depth + 1)⟩ rest
    | ']' :: rest =>
      let whole := combine flags pending part
      let chars := flags.fold whole.chars
      if negated then
        if flags.unicode then some (⟨.complement chars, whole.depth⟩, rest) else none
      else some (⟨chars, whole.depth⟩, rest)
    | '&' :: '&' :: rest =>
      readClass fuel flags negated (some (combine flags pending part, .inter)) ⟨.none, 0⟩ rest
    | '-' :: '-' :: rest =>
      readClass fuel flags negated (some (combine flags pending part, .diff)) ⟨.none, 0⟩ rest
    | '~' :: '~' :: rest =>
      readClass fuel flags negated (some (combine flags pending part, .either)) ⟨.none, 0⟩ rest
    | cs => do
      let (chars, rest) ← readRange flags cs
      readClass fuel flags negated pending ⟨.union part.chars chars, part.depth⟩ rest

/-! ## Repetitions -/

def readDecimal (flags : Flags) (cs : List Char) : Option (Nat × List Char) :=
  let cs := cs.dropWhile isSpace
  let rec digits : Nat → List Char → List Char × List Char
    | 0, cs => ([], cs)
    | fuel + 1, cs =>
      match cs with
      | c :: rest =>
        if c.isDigit then
          let (ds, rest) := digits fuel (skip flags rest)
          (c :: ds, rest)
        else ([], cs)
      | [] => ([], [])
  let (ds, rest) := digits (cs.length + 1) cs
  let n := ds.foldl (fun n c => n * 10 + (c.toNat - 48)) 0
  if ds.isEmpty || n > 4294967295 then none else some (n, rest.dropWhile isSpace)

def readCounts (flags : Flags) (cs : List Char) : Option (Nat × Option Nat × List Char) := do
  let (least, rest) ← readDecimal flags (skip flags cs)
  match rest with
  | '\x7d' :: rest => return (least, some least, rest)
  | ',' :: rest =>
    match skip flags rest with
    | '\x7d' :: rest => return (least, none, rest)
    | rest =>
      let (most, rest) ← readDecimal flags rest
      match rest with
      | '\x7d' :: rest => if least ≤ most then return (least, some most, rest) else none
      | _ => none
  | _ => none

def skipReluctant : List Char → List Char
  | '?' :: rest => rest
  | cs => cs

/-! ## Groups and alternatives -/

/-- A part of a sequence: its pattern, its depth of nesting, and whether it can be repeated. -/
structure Part where
  pattern : Pattern
  depth : Nat
  repeatable : Bool

/-- The flags that letters set; `on` until a dash has been read, `seen` the letters so far. -/
def readFlags (flags : Flags) (on : Bool) (seen : List Char) :
    List Char → Option (Flags × List Char × Bool × List Char)
  | [] => none
  | c :: rest =>
    if c = ':' ∨ c = ')' then
      if on = false ∧ seen.head? = some '-' then none
      else some (flags, seen, c == ':', rest)
    else if seen.contains c then none
    else if c = '-' then readFlags flags false ('-' :: seen) rest
    else do
      let flags ← flags.set c on
      readFlags flags on (c :: seen) rest

def isGroupNameChar (first : Bool) (c : Char) : Bool :=
  c == '_' || Text.Unicode.Property.alphabetic.contains c.toNat
    || (!first && (c == '.' || c == '[' || c == ']'
      || (Text.Unicode.Category.members ["Nd", "Nl", "No"]).contains c.toNat))

def readGroupName (cs : List Char) : Option (String × List Char) :=
  let name := cs.takeWhile (· != '>')
  match name, cs.dropWhile (· != '>') with
  | c :: more, _ :: rest =>
    if isGroupNameChar true c && more.all (isGroupNameChar false) then
      some (String.ofList name, rest)
    else none
  | _, _ => none

/-- What opens behind a round bracket: a change of flags, or a group with flags and perhaps a
name. -/
inductive Opening where
  | flags (flags : Flags)
  | group (flags : Flags) (name : Option String)

def readOpening (flags : Flags) (cs : List Char) : Option (Opening × List Char) :=
  match skip flags cs with
  | '?' :: 'P' :: '<' :: rest => do
    let (name, rest) ← readGroupName rest
    return (.group flags (some name), rest)
  | '?' :: '<' :: rest =>
    match rest with
    | '=' :: _ => none
    | '!' :: _ => none
    | _ => do
      let (name, rest) ← readGroupName rest
      return (.group flags (some name), rest)
  | '?' :: rest => do
    let (changed, seen, isGroup, rest) ← readFlags flags true [] rest
    if isGroup then return (.group changed none, rest)
    else if seen.isEmpty then none
    else return (.flags changed, rest)
  | cs => some (.group flags none, cs)

/-- One character of a pattern. Without the flag `u` the case of a character is only that of
ASCII. -/
def literal (flags : Flags) (c : Char) : Option Part :=
  if flags.caseless && !flags.unicode && c.toNat ≥ 128 then none
  else some ⟨.set (flags.fold (.single c)), 0, true⟩

def atomPart (flags : Flags) : Atom → Option Part
  | .char c => literal flags c
  | .byte c => if flags.unicode || c.toNat < 128 then literal flags c else none
  | .chars held => some ⟨.set held, 0, true⟩
  | .assertion a => some ⟨.assert a, 0, true⟩

def dot (flags : Flags) : Option Part :=
  if !flags.unicode then none
  else if flags.dotAll then some ⟨.set .any, 0, true⟩
  else if flags.bothEnds then
    some ⟨.set (.complement (.union (.single '\n') (.single '\r'))), 0, true⟩
  else some ⟨.set (.complement (.single '\n')), 0, true⟩

def caret (flags : Flags) : Assertion :=
  if flags.multiLine then if flags.bothEnds then .lineStartBoth else .lineStart else .start

def dollar (flags : Flags) : Assertion :=
  if flags.multiLine then if flags.bothEnds then .lineStopBoth else .lineStop else .stop

def sequence (parts : List Part) : Part :=
  match parts with
  | [] => ⟨.empty, 0, true⟩
  | [p] => ⟨p.pattern, p.depth, true⟩
  | last :: earlier =>
    ⟨earlier.foldl (fun acc p => p.pattern.andThen acc) last.pattern,
      (parts.foldl (fun d p => max d p.depth) 0) + 1, true⟩

def alternatives (parts : List Part) : Part :=
  match parts with
  | [] => ⟨.empty, 0, true⟩
  | [p] => p
  | last :: earlier =>
    ⟨earlier.foldl (fun acc p => .alt p.pattern acc) last.pattern,
      (parts.foldl (fun d p => max d p.depth) 0) + 1, true⟩

def repeatLast (least : Nat) (most : Option Nat) : List Part → Option (List Part)
  | [] => none
  | p :: earlier =>
    if p.repeatable then some (⟨p.pattern.times least most, p.depth + 1, true⟩ :: earlier) else none

/-- Reads on up to the end of the text, or of the group when `inGroup`. `names` are the names of
groups so far, `done` the alternatives that are complete, `parts` the parts of the one at hand;
both have the latest first. -/
def readParts (fuel : Nat) (inGroup : Bool) (flags : Flags) (names : List String)
    (done parts : List Part) (cs : List Char) : Option (Part × List String × List Char) :=
  match fuel with
  | 0 => none
  | fuel + 1 =>
    let next := readParts fuel inGroup flags names done
    match skip flags cs with
    | [] => if inGroup then none else some (alternatives (sequence parts :: done), names, [])
    | ')' :: rest =>
      if inGroup then some (alternatives (sequence parts :: done), names, rest) else none
    | '|' :: rest => readParts fuel inGroup flags names (sequence parts :: done) [] rest
    | '(' :: rest => do
      match ← readOpening flags rest with
      | (.flags changed, rest) =>
        readParts fuel inGroup changed names done (⟨.empty, 0, false⟩ :: parts) rest
      | (.group inner name, rest) =>
        let named ←
          match name with
          | none => some names
          | some n => if names.contains n then none else some (n :: names)
        let (body, named, rest) ← readParts fuel true inner named [] [] rest
        readParts fuel inGroup flags named done (⟨body.pattern, body.depth + 1, true⟩ :: parts) rest
    | '[' :: rest => do
      let (negated, start, rest) ← openClass flags rest
      let (chars, rest) ← readClass fuel flags negated none ⟨start, 0⟩ rest
      next (⟨.set chars.chars, chars.depth + 1, true⟩ :: parts) rest
    | '?' :: rest => do next (← repeatLast 0 (some 1) parts) (skipReluctant rest)
    | '*' :: rest => do next (← repeatLast 0 none parts) (skipReluctant rest)
    | '+' :: rest => do next (← repeatLast 1 none parts) (skipReluctant rest)
    | '\x7b' :: rest => do
      let (least, most, rest) ← readCounts flags rest
      next (← repeatLast least most parts) (skipReluctant (skip flags rest))
    | '\\' :: rest => do
      let (atom, rest) ← readEscape flags rest
      next ((← atomPart flags atom) :: parts) rest
    | '.' :: rest => do next ((← dot flags) :: parts) rest
    | '^' :: rest => next (⟨.assert (caret flags), 0, true⟩ :: parts) rest
    | '$' :: rest => next (⟨.assert (dollar flags), 0, true⟩ :: parts) rest
    | c :: rest => do next ((← literal flags c) :: parts) rest

def nestingLimit : Nat := 250

def weightLimit : Nat := 327680

/-- Why a text gives no pattern. -/
inductive Fault where
  | malformed
  | tooLarge
deriving DecidableEq, Repr

def Fault.message : Fault → String
  | malformed => "regex parse error"
  | tooLarge => "Compiled regex exceeds size limit of 10485760 bytes."

def read (source : String) : Except Fault Pattern :=
  let cs := source.toList
  match readParts (2 * cs.length + 2) false .initial [] [] [] cs with
  | none => .error .malformed
  | some (part, _, _) =>
    if part.depth > nestingLimit then .error .malformed
    else if part.pattern.weight > weightLimit then .error .tooLarge
    else .ok part.pattern

end SchemaCompiler.Pattern

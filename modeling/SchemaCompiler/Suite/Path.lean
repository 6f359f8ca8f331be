import SchemaCompiler.Assoc

/-!
# Paths and path patterns

Where suite files are, and patterns that many paths match. A star stands for any characters of one
component, a question mark for one character, brackets for one of some characters, and a component
of two stars for any number of directories.
-/
namespace SchemaCompiler.Suite

def components (path : String) : List String :=
  (path.splitOn "/").filter fun c => !c.isEmpty

def isAbsolute (path : String) : Bool := path.startsWith "/"

/-- How a component sorts: the place itself, then the place above, then names. -/
def componentRank (c : String) : Nat := if c == "." then 0 else if c == ".." then 1 else 2

/-- The components that count when paths are sorted: a dot counts only at the start. -/
def sortKey (path : String) : List (Nat × String) :=
  match components path with
  | [] => []
  | first :: rest =>
    let kept := rest.filter (· != ".")
    let kept := if first == "." && isAbsolute path then kept else first :: kept
    kept.map fun c => (componentRank c, c)

def keyLe : List (Nat × String) → List (Nat × String) → Bool
  | [], _ => true
  | _ :: _, [] => false
  | (m, a) :: as, (n, b) :: bs =>
    if m < n then true
    else if n < m then false
    else if a == b then keyLe as bs
    else decide (a < b)

/-- Paths in order, component by component, those that start at the root first. -/
def sortPaths (paths : List String) : List String :=
  paths.mergeSort fun a b =>
    if isAbsolute a != isAbsolute b then isAbsolute a else keyLe (sortKey a) (sortKey b)

/-! ## Patterns -/

/-- A part of a pattern for a component. -/
inductive GlobPart where
  | char (c : Char)
  | any
  | many
  | oneOf (negated : Bool) (ranges : List (Char × Char))
deriving DecidableEq, Repr

/-- A pattern for a component. -/
inductive GlobComponent where
  | literal (name : String)
  | parts (pieces : List GlobPart)
  | directories
deriving DecidableEq, Repr

/-- Why a text is not a pattern, with the position in characters. -/
inductive GlobFault where
  | wildcards (position : Nat)
  | recursive (position : Nat)
  | range (position : Nat)
deriving DecidableEq, Repr

def GlobFault.message : GlobFault → String
  | wildcards n => at_ n ++ "wildcards are either regular `*` or recursive `**`"
  | recursive n => at_ n ++ "recursive wildcards must form a single path component"
  | range n => at_ n ++ "invalid range pattern"
where
  /-- The start of every wording. -/
  at_ (n : Nat) : String := "Pattern syntax error near position " ++ toString n ++ ": "

def globRanges : List Char → List (Char × Char)
  | a :: '-' :: b :: rest => (a, b) :: globRanges rest
  | a :: rest => (a, a) :: globRanges rest
  | [] => []

/-- The inside of brackets, which has one character at least, and the rest of the text. -/
def globBrackets (cs : List Char) : Option (Bool × List (Char × Char) × Nat × List Char) :=
  let negated := cs.head? == some '!'
  let body := if negated then cs.drop 1 else cs
  match body with
  | [] => none
  | first :: rest =>
    let inner := rest.takeWhile (· != ']')
    match rest.dropWhile (· != ']') with
    | _ :: after =>
      let length := inner.length + 2 + (if negated then 1 else 0)
      some (negated, globRanges (first :: inner), length, after)
    | [] => none

/-- The parts of a component, `fuel` many characters at most, from a position on. -/
def globParts : Nat → Nat → List Char → Except GlobFault (List GlobPart)
  | 0, _, _ => .ok []
  | _, _, [] => .ok []
  | fuel + 1, position, c :: rest =>
    match c with
    | '?' => (globParts fuel (position + 1) rest).map (.any :: ·)
    | '*' =>
      let stars := (rest.takeWhile (· == '*')).length + 1
      if stars > 2 then .error (.wildcards (position + 2))
      else if stars = 2 then .error (.recursive position)
      else (globParts fuel (position + 1) rest).map (.many :: ·)
    | '[' =>
      match globBrackets rest with
      | none => .error (.range position)
      | some (negated, ranges, length, after) =>
        (globParts fuel (position + 1 + length) after).map (.oneOf negated ranges :: ·)
    | c => (globParts fuel (position + 1) rest).map (.char c :: ·)

def isPattern (text : String) : Bool :=
  text.toList.any fun c => c == '*' || c == '?' || c == '[' || c == '\x7b'

def globComponent (text : String) : Except GlobFault GlobComponent :=
  if text == "**" then .ok .directories
  else if text.toList.any fun c => c == '*' || c == '?' || c == '[' then
    (globParts text.length 0 text.toList).map GlobComponent.parts
  else .ok (.literal text)

def matchParts : List GlobPart → List Char → Bool
  | [], cs => cs.isEmpty
  | .char c :: parts, d :: cs => c == d && matchParts parts cs
  | .any :: parts, _ :: cs => matchParts parts cs
  | .oneOf negated ranges :: parts, d :: cs =>
    (ranges.any fun (a, b) => decide (a ≤ d) && decide (d ≤ b)) != negated && matchParts parts cs
  | .many :: parts, cs => manyMatch (matchParts parts) cs
  | _, [] => false
where
  /-- Whether a rest of the characters matches. -/
  manyMatch (rest : List Char → Bool) : List Char → Bool
    | [] => rest []
    | c :: cs => rest (c :: cs) || manyMatch rest cs

/-- Whether a name matches the pattern of a component; two stars match no single name. -/
def GlobComponent.accepts (name : String) : GlobComponent → Bool
  | .literal text => text == name
  | .parts pieces => matchParts pieces name.toList
  | .directories => false

/-- Whether the components of a path match a pattern. Two stars in front of more stand for any
number of directories, none included; at the end they stand for one at least. -/
def matchPath : List GlobComponent → List String → Bool
  | [], path => path.isEmpty
  | [.directories], path => !path.isEmpty
  | .directories :: rest, path => anyDirectories (matchPath rest) path
  | c :: rest, name :: path => c.accepts name && matchPath rest path
  | _ :: _, [] => false
where
  /-- Whether what is left behind some directories matches. -/
  anyDirectories (rest : List String → Bool) : List String → Bool
    | [] => rest []
    | d :: path => rest (d :: path) || anyDirectories rest path

/-- A pattern for paths. -/
structure Glob where
  components : List GlobComponent
  isAbsolute : Bool
  /-- Whether only directories match. -/
  directoriesOnly : Bool

namespace Glob

def read (text : String) : Except GlobFault Glob := do
  let parts ← ((Suite.components text).filter (· != ".")).mapM globComponent
  return ⟨parts, Suite.isAbsolute text,
    text.endsWith "/" || parts.getLast? == some .directories⟩

def accepts (g : Glob) (path : List String) (isDirectory : Bool) : Bool :=
  (isDirectory || !g.directoriesOnly) && matchPath g.components path

def lead (g : Glob) : List String :=
  g.components.dropLast.takeWhile literalName |>.filterMap name?
where
  /-- Whether a component matches one name only. -/
  literalName : GlobComponent → Bool
    | .literal _ => true
    | _ => false
  /-- The one name that a component matches. -/
  name? : GlobComponent → Option String
    | .literal name => some name
    | _ => none

end Glob

end SchemaCompiler.Suite

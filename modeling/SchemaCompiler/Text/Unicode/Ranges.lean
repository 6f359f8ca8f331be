/-!
# Sets of code points

A set of code points is a list of closed ranges. A table of a property is a text of numbers, two for
each run of points: how far past the last point it starts, and how many points follow its first. A run
behind a slash has every second point only. The digits are `0` to `9`, `A` to `Z`, `a` to `z`, `-` and
`+`. The last digit of a number is below 48 and the ones in front of it are not; these count from 48 on.
Where several sets are listed, each has a row with its names and its table; a row goes on behind an
equals sign at the end of a line.
-/
namespace SchemaCompiler.Text.Unicode

/-- A set of code points as closed ranges. -/
structure Ranges where
  list : List (Nat × Nat)
deriving DecidableEq, Repr, Inhabited

namespace Ranges

def contains (r : Ranges) (n : Nat) : Bool := r.list.any fun (lo, hi) => lo ≤ n && n ≤ hi

def union (a b : Ranges) : Ranges := ⟨a.list ++ b.list⟩

def without (a b : Ranges) : Ranges :=
  ⟨b.list.foldl (fun left (lo, hi) => left.flatMap fun (first, last) =>
    if last < lo ∨ hi < first then [(first, last)]
    else (if first < lo then [(first, lo - 1)] else []) ++
      if hi < last then [(hi + 1, last)] else []) a.list⟩

def merged (r : Ranges) : Ranges :=
  ⟨(r.list.mergeSort fun a b => a.1 ≤ b.1).foldr (fun (lo, hi) acc =>
    match acc with
    | (next, last) :: rest => if next ≤ hi + 1 then (lo, max hi last) :: rest else (lo, hi) :: acc
    | [] => [(lo, hi)]) []⟩

def digitValue (c : Char) : Nat :=
  if c.isDigit then c.toNat - 48
  else if c.isUpper then c.toNat - 55
  else if c.isLower then c.toNat - 61
  else if c = '-' then 62 else 63

def run (first step count : Nat) : List (Nat × Nat) :=
  if step = 1 then [(first, first + count)]
  else (List.range (count + 1)).map fun k => (first + step * k, first + step * k)

/-- Reads a table; `last` is the last point before the run being read, `step` the distance of its
points, `start` how far past `last` it starts once that is known, and `number` what has been read of a
number. -/
def parse (last step : Nat) (start : Option Nat) (number : Nat) : List Char → List (Nat × Nat)
  | [] => []
  | '/' :: rest => parse last 2 start number rest
  | c :: rest =>
    let digit := digitValue c
    if digit ≥ 48 then parse last step start (number * 16 + (digit - 48)) rest
    else
      let n := number * 48 + digit
      match start with
      | none => parse last step (some n) 0 rest
      | some k => run (last + k) step n ++ parse (last + k + step * n) 1 none 0 rest

def ofTable (table : String) : Ranges := ⟨parse 0 1 none 0 table.toList⟩

def ofRows (rows : String) : List (List String × Ranges) :=
  ((rows.replace "=\n" "").splitOn "\n").map fun row =>
    let words := row.splitOn " "
    (words.dropLast, ofTable (words.getLastD ""))

end Ranges
end SchemaCompiler.Text.Unicode

import SchemaCompiler.Number.Binary64

/-!
# Decimal text of doubles

`Decimal.shortest` gives the decimal with the fewest digits that rounds to a given double, and of
those the nearest one. `Decimal.render` writes a decimal in the way a `Layout` record
selects. `Binary64.ofDecimal?` goes the other way: a coefficient is scaled by a power of ten, and
each of the two steps rounds to a double.
-/
namespace SchemaCompiler

/-- The number `coefficient * 10 ^ exponent`. -/
structure Decimal where
  coefficient : Nat
  exponent : Int
deriving DecidableEq, Repr, Inhabited

namespace Decimal

def digits (n : Nat) : List Char := Nat.toDigits 10 n

def trim : Nat → Decimal → Decimal
  | 0, d => d
  | fuel + 1, d =>
    if d.coefficient ≠ 0 ∧ d.coefficient % 10 = 0 then
      trim fuel ⟨d.coefficient / 10, d.exponent + 1⟩
    else d

def powerBelow (num den : Nat) (k : Int) : Bool :=
  if k ≥ 0 then den * 10 ^ k.toNat ≤ num else den ≤ num * 10 ^ (-k).toNat

/-- The exponent `k` with `10 ^ k ≤ num / den < 10 ^ (k + 1)`, for positive arguments. It is
estimated from the binary magnitude and corrected by one step either way. -/
def magnitude (num den : Nat) : Int :=
  let guess := (Binary64.magnitude num den * 30103) / 100000
  if powerBelow num den (guess + 1) then guess + 1
  else if powerBelow num den guess then guess
  else guess - 1

/-- The reals that round to a double, as multiples of `1 / den`: the double itself and the two
ends of the interval, which belong to it exactly when `closed`. -/
structure Interval where
  value : Nat
  low : Nat
  high : Nat
  den : Nat
  closed : Bool

/-- The rounding interval of a double. Below a power of two the doubles are twice as dense. -/
def interval (x : Binary64) : Interval :=
  let narrow := x.significand = 2 ^ 52 ∧ x.exponent > Binary64.minExponent
  let value := 4 * x.significand
  let low := if narrow then value - 1 else value - 2
  let high := value + 2
  let exponent := x.exponent - 2
  let closed := x.significand % 2 == 0
  if exponent ≥ 0 then
    let unit := 2 ^ exponent.toNat
    ⟨value * unit, low * unit, high * unit, 1, closed⟩
  else ⟨value, low, high, 2 ^ (-exponent).toNat, closed⟩

/-- The two numbers over the common denominator `den`: `coefficient * 10 ^ exponent` scaled by
`den`, and the factor that the interval's numerators have to be scaled by. -/
def scaledPair (coefficient : Nat) (exponent : Int) (den : Nat) : Nat × Nat :=
  if exponent ≥ 0 then (coefficient * 10 ^ exponent.toNat * den, 1)
  else (coefficient * den, 10 ^ (-exponent).toNat)

def Interval.contains (i : Interval) (d : Decimal) : Bool :=
  let (n, factor) := scaledPair d.coefficient d.exponent i.den
  let low := i.low * factor
  let high := i.high * factor
  if i.closed then low ≤ n && n ≤ high else low < n && n < high

/-- The distance of a decimal from the double, scaled; comparable for one exponent. -/
def Interval.distance (i : Interval) (d : Decimal) : Nat :=
  let (n, factor) := scaledPair d.coefficient d.exponent i.den
  let v := i.value * factor
  if n ≥ v then n - v else v - n

/-- The neighbour of the double among the multiples of `10 ^ exponent` that rounds to it; of two
such neighbours the nearer, and of two equally near ones the even. -/
def Interval.onGrid (i : Interval) (exponent : Int) : Option Decimal :=
  let floor :=
    if exponent ≥ 0 then i.value / (i.den * 10 ^ exponent.toNat)
    else i.value * 10 ^ (-exponent).toNat / i.den
  let below : Decimal := ⟨floor, exponent⟩
  let above : Decimal := ⟨floor + 1, exponent⟩
  let below? := floor ≠ 0 ∧ i.contains below = true
  let above? := i.contains above = true
  if below? ∧ above? then
    let a := i.distance below
    let b := i.distance above
    if a < b ∨ (a = b ∧ floor % 2 = 0) then some below else some above
  else if below? then some below
  else if above? then some above
  else none

def Interval.search (i : Interval) (magnitude : Int) : Nat → Int → Decimal
  | 0, places => ⟨i.value / i.den, magnitude - places + 1⟩
  | fuel + 1, places =>
    match i.onGrid (magnitude - places + 1) with
    | some d => d
    | none => i.search magnitude fuel (places + 1)

/-- The fewest digits that read back as the magnitude of a double, nearest first. -/
def shortest (x : Binary64) : Decimal :=
  if x.isZero then ⟨0, 0⟩
  else
    let i := interval x
    trim 400 (i.search (magnitude i.value i.den) 17 1)

/-- Which exponents of the first digit are written without a power of ten. -/
structure Layout where
  leastFixed : Int
  mostFixed : Int

/-- A decimal without a power of ten, with at least one digit after the point. -/
def fixed (d : Decimal) : String :=
  let ds := digits d.coefficient
  if d.exponent ≥ 0 then
    String.ofList (ds ++ List.replicate d.exponent.toNat '0') ++ ".0"
  else
    let places := (-d.exponent).toNat
    if places < ds.length then
      String.ofList (ds.take (ds.length - places)) ++ "." ++
        String.ofList (ds.drop (ds.length - places))
    else "0." ++ String.ofList (List.replicate (places - ds.length) '0' ++ ds)

def scientific (d : Decimal) : String :=
  let ds := digits d.coefficient
  let first := d.exponent + (ds.length : Int) - 1
  let mantissa :=
    match ds with
    | [] => "0"
    | [c] => String.ofList [c]
    | c :: rest => String.ofList (c :: '.' :: rest)
  mantissa ++ "e" ++ (if first < 0 then "-" else "+") ++ toString first.natAbs

def render (style : Layout) (d : Decimal) : String :=
  let first := d.exponent + ((digits d.coefficient).length : Int) - 1
  if style.leastFixed ≤ first ∧ first ≤ style.mostFixed then fixed d else scientific d

end Decimal

namespace Binary64

def render (style : Decimal.Layout) (x : Binary64) : String :=
  (if x.negative then "-" else "") ++ Decimal.render style (Decimal.shortest x)

def powerOfTen (k : Nat) : Binary64 := nearest false (10 ^ k) 1

def scaleDown : Nat → Binary64 → Option Binary64
  | 0, x => some x
  | times + 1, x =>
    if x.isZero then some x
    else (x.div (powerOfTen 308)).bind (scaleDown times)

/-- The double read from `± coefficient * 10 ^ exponent`: the coefficient is rounded, then
scaled. A result beyond the largest double has none. -/
def ofDecimal? (negative : Bool) (coefficient : Nat) (exponent : Int) : Option Binary64 :=
  let x := nearest negative coefficient 1
  if exponent < 0 then
    let times := (exponent.natAbs - 1) / 308
    (scaleDown times x).bind fun y =>
      if y.isZero then some y else y.div (powerOfTen (exponent.natAbs - 308 * times))
  else if x.isZero then some x
  else if exponent ≤ 308 then x.mul (powerOfTen exponent.toNat)
  else none

end Binary64
end SchemaCompiler

/-!
# Finite binary floating point

A finite double has a sign, a significand below `2 ^ 53` and an exponent of at least `-1074`;
its value is `± significand * 2 ^ exponent`. Every operation is carried out exactly on integers
and rounded once, to the nearest double and to the even significand on a tie. A result that is
too large, or not a number, is `none`: the values of this library hold finite numbers only.
-/
namespace SchemaCompiler

-- A power is the core library's own, also where a monoid has one.
attribute [instance (high), default_instance 20000] instPowNat

/-- A finite double. Values made by `nearest` have their significand in `[2 ^ 52, 2 ^ 53)`,
or else the least exponent. -/
structure Binary64 where
  negative : Bool
  significand : Nat
  exponent : Int
deriving DecidableEq, Repr, Inhabited

namespace Binary64

def minExponent : Int := -1074

def maxExponent : Int := 971

def zero (negative : Bool) : Binary64 := ⟨negative, 0, minExponent⟩

def divideEven (num den : Nat) : Nat :=
  let quotient := num / den
  let rest := num % den
  if 2 * rest > den || (2 * rest == den && quotient % 2 == 1) then quotient + 1 else quotient

/-- The exponent `k` with `2 ^ k ≤ num / den < 2 ^ (k + 1)`, for positive arguments. -/
def magnitude (num den : Nat) : Int :=
  let guess : Int := (num.log2 : Int) - (den.log2 : Int)
  let below := if guess ≥ 0 then num < den * 2 ^ guess.toNat else num * 2 ^ (-guess).toNat < den
  if below then guess - 1 else guess

/-- The double nearest to `± num / den`, with no bound on the exponent from above. -/
def nearest (negative : Bool) (num den : Nat) : Binary64 :=
  if num = 0 then zero negative
  else
    let exponent := max (magnitude num den - 52) minExponent
    let significand :=
      if exponent ≥ 0 then divideEven num (den * 2 ^ exponent.toNat)
      else divideEven (num * 2 ^ (-exponent).toNat) den
    if significand = 2 ^ 53 then ⟨negative, 2 ^ 52, exponent + 1⟩
    else ⟨negative, significand, exponent⟩

def finite? (x : Binary64) : Option Binary64 :=
  if x.exponent ≤ maxExponent then some x else none

def ofInt (i : Int) : Binary64 := nearest (decide (i < 0)) i.natAbs 1

/-- The value of `x` in units of `2 ^ exponent`, for an exponent not above the one of `x`. -/
def scaled (x : Binary64) (exponent : Int) : Int :=
  let magnitude : Int := (x.significand * 2 ^ (x.exponent - exponent).toNat : Nat)
  if x.negative then -magnitude else magnitude

def aligned (x y : Binary64) : Int × Int :=
  let exponent := min x.exponent y.exponent
  (x.scaled exponent, y.scaled exponent)

def compare (x y : Binary64) : Ordering :=
  let (a, b) := aligned x y
  Ord.compare a b

def same (x y : Binary64) : Bool := compare x y == .eq

def isZero (x : Binary64) : Bool := x.significand == 0

def isPositive (x : Binary64) : Bool := !x.isZero && !x.negative

def isNegative (x : Binary64) : Bool := !x.isZero && x.negative

def negate (x : Binary64) : Binary64 := { x with negative := !x.negative }

def roundScaled (negative : Bool) (num den : Nat) (exponent : Int) : Option Binary64 :=
  if exponent ≥ 0 then (nearest negative (num * 2 ^ exponent.toNat) den).finite?
  else (nearest negative num (den * 2 ^ (-exponent).toNat)).finite?

def add (x y : Binary64) : Option Binary64 :=
  let exponent := min x.exponent y.exponent
  let sum := x.scaled exponent + y.scaled exponent
  if sum = 0 then some (zero (x.negative && y.negative))
  else roundScaled (decide (sum < 0)) sum.natAbs 1 exponent

def sub (x y : Binary64) : Option Binary64 := add x y.negate

def mul (x y : Binary64) : Option Binary64 :=
  roundScaled (x.negative != y.negative) (x.significand * y.significand) 1
    (x.exponent + y.exponent)

def div (x y : Binary64) : Option Binary64 :=
  if y.isZero then none
  else
    roundScaled (x.negative != y.negative) x.significand y.significand (x.exponent - y.exponent)

/-- The remainder of the quotient cut toward zero, with the sign of the dividend. It is exact,
so that rounding leaves it as it is; a zero divisor has none. -/
def rem (x y : Binary64) : Option Binary64 :=
  if y.isZero then none
  else
    let exponent := min x.exponent y.exponent
    roundScaled x.negative ((x.scaled exponent).natAbs % (y.scaled exponent).natAbs) 1 exponent

def isIntegral (x : Binary64) : Bool :=
  x.exponent ≥ 0 || x.significand % 2 ^ (-x.exponent).toNat == 0

def truncate (x : Binary64) : Int :=
  let magnitude : Int :=
    if x.exponent ≥ 0 then (x.significand * 2 ^ x.exponent.toNat : Nat)
    else (x.significand / 2 ^ (-x.exponent).toNat : Nat)
  if x.negative then -magnitude else magnitude

end Binary64
end SchemaCompiler

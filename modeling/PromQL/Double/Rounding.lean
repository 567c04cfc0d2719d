import PromQL.Double.Basic

/-!
# Rounding to the nearest double

A nonnegative quotient is rounded to the nearest magnitude, and half way between two of them to
the one of even rank. Arithmetic on doubles is the exact operation on units followed by this
rounding, and so is the reading of a decimal.
-/

namespace PromQL

/-- The integer nearest to `num / den`; a half goes to the even neighbour. -/
def roundHalfEven (num den : Nat) : Nat :=
  let whole := num / den
  let rest := 2 * (num % den)
  if rest < den then whole
  else if den < rest then whole + 1
  else whole + whole % 2

/-- A decimal number, `coefficient * 10 ^ exponent`. -/
structure Decimal where
  coefficient : Nat
  exponent : Int
  deriving DecidableEq, Repr

namespace Double

/-- The rank nearest to `num / den` units. Up to `2⁵³` units neighbours are one unit apart. Above,
the gap between them doubles with each octave, and rounding up to the next power of two carries
into the next octave. -/
def nearestRank (num den : Nat) : Nat :=
  let whole := num / den
  if whole < 2 * octave then roundHalfEven num den
  else
    let gap := whole.log2 - 52
    gap * octave + roundHalfEven num (den * Nat.pow 2 gap)

/-- The double with the given sign nearest to `num / den` units. -/
def ofUnits (negative : Bool) (num den : Nat) : Double :=
  if h : nearestRank num den < rankCount then .finite negative ⟨nearestRank num den, h⟩
  else .infinite negative

/-- The double nearest to a natural number. -/
def ofNat (n : Nat) : Double := ofUnits false (n * unitsPerOne) 1

/-! ### Decimals -/

/-- The double with the given sign nearest to a decimal. Decimals beyond both ends of the range
are set apart first, so that the powers of ten stay small. -/
def ofDecimal (negative : Bool) (d : Decimal) : Double :=
  if d.coefficient = 0 then zero negative
  else if 400 < d.exponent then .infinite negative
  else if d.exponent + d.coefficient.log2 < -400 then zero negative
  else if 0 ≤ d.exponent then
    ofUnits negative (d.coefficient * Nat.pow 10 d.exponent.toNat * unitsPerOne) 1
  else ofUnits negative (d.coefficient * unitsPerOne) (Nat.pow 10 (-d.exponent).toNat)

end Double

end PromQL

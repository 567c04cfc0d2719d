import PromQL.Double.Rounding
import PromQL.Text.Digits

/-!
# The shortest digits of a double

Of all decimals that round to a given magnitude, the ones with the fewest significant digits are
chosen, and of these the nearest to the magnitude. On each decimal grid only the two neighbours
of the magnitude can be nearest, so the search tries these two, from one digit to seventeen; of
two neighbours at the same distance the upper one is taken.
-/

namespace PromQL.Double

/-- The number of digits before the decimal point of so many units, `10^(k-1) ≤ m < 10^k`; not
positive for magnitudes below one tenth. -/
def decimalWidth (units : Nat) : Int :=
  (decimal (units * Nat.pow 10 324 / unitsPerOne)).length - 324

/-- Whether a decimal rounds to the magnitude of the given rank. -/
def readsBack (rank : Nat) (d : Decimal) : Bool :=
  match ofDecimal false d with
  | .finite false r => r.val == rank
  | _ => false

/-- The decimal of the grid `10 ^ exponent` that rounds to the magnitude, the nearer of its two
neighbours if both do. -/
def onGrid? (rank : Nat) (exponent : Int) : Option Decimal :=
  let units := unitsOfRank rank
  let num := units * Nat.pow 10 (-exponent).toNat
  let den := unitsPerOne * Nat.pow 10 exponent.toNat
  let lower : Decimal := ⟨num / den, exponent⟩
  let upper : Decimal := ⟨num / den + 1, exponent⟩
  match readsBack rank lower, readsBack rank upper with
  | true, true => some (if 2 * num < (2 * (num / den) + 1) * den then lower else upper)
  | true, false => some lower
  | false, true => some upper
  | false, false => none

/-- Tries so many grids, each ten times finer than the one before. -/
def firstOnGrid? (rank : Nat) : Nat → Int → Option Decimal
  | 0, _ => none
  | tries + 1, exponent =>
    match onGrid? rank exponent with
    | some d => some d
    | none => firstOnGrid? rank tries (exponent - 1)

/-- The exact decimal value of so many units. -/
def exactDecimal (units : Nat) : Decimal := ⟨units * Nat.pow 5 1074, -1074⟩

/-- The shortest decimal that rounds to a positive magnitude. -/
def shortest (rank : Nat) : Decimal :=
  let units := unitsOfRank rank
  (firstOnGrid? rank 17 (decimalWidth units - 1)).getD (exactDecimal units)

end PromQL.Double

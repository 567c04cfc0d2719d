/-!
# Doubles

The values of IEEE 754 binary64 arithmetic, up to the payload of a NaN. The finite magnitudes
are in order numbered from zero by their *rank*, which is the bit pattern without the sign. Every
magnitude is a natural number of *units*, a unit being the least positive double, `2⁻¹⁰⁷⁴`; up to
`2⁵³` units the rank and the number of units agree.
-/

namespace PromQL

/-- The number of magnitudes from one power of two up to the next. -/
def Double.octave : Nat := 0x10000000000000

/-- The number of finite magnitudes, which is also the rank that infinity would have. -/
def Double.rankCount : Nat := 2047 * octave

/-- A double: not a number, an infinity, or a sign and the rank of a finite magnitude. -/
inductive Double where
  | nan
  | infinite (negative : Bool)
  | finite (negative : Bool) (rank : Fin Double.rankCount)
  deriving DecidableEq, Repr

namespace Double

/-! ### Units and ranks -/

/-- The number of units in one. -/
def unitsPerOne : Nat := Nat.pow 2 1074

/-- The number of units of the magnitude with the given rank. -/
def unitsOfRank (rank : Nat) : Nat :=
  if rank < octave then rank
  else (octave + rank % octave) * Nat.pow 2 (rank / octave - 1)

theorem unitsOfRank_of_lt {rank : Nat} (h : rank < octave) : unitsOfRank rank = rank :=
  if_pos h

/-! ### Bit patterns -/

/-- The bit of the sign in a pattern; the bits below it are the rank. -/
def signBit : Nat := 0x8000000000000000

/-- The double with the given pattern of sixty-four bits. -/
def ofBits (bits : Nat) : Double :=
  let negative := bits / signBit % 2 == 1
  let rank := bits % signBit
  if h : rank < rankCount then .finite negative ⟨rank, h⟩
  else if rank = rankCount then .infinite negative
  else .nan

/-! ### Sign -/

/-- The double of the other sign. -/
def negate : Double → Double
  | .nan => .nan
  | .infinite negative => .infinite !negative
  | .finite negative rank => .finite (!negative) rank

@[simp] theorem negate_nan : nan.negate = nan := rfl

@[simp] theorem negate_infinite (negative : Bool) :
    (infinite negative).negate = infinite !negative := rfl

@[simp] theorem negate_finite (negative : Bool) (rank : Fin rankCount) :
    (finite negative rank).negate = finite (!negative) rank := rfl

@[simp] theorem negate_negate (v : Double) : v.negate.negate = v := by
  cases v <;> simp

/-- Positive or negative zero. -/
def zero (negative : Bool) : Double := .finite negative ⟨0, by decide⟩

end Double

end PromQL

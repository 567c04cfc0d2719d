import Mathlib
import PromQL.Proofs.Double.Rounding

/-!
# The nearest double

The values of doubles are rational numbers, and so are those of decimals. A number is rounded to the
double whose value is nearest, and half way between two of them to the one of even rank. Magnitudes
beyond the largest finite one count too, as they would without a limit on the exponent, so a number
that is nearer to one of them is rounded to no finite double.

The numbers that are rounded to a magnitude are those between the middles of the gaps around it.
-/

namespace PromQL

/-- The exact value of a decimal. -/
def Decimal.toRat (d : Decimal) : ℚ := d.coefficient * 10 ^ d.exponent

theorem Decimal.toRat_nonneg (d : Decimal) : 0 ≤ d.toRat :=
  mul_nonneg (Nat.cast_nonneg _) (zpow_nonneg (by norm_num) _)

namespace Double

/-! ### Values -/

/-- The exact value of a magnitude. -/
def magnitude (rank : Nat) : ℚ := unitsOfRank rank / unitsPerOne

theorem unitsPerOne_pos : 0 < unitsPerOne := by
  obtain ⟨n, -, hunits⟩ := unitsPerOne_eq
  rw [hunits]
  exact Nat.two_pow_pos n

theorem unitsPerOne_cast_pos : (0 : ℚ) < unitsPerOne := Nat.cast_pos.mpr unitsPerOne_pos

theorem magnitude_zero : magnitude 0 = 0 := by
  rw [magnitude, unitsOfRank_of_lt octave_pos, Nat.cast_zero, zero_div]

theorem magnitude_strictMono : StrictMono magnitude := fun _ _ hab =>
  div_lt_div_of_pos_right (Nat.cast_lt.mpr (unitsOfRank_strictMono hab)) unitsPerOne_cast_pos

theorem magnitude_nonneg (rank : Nat) : 0 ≤ magnitude rank :=
  div_nonneg (Nat.cast_nonneg _) (Nat.cast_nonneg _)

/-- Whether a number is rounded to a magnitude: it is between the middles of the gaps around it, and
just in the middle only if the rank is even. -/
structure RoundsTo (x : ℚ) (rank : Nat) : Prop where
  upper : 2 * x ≤ magnitude rank + magnitude (rank + 1)
  even_of_upper : 2 * x = magnitude rank + magnitude (rank + 1) → rank % 2 = 0
  lower : ∀ p, p + 1 = rank → magnitude p + magnitude rank ≤ 2 * x
  even_of_lower : ∀ p, p + 1 = rank → magnitude p + magnitude rank = 2 * x → rank % 2 = 0

namespace RoundsTo

variable {x y z : ℚ} {rank rank' : Nat}

theorem of_lt (hupper : 2 * x < magnitude rank + magnitude (rank + 1))
    (hlower : ∀ p, p + 1 = rank → magnitude p + magnitude rank < 2 * x) : RoundsTo x rank where
  upper := hupper.le
  even_of_upper h := absurd h hupper.ne
  lower p hp := (hlower p hp).le
  even_of_lower p hp h := absurd h (hlower p hp).ne

theorem self (rank : Nat) : RoundsTo (magnitude rank) rank := by
  refine of_lt ?_ fun p hp => ?_
  · have := magnitude_strictMono (Nat.lt_succ_self rank)
    linarith
  · subst hp
    have := magnitude_strictMono (Nat.lt_succ_self p)
    linarith

/-- What is between two numbers that are rounded to a magnitude is rounded to it too. -/
theorem between (hx : RoundsTo x rank) (hz : RoundsTo z rank) (hxy : x ≤ y) (hyz : y ≤ z) :
    RoundsTo y rank where
  upper := by linarith [hz.upper]
  even_of_upper h := hz.even_of_upper (le_antisymm hz.upper (by linarith))
  lower p hp := by linarith [hx.lower p hp]
  even_of_lower p hp h := hx.even_of_lower p hp (le_antisymm (hx.lower p hp) (by linarith))

/-- A number is rounded to one magnitude at most. -/
theorem unique (h : RoundsTo x rank) (h' : RoundsTo x rank') : rank = rank' := by
  wlog hlt : rank < rank' generalizing rank rank'
  · rcases lt_trichotomy rank rank' with hlt' | heq | hgt
    · exact absurd hlt' hlt
    · exact heq
    · exact (this h' h hgt).symm
  obtain ⟨p, rfl⟩ : ∃ p, rank' = p + 1 := Nat.exists_eq_succ_of_ne_zero (by omega)
  have hle : magnitude rank ≤ magnitude p := magnitude_strictMono.monotone (by omega)
  have hle' : magnitude (rank + 1) ≤ magnitude (p + 1) := magnitude_strictMono.monotone (by omega)
  have hupper := h.upper
  have hlower := h'.lower p rfl
  -- only neighbours have a number in the middle, and one of them is odd
  have heq : rank = p := magnitude_strictMono.injective (by linarith)
  subst heq
  have heven := h.even_of_upper (by linarith)
  have heven' := h'.even_of_lower rank rfl (by linarith)
  omega

end RoundsTo

/-- Rounding of a quotient of units finds the magnitude that its value is rounded to. -/
theorem nearestRank_eq_iff {num den rank : Nat} (hden : 0 < den) :
    nearestRank num den = rank ↔ RoundsTo (num / den / unitsPerOne) rank := by
  have hscale : (0 : ℚ) < (den * unitsPerOne : Nat) :=
    Nat.cast_pos.mpr (Nat.mul_pos hden unitsPerOne_pos)
  have hden' : (den : ℚ) ≠ 0 := Nat.cast_ne_zero.mpr hden.ne'
  have hunits : (unitsPerOne : ℚ) ≠ 0 := unitsPerOne_cast_pos.ne'
  have hdouble : 2 * ((num : ℚ) / den / unitsPerOne) =
      (2 * num : Nat) / (den * unitsPerOne : Nat) := by
    push_cast
    field_simp
  have hmiddle : ∀ p q : Nat, magnitude p + magnitude q =
      ((unitsOfRank p + unitsOfRank q) * den : Nat) / (den * unitsPerOne : Nat) := by
    intro p q
    unfold magnitude
    push_cast
    field_simp
  have hforward : ∀ r, nearestRank num den = r → RoundsTo (num / den / unitsPerOne) r := by
    intro r h
    have hupper := nearestRank_upper hden h
    refine ⟨?_, ?_, ?_, ?_⟩
    · rw [hdouble, hmiddle, div_le_div_iff_of_pos_right hscale, Nat.cast_le]
      exact hupper.1
    · rw [hdouble, hmiddle, div_left_inj' hscale.ne', Nat.cast_inj]
      exact hupper.2
    · rintro p rfl
      rw [hdouble, hmiddle, div_le_div_iff_of_pos_right hscale, Nat.cast_le]
      exact (nearestRank_lower hden h).1
    · rintro p rfl
      rw [hdouble, hmiddle, div_left_inj' hscale.ne', Nat.cast_inj]
      exact (nearestRank_lower hden h).2
  exact ⟨hforward rank, fun h => (hforward _ rfl).unique h⟩

/-! ### Distances -/

/-- A number with a sign in front. -/
def signed (negative : Bool) (x : ℚ) : ℚ := if negative then -x else x

/-- Whether a double is the nearest to a number, and of even rank if another value is as near.
Magnitudes beyond the finite ones count as well. -/
def IsNearest (x : ℚ) (negative : Bool) (rank : Nat) : Prop :=
  ∀ negative' rank', signed negative' (magnitude rank') ≠ signed negative (magnitude rank) →
    |x - signed negative (magnitude rank)| < |x - signed negative' (magnitude rank')| ∨
      |x - signed negative (magnitude rank)| = |x - signed negative' (magnitude rank')| ∧
        rank % 2 = 0

theorem abs_signed_sub_signed (negative : Bool) (x y : ℚ) :
    |signed negative x - signed negative y| = |x - y| := by
  cases negative with
  | false => rfl
  | true => rw [signed, signed, if_pos rfl, if_pos rfl, neg_sub_neg, abs_sub_comm]

theorem abs_signed_sub_signed_not (negative : Bool) {x y : ℚ} (hx : 0 ≤ x) (hy : 0 ≤ y) :
    |signed negative x - signed (!negative) y| = x + y := by
  have hsum : |x + y| = x + y := abs_of_nonneg (add_nonneg hx hy)
  cases negative with
  | false =>
    have h : signed false x - signed (!false) y = x + y := sub_neg_eq_add x y
    rw [h, hsum]
  | true =>
    have h : signed true x - signed (!true) y = -(x + y) := by simp [signed]; ring
    rw [h, abs_neg, hsum]

theorem sq_sub_sq_sub (x a b : ℚ) : (x - a) ^ 2 - (x - b) ^ 2 = (b - a) * (2 * x - (a + b)) := by
  ring

/-- The upper one of two values is nearer to a number above their middle. -/
theorem abs_sub_lt_iff_of_gt {x a b : ℚ} (hab : a < b) : |x - b| < |x - a| ↔ a + b < 2 * x := by
  rw [← sq_lt_sq, ← sub_pos, sq_sub_sq_sub, mul_pos_iff_of_pos_left (sub_pos.mpr hab), sub_pos]

/-- The lower one of two values is nearer to a number below their middle. -/
theorem abs_sub_lt_iff_of_lt {x a b : ℚ} (hab : a < b) : |x - a| < |x - b| ↔ 2 * x < a + b := by
  rw [← sq_lt_sq, ← sub_neg, sq_sub_sq_sub, mul_neg_iff, sub_neg, sub_pos]
  constructor
  · rintro (h | h)
    · exact h.2
    · linarith
  · exact fun h => .inl ⟨hab, h⟩

theorem abs_sub_eq_iff_of_lt {x a b : ℚ} (hab : a < b) : |x - a| = |x - b| ↔ 2 * x = a + b := by
  rw [← sq_eq_sq_iff_abs_eq_abs, ← sub_eq_zero, sq_sub_sq_sub, mul_eq_zero,
    or_iff_right (sub_pos.mpr hab).ne', sub_eq_zero]

/-- A number is rounded to the magnitude that is nearest to it. -/
theorem roundsTo_iff {x : ℚ} {rank : Nat} :
    RoundsTo x rank ↔ ∀ rank', rank' ≠ rank → |x - magnitude rank| < |x - magnitude rank'| ∨
      |x - magnitude rank| = |x - magnitude rank'| ∧ rank % 2 = 0 := by
  have habove : ∀ {rank'}, rank < rank' → (|x - magnitude rank| < |x - magnitude rank'| ∨
      |x - magnitude rank| = |x - magnitude rank'| ∧ rank % 2 = 0 ↔
        2 * x < magnitude rank + magnitude rank' ∨
          2 * x = magnitude rank + magnitude rank' ∧ rank % 2 = 0) := by
    intro rank' hlt
    have hlt := magnitude_strictMono hlt
    rw [abs_sub_lt_iff_of_lt hlt, abs_sub_eq_iff_of_lt hlt]
  have hbelow : ∀ {rank'}, rank' < rank → (|x - magnitude rank| < |x - magnitude rank'| ∨
      |x - magnitude rank| = |x - magnitude rank'| ∧ rank % 2 = 0 ↔
        magnitude rank' + magnitude rank < 2 * x ∨
          magnitude rank' + magnitude rank = 2 * x ∧ rank % 2 = 0) := by
    intro rank' hlt
    have hlt := magnitude_strictMono hlt
    rw [abs_sub_lt_iff_of_gt hlt, eq_comm, abs_sub_eq_iff_of_lt hlt, eq_comm (a := 2 * x)]
  constructor
  · intro h rank' hne
    rcases Nat.lt_or_gt_of_ne hne with hlt | hgt
    · obtain ⟨p, rfl⟩ : ∃ p, rank = p + 1 := Nat.exists_eq_succ_of_ne_zero (by omega)
      have hlower := h.lower p rfl
      have hle : magnitude rank' ≤ magnitude p := magnitude_strictMono.monotone (by omega)
      refine (hbelow hlt).mpr ((lt_or_eq_of_le (by linarith)).imp_right fun heq => ⟨heq, ?_⟩)
      exact h.even_of_lower p rfl (by linarith)
    · have hupper := h.upper
      have hle : magnitude (rank + 1) ≤ magnitude rank' := magnitude_strictMono.monotone hgt
      refine (habove hgt).mpr ((lt_or_eq_of_le (by linarith)).imp_right fun heq => ⟨heq, ?_⟩)
      exact h.even_of_upper (by linarith)
  · intro h
    have hupper := (habove (Nat.lt_succ_self rank)).mp (h _ (Nat.succ_ne_self rank))
    have hlower : ∀ p, p + 1 = rank → magnitude p + magnitude rank < 2 * x ∨
        magnitude p + magnitude rank = 2 * x ∧ rank % 2 = 0 := by
      rintro p rfl
      exact (hbelow (Nat.lt_succ_self p)).mp (h p (Nat.succ_ne_self p).symm)
    exact ⟨hupper.elim le_of_lt fun h => h.1.le, fun heq => (hupper.resolve_left heq.not_lt).2,
      fun p hp => (hlower p hp).elim le_of_lt fun h => h.1.le,
      fun p hp heq => ((hlower p hp).resolve_left heq.not_lt).2⟩

theorem signed_injective (negative : Bool) : Function.Injective (signed negative) := by
  cases negative
  · exact fun _ _ h => h
  · exact neg_injective

/-- A number is rounded to the double of its sign whose magnitude it is rounded to. -/
theorem isNearest_signed_iff {negative : Bool} {x : ℚ} (hx : 0 ≤ x) {rank : Nat} :
    IsNearest (signed negative x) negative rank ↔ RoundsTo x rank := by
  rw [roundsTo_iff]
  constructor
  · intro h rank' hne
    have hvalue : signed negative (magnitude rank') ≠ signed negative (magnitude rank) :=
      fun heq => hne (magnitude_strictMono.injective (signed_injective negative heq))
    simpa only [abs_signed_sub_signed] using h negative rank' hvalue
  · intro h negative' rank' hne
    rw [abs_signed_sub_signed]
    rcases Bool.eq_or_eq_not negative' negative with rfl | rfl
    · rw [abs_signed_sub_signed]
      refine h rank' ?_
      rintro rfl
      exact hne rfl
    · -- a double of the other sign is no nearer than zero is
      rw [abs_signed_sub_signed_not negative hx (magnitude_nonneg rank')]
      have hfar := magnitude_nonneg rank'
      have hzero : |x - magnitude 0| = x := by rw [magnitude_zero, sub_zero, abs_of_nonneg hx]
      by_cases hrank : rank = 0
      · have hpos : magnitude rank' ≠ 0 := by
          intro heq
          rw [hrank, magnitude_zero, heq] at hne
          cases negative <;> simp [signed] at hne
        left
        rw [hrank, hzero]
        exact lt_add_of_pos_right x (lt_of_le_of_ne hfar hpos.symm)
      · rcases h 0 (Ne.symm hrank) with hlt | ⟨heq, heven⟩
        · left
          linarith
        · rw [hzero] at heq
          rw [heq]
          exact (lt_or_eq_of_le (le_add_of_nonneg_right hfar)).imp_right fun heq => ⟨heq, heven⟩

/-- What is rounded to a double other than zero has the same sign. -/
theorem roundsTo_of_isNearest {negative negative' : Bool} {x : ℚ} (hx : 0 ≤ x) {rank : Nat}
    (hrank : rank ≠ 0) (h : IsNearest (signed negative' x) negative rank) : RoundsTo x rank := by
  rcases Bool.eq_or_eq_not negative' negative with rfl | rfl
  · exact (isNearest_signed_iff hx).mp h
  · exfalso
    have hpos : 0 < magnitude rank := magnitude_zero ▸ magnitude_strictMono (by omega)
    have hne : signed negative (magnitude 0) ≠ signed negative (magnitude rank) := by
      intro heq
      have hmagnitude := signed_injective negative heq
      linarith [magnitude_zero]
    have hfar : ∀ y, 0 ≤ y → |signed (!negative) x - signed negative y| = x + y := by
      intro y hy
      have h := abs_signed_sub_signed_not (!negative) hx hy
      rwa [Bool.not_not] at h
    -- zero is nearer than a double of the other sign
    have hnearest := h negative 0 hne
    rw [hfar _ hpos.le, hfar _ (magnitude_nonneg 0), magnitude_zero] at hnearest
    rcases hnearest with hlt | ⟨heq, -⟩ <;> linarith

/-! ### Decimals -/

theorem ten_zpow (e : Int) : (10 : ℚ) ^ e = 10 ^ e.toNat / 10 ^ (-e).toNat := by
  rcases le_total 0 e with h | h
  · rw [Int.toNat_of_nonpos (show -e ≤ 0 by omega), pow_zero, div_one, ← zpow_natCast,
      Int.toNat_of_nonneg h]
  · rw [Int.toNat_of_nonpos h, pow_zero, one_div, ← zpow_natCast, Int.toNat_of_nonneg (by omega),
      ← zpow_neg, neg_neg]

theorem toRat_eq_quotient (d : Decimal) :
    d.toRat = ((quotient d).1 : ℚ) / (quotient d).2 / unitsPerOne := by
  have hunits : (unitsPerOne : ℚ) ≠ 0 := unitsPerOne_cast_pos.ne'
  simp only [Decimal.toRat, quotient, ten_zpow]
  push_cast
  field_simp

/-- A decimal stands for a magnitude if and only if its value is rounded to it. -/
theorem nearestRank_quotient_iff {d : Decimal} {rank : Nat} :
    nearestRank (quotient d).1 (quotient d).2 = rank ↔ RoundsTo d.toRat rank := by
  rw [nearestRank_eq_iff (quotient_pos d), toRat_eq_quotient]

end Double

end PromQL

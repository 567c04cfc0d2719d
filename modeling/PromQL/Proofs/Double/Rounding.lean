import Mathlib
import PromQL.Double.Shortest
import PromQL.Proofs.Double.Gaps

/-!
# Rounding and its limits

Rounding looks at the value of a quotient only. The decimals that are set apart before rounding are
those that would be rounded to an infinity or to zero anyway, so decimals of the same value stand
for the same double. The shortest decimal of a magnitude is one that is rounded to it.
-/

namespace PromQL

/-! ### Quotients -/

theorem roundHalfEven_mul {k : Nat} (hk : 0 < k) (num den : Nat) :
    roundHalfEven (num * k) (den * k) = roundHalfEven num den := by
  have hdiv : num * k / (den * k) = num / den := Nat.mul_div_mul_right num den hk
  have hmod : 2 * (num * k % (den * k)) = 2 * (num % den) * k := by
    rw [Nat.mul_mod_mul_right, Nat.mul_assoc]
  simp only [roundHalfEven, hdiv, hmod, Nat.mul_lt_mul_right hk]

namespace Double

theorem unitsPerOne_eq : ∃ n, n = 1074 ∧ unitsPerOne = 2 ^ n := ⟨1074, rfl, Nat.pow_eq⟩

theorem nearestRank_mul {k : Nat} (hk : 0 < k) (num den : Nat) :
    nearestRank (num * k) (den * k) = nearestRank num den := by
  have hdiv : num * k / (den * k) = num / den := Nat.mul_div_mul_right num den hk
  have hgap : ∀ gap, den * k * Nat.pow 2 gap = den * Nat.pow 2 gap * k := by
    intro gap
    rw [Nat.mul_assoc, Nat.mul_comm k, Nat.mul_assoc]
  simp only [nearestRank, hdiv, hgap, roundHalfEven_mul hk]

/-- Quotients of the same value are rounded to the same rank. -/
theorem nearestRank_congr {num den num' den' : Nat} (hden : 0 < den) (hden' : 0 < den')
    (h : num * den' = num' * den) : nearestRank num den = nearestRank num' den' := by
  rw [← nearestRank_mul hden' num den, ← nearestRank_mul hden num' den', h, Nat.mul_comm den]

/-! ### Limits -/

theorem nearestRank_eq_zero {num den : Nat} (h : 2 * num < den) : nearestRank num den = 0 := by
  have hdiv : num / den = 0 := Nat.div_eq_of_lt (by omega)
  have hmod : num % den = num := Nat.mod_eq_of_lt (by omega)
  have hpos : 0 < 2 * octave := by decide
  simp only [nearestRank, hdiv, if_pos hpos, roundHalfEven, hmod, if_pos h]

theorem rankCount_le_nearestRank {n num : Nat} (hn : 2200 ≤ n) (h : 2 ^ n ≤ num) :
    rankCount ≤ nearestRank num 1 := by
  have hne : num ≠ 0 := Nat.ne_of_gt (Nat.lt_of_lt_of_le (Nat.two_pow_pos n) h)
  have hlog : n ≤ num.log2 := (Nat.le_log2 hne).mpr h
  have hlarge : ¬ num < 2 * octave := by
    intro hlt
    have hpow : 2 * octave < 2 ^ 54 := by decide
    have := Nat.pow_le_pow_right (n := 2) (by omega) (show 54 ≤ n by omega)
    omega
  simp only [nearestRank, Nat.div_one, if_neg hlarge]
  have hgap : 2047 ≤ num.log2 - 52 := by omega
  exact Nat.le_trans (Nat.mul_le_mul_right octave hgap) (Nat.le_add_right _ _)

/-! ### Decimals -/

/-- The number of units of a decimal, as a quotient. -/
def quotient (d : Decimal) : Nat × Nat :=
  (d.coefficient * 10 ^ d.exponent.toNat * unitsPerOne, 10 ^ (-d.exponent).toNat)

theorem quotient_pos (d : Decimal) : 0 < (quotient d).2 := Nat.pow_pos (by omega)

theorem eight_pow_le (n : Nat) : 2 ^ (3 * n) ≤ 10 ^ n := by
  rw [Nat.pow_mul]
  exact Nat.pow_le_pow_left (by omega) n

/-- A decimal with a large exponent is rounded to infinity. -/
theorem rankCount_le_of_large {d : Decimal} (hne : d.coefficient ≠ 0) (h : 400 < d.exponent) :
    rankCount ≤ nearestRank (quotient d).1 (quotient d).2 := by
  have hden : (quotient d).2 = 1 := by
    simp only [quotient]
    rw [Int.toNat_of_nonpos (by omega), Nat.pow_zero]
  rw [hden]
  obtain ⟨n, hn, hunits⟩ := unitsPerOne_eq
  have hten : 2 ^ (3 * d.exponent.toNat) ≤ d.coefficient * 10 ^ d.exponent.toNat :=
    Nat.le_trans (eight_pow_le _) (Nat.le_mul_of_pos_left _ (Nat.pos_of_ne_zero hne))
  refine rankCount_le_nearestRank (n := 3 * d.exponent.toNat + n) (by omega) ?_
  rw [Nat.pow_add, ← hunits]
  exact Nat.mul_le_mul_right _ hten

/-- A decimal with a small exponent for its digits is rounded to zero. -/
theorem nearestRank_eq_zero_of_small {d : Decimal}
    (h : d.exponent + d.coefficient.log2 < -400) :
    nearestRank (quotient d).1 (quotient d).2 = 0 := by
  refine nearestRank_eq_zero ?_
  have hexp : d.exponent.toNat = 0 := by omega
  have hlog : d.coefficient.log2 + 400 ≤ (-d.exponent).toNat := by omega
  simp only [quotient, hexp, Nat.pow_zero, Nat.mul_one]
  obtain ⟨n, hn, hunits⟩ := unitsPerOne_eq
  rw [hunits]
  calc 2 * (d.coefficient * 2 ^ n)
      < 2 * (2 ^ (d.coefficient.log2 + 1) * 2 ^ n) :=
        Nat.mul_lt_mul_of_pos_left
          (Nat.mul_lt_mul_of_pos_right Nat.lt_log2_self (Nat.two_pow_pos n)) (by omega)
    _ = 2 ^ (1 + (d.coefficient.log2 + 1 + n)) := by
        rw [Nat.pow_add 2 1, Nat.pow_add 2 _ n, Nat.pow_one]
    _ ≤ 2 ^ (3 * (-d.exponent).toNat) := Nat.pow_le_pow_right (by omega) (by omega)
    _ ≤ 10 ^ (-d.exponent).toNat := eight_pow_le _

/-- A decimal stands for a finite double if and only if its value is rounded to it. -/
theorem ofDecimal_eq_finite_iff {d : Decimal} {rank : Fin rankCount} :
    ofDecimal false d = .finite false rank ↔
      nearestRank (quotient d).1 (quotient d).2 = rank.val := by
  have hunits : ∀ num den,
      ofUnits false num den = .finite false rank ↔ nearestRank num den = rank.val := by
    intro num den
    unfold ofUnits
    split_ifs with h
    · simp [Fin.ext_iff]
    · simp only [false_iff]
      have := rank.isLt
      omega
  have hzero : zero false = .finite false rank ↔ 0 = rank.val := by
    simp [zero, Fin.ext_iff]
  unfold ofDecimal
  split_ifs with hcoefficient hlarge hsmall hexp
  · have hquotient : nearestRank (quotient d).1 (quotient d).2 = 0 := by
      refine nearestRank_eq_zero ?_
      simp only [quotient, hcoefficient, Nat.zero_mul, Nat.mul_zero]
      exact Nat.pow_pos (by omega)
    rw [hzero, hquotient]
  · have := rankCount_le_of_large hcoefficient hlarge
    have := rank.isLt
    simp only [false_iff]
    omega
  · rw [hzero, nearestRank_eq_zero_of_small hsmall]
  · have hneg : (-d.exponent).toNat = 0 := by omega
    rw [hunits, quotient, hneg, Nat.pow_zero]
    rfl
  · have hpos : d.exponent.toNat = 0 := by omega
    rw [hunits, quotient, hpos, Nat.pow_zero, Nat.mul_one]
    rfl

/-! ### The shortest decimal -/

theorem readsBack_iff {rank : Fin rankCount} {d : Decimal} :
    readsBack rank.val d = true ↔ nearestRank (quotient d).1 (quotient d).2 = rank.val := by
  rw [← ofDecimal_eq_finite_iff, readsBack]
  split
  · next r heq => simp [heq, Fin.ext_iff]
  · next hne =>
    simp only [Bool.false_eq_true, false_iff]
    exact fun h => hne rank h

theorem readsBack_of_firstOnGrid? {rank tries : Nat} {exponent : Int} {d : Decimal}
    (h : firstOnGrid? rank tries exponent = some d) : readsBack rank d = true := by
  induction tries generalizing exponent with
  | zero => simp [firstOnGrid?] at h
  | succ tries ih =>
    rw [firstOnGrid?] at h
    split at h
    · next d' hgrid =>
      rw [Option.some.injEq] at h
      subst h
      simp only [onGrid?] at hgrid
      split at hgrid
      · next hlower hupper =>
        split_ifs at hgrid <;> (rw [Option.some.injEq] at hgrid; subst hgrid; assumption)
      · next hlower _ =>
        rw [Option.some.injEq] at hgrid
        exact hgrid ▸ hlower
      · next _ hupper =>
        rw [Option.some.injEq] at hgrid
        exact hgrid ▸ hupper
      · cases hgrid
    · exact ih h

/-- The shortest decimal of a magnitude is rounded to it. -/
theorem nearestRank_shortest (rank : Fin rankCount) :
    nearestRank (quotient (shortest rank.val)).1 (quotient (shortest rank.val)).2 = rank.val := by
  simp only [shortest]
  cases h : firstOnGrid? rank.val 17 (decimalWidth (unitsOfRank rank.val) - 1) with
  | some d => exact readsBack_iff.mp (readsBack_of_firstOnGrid? h)
  | none =>
    rw [Option.getD_none]
    refine Eq.trans (nearestRank_congr (quotient_pos _) Nat.one_pos ?_)
      (nearestRank_unitsOfRank rank.val)
    simp only [quotient, exactDecimal]
    obtain ⟨n, hn, hunits⟩ := unitsPerOne_eq
    have hexp : (-1074 : Int) = -(n : Int) := by omega
    have hten : 10 ^ n = 5 ^ n * 2 ^ n := Nat.mul_pow 5 2 n
    rw [hexp, ← hn, Int.neg_neg, Int.toNat_natCast, Int.toNat_neg_natCast, Nat.pow_zero,
      Nat.mul_one, Nat.mul_one, hunits, hten, Nat.mul_assoc]
    rfl

end Double

end PromQL

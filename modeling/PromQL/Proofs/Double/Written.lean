import Mathlib
import PromQL.Proofs.Double.Shortest
import PromQL.Proofs.Label.Decoding

/-!
# Numerals stand for their doubles

The numeral of a finite double is a sign and a spelled number, which the lexer reads as one token.
Its exact value is rounded to the double and to no other one, and no decimal that is rounded to the
double has fewer significant digits.
-/

namespace PromQL

namespace Double

/-! ### The spelling -/

theorem Digits.fraction_scientificParts_ne_nil (d : Digits) :
    ∀ ds ∈ d.scientificParts.fraction, ds ≠ [] := by
  intro ds hds
  simp only [scientificParts, Option.mem_def] at hds
  split_ifs at hds with hlength
  cases hds
  exact List.ne_nil_of_length_pos (by rw [List.length_drop]; omega)

theorem Digits.fraction_positionalParts_ne_nil {d : Digits} (hne : d.digits ≠ []) :
    ∀ ds ∈ d.positionalParts.fraction, ds ≠ [] := by
  intro ds hds
  unfold positionalParts at hds
  split_ifs at hds with hpoint hlength
  · cases hds
    simp [hne]
  · cases hds
  · cases hds
    exact List.ne_nil_of_length_pos (by rw [List.length_drop]; omega)

/-- A numeral has a fraction only if there are digits in it. -/
theorem fraction_magnitudeParts_ne_nil (rank : Fin rankCount) :
    ∀ ds ∈ (magnitudeParts rank.val).fraction, ds ≠ [] := by
  simp only [magnitudeParts]
  split_ifs with hzero hexp
  · simp
  · exact Digits.fraction_scientificParts_ne_nil _
  · obtain ⟨m, e, -, hdigits, -⟩ :=
      exists_digits rank ((unitsOfRank_eq_zero_iff _).not.mp hzero)
    rw [hdigits]
    exact Digits.fraction_positionalParts_ne_nil (decimal_ne_nil m)

theorem scan_numeral (negative : Bool) (rank : Fin rankCount) :
    Token.scan .plain (finite negative rank).numeral =
      some (signTokens negative ++ [.number (magnitudeParts rank.val).text]) := by
  refine (spells_numeral (finite negative rank)).scan fun t ht => ?_
  rcases List.mem_append.mp ht with ht | ht
  · cases negative with
    | false => cases ht
    | true =>
      cases List.mem_singleton.mp ht
      simp
  · cases List.mem_singleton.mp ht
    simp

/-! ### The exponent -/

theorem isSome_exponent_magnitudeParts (rank : Nat) :
    (magnitudeParts rank).exponent.isSome = needsExponent (unitsOfRank rank) := by
  simp only [magnitudeParts]
  split_ifs with hzero hexp
  · rw [hzero]
    rfl
  · rw [hexp]
    rfl
  · rw [Bool.not_eq_true] at hexp
    rw [hexp]
    unfold Digits.positionalParts
    split_ifs <;> rfl

/-- A numeral has an exponent below one ten-thousandth, zero apart, and from the twenty-first power
of ten. -/
theorem needsExponent_iff (rank : Nat) :
    needsExponent (unitsOfRank rank) ↔
      magnitude rank ≠ 0 ∧ (magnitude rank < 1 / 10 ^ 4 ∨ 10 ^ 21 ≤ magnitude rank) := by
  have hone := unitsPerOne_cast_pos
  have hzero : magnitude rank ≠ 0 ↔ unitsOfRank rank ≠ 0 := by
    rw [magnitude, div_ne_zero_iff, Nat.cast_ne_zero]
    exact and_iff_left hone.ne'
  have hsmall : magnitude rank < 1 / 10 ^ 4 ↔ unitsOfRank rank * 10000 < unitsPerOne := by
    have hcast : (unitsOfRank rank : ℚ) * 10 ^ 4 = (unitsOfRank rank * 10000 : Nat) := by
      push_cast
      norm_num
    rw [magnitude, div_lt_div_iff₀ hone (by norm_num), one_mul, hcast, Nat.cast_lt]
  have hlarge : 10 ^ 21 ≤ magnitude rank ↔ 10 ^ 21 * unitsPerOne ≤ unitsOfRank rank := by
    have hcast : (10 : ℚ) ^ 21 = (10 ^ 21 : Nat) := by
      push_cast
      rfl
    rw [magnitude, le_div_iff₀ hone, hcast, ← Nat.cast_mul, Nat.cast_le]
  rw [hzero, hsmall, hlarge]
  simp [needsExponent]

/-! ### The value -/

theorem value_magnitudeParts_zero : (magnitudeParts 0).value = ⟨0, 0⟩ := by
  rw [magnitudeParts, if_pos (unitsOfRank_of_lt octave_pos)]
  rfl

/-- What stands behind the sign is rounded to the magnitude. -/
theorem roundsTo_value_magnitudeParts (rank : Fin rankCount) :
    RoundsTo (magnitudeParts rank.val).value.toRat rank.val := by
  by_cases hrank : rank.val = 0
  · have hvalue : Decimal.toRat ⟨0, 0⟩ = magnitude 0 := by simp [Decimal.toRat, magnitude_zero]
    rw [hrank, value_magnitudeParts_zero, hvalue]
    exact RoundsTo.self 0
  · obtain ⟨m, k, e, -, -, hvalue, hnearest⟩ := exists_value_magnitudeParts rank hrank
    rw [hvalue]
    exact nearestRank_quotient_iff.mp hnearest

/-- No decimal that stands for a double has fewer significant digits than its numeral. -/
theorem significant_value_magnitudeParts_le {negative negative' : Bool} {rank : Fin rankCount}
    {d : Decimal} (h : IsNearest (signed negative' d.toRat) negative rank) :
    (magnitudeParts rank.val).value.significant ≤ d.significant := by
  by_cases hrank : rank.val = 0
  · rw [hrank, value_magnitudeParts_zero, Decimal.significant_zero]
    exact Nat.zero_le _
  · obtain ⟨m, k, e, hm, hdigits, hvalue, -⟩ := exists_value_magnitudeParts rank hrank
    have hsame : Decimal.significant ⟨m * 10 ^ k, e⟩ = (shortest rank.val).significant := by
      rw [Decimal.significant_mul_pow hm, Decimal.significant, hdigits]
    rw [hvalue, hsame]
    exact significant_shortest_le hrank (roundsTo_of_isNearest d.toRat_nonneg hrank h)

/-! ### The numeral -/

/-- The numeral of a finite double is its sign and a number that the lexer reads as one token. The
exact value is rounded to the double, and no decimal that is rounded to it has fewer significant
digits. There is an exponent if the double is not zero, and below one ten-thousandth or from the
twenty-first power of ten on. -/
theorem numeral_nearest_fewest (negative : Bool) (rank : Fin rankCount) :
    ∃ n : NumberParts, (finite negative rank).numeral = signText negative ++ n.text ∧
      n.IsDigits ∧ (∀ ds ∈ n.fraction, ds ≠ []) ∧
      Token.scan .plain (finite negative rank).numeral =
        some (signTokens negative ++ [.number n.text]) ∧
      IsNearest (signed negative n.value.toRat) negative rank ∧
      (∀ negative' d, IsNearest (signed negative' (Decimal.toRat d)) negative rank →
        n.value.significant ≤ d.significant) ∧
      (n.exponent.isSome ↔
        magnitude rank ≠ 0 ∧ (magnitude rank < 1 / 10 ^ 4 ∨ 10 ^ 21 ≤ magnitude rank)) := by
  refine ⟨magnitudeParts rank.val, numeral_finite negative rank, isDigits_magnitudeParts rank,
    fraction_magnitudeParts_ne_nil rank, scan_numeral negative rank, ?_, fun _ _ =>
    significant_value_magnitudeParts_le, ?_⟩
  · exact (isNearest_signed_iff (Decimal.toRat_nonneg _)).mpr (roundsTo_value_magnitudeParts rank)
  · rw [isSome_exponent_magnitudeParts]
    exact needsExponent_iff rank.val

end Double

end PromQL

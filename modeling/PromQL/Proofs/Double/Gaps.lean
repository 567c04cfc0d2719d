import Mathlib
import PromQL.Double.Rounding

/-!
# Gaps between doubles

Within an octave neighbours are the same number of units apart, so a magnitude is a multiple of the
gap, and rounding to the nearest one is rounding to a multiple. At the ends of an octave the gap
changes, but a quotient that is rounded to an end is on the side on which the gap counts. So what is
rounded to a magnitude is always between the middles of the gaps below and above it, and each
magnitude is rounded to itself.
-/

namespace PromQL

namespace Double

/-! ### Units in octaves -/

theorem octave_pos : 0 < octave := by decide

/-- The magnitudes of one gap are the multiples of the gap, up to the first one of the next. -/
theorem unitsOfRank_split {gap m : Nat} (hle : m ≤ 2 * octave) (hnormal : gap = 0 ∨ octave ≤ m) :
    unitsOfRank (gap * octave + m) = m * 2 ^ gap := by
  have hoctave := octave_pos
  have hpow : ∀ n, Nat.pow 2 n = 2 ^ n := fun _ => Nat.pow_eq
  by_cases hsmall : gap * octave + m < octave
  · have hgap : gap = 0 := by
      rcases hnormal with h | h
      · exact h
      · omega
    subst hgap
    rw [unitsOfRank_of_lt hsmall]
    omega
  · rw [unitsOfRank, if_neg hsmall, hpow]
    have hm : octave ≤ m := by
      rcases hnormal with rfl | h
      · omega
      · exact h
    rcases Nat.eq_or_lt_of_le hle with rfl | hlt
    · have hrank : gap * octave + 2 * octave = octave * (gap + 2) := by ring
      have hdiv : octave * (gap + 2) / octave = gap + 2 := Nat.mul_div_cancel_left _ hoctave
      rw [hrank, Nat.mul_mod_right, hdiv, Nat.add_zero, Nat.add_sub_assoc (by omega), Nat.pow_succ]
      ring
    · have hrank : gap * octave + m = (m - octave) + octave * (gap + 1) := by
        have : octave * (gap + 1) = gap * octave + octave := by ring
        omega
      have hdiv : (m - octave) / octave = 0 := Nat.div_eq_of_lt (by omega)
      have hmod : (m - octave) % octave = m - octave := Nat.mod_eq_of_lt (by omega)
      rw [hrank, Nat.add_mul_mod_self_left, Nat.add_mul_div_left _ _ hoctave, hdiv, hmod,
        Nat.zero_add, Nat.add_sub_cancel, Nat.add_sub_cancel' hm]

/-- Every magnitude is a multiple of the gap above it. -/
theorem exists_split (rank : Nat) :
    ∃ gap m, rank = gap * octave + m ∧ m < 2 * octave ∧ (gap = 0 ∨ octave ≤ m) := by
  have hsplit := Nat.div_add_mod rank octave
  have hlt := Nat.mod_lt rank octave_pos
  cases hdiv : rank / octave with
  | zero =>
    rw [hdiv, Nat.mul_zero, Nat.zero_add] at hsplit
    exact ⟨0, rank, by omega, by omega, .inl rfl⟩
  | succ gap =>
    refine ⟨gap, octave + rank % octave, ?_, by omega, .inr (Nat.le_add_right _ _)⟩
    rw [hdiv, Nat.mul_succ, Nat.mul_comm octave gap] at hsplit
    omega

theorem unitsOfRank_lt_succ (rank : Nat) : unitsOfRank rank < unitsOfRank (rank + 1) := by
  obtain ⟨gap, m, rfl, hlt, hnormal⟩ := exists_split rank
  have hnext : gap = 0 ∨ octave ≤ m + 1 := hnormal.imp_right fun h => by omega
  rw [Nat.add_assoc, unitsOfRank_split hlt.le hnormal, unitsOfRank_split hlt hnext]
  exact Nat.mul_lt_mul_of_pos_right (Nat.lt_succ_self m) (Nat.two_pow_pos gap)

theorem unitsOfRank_strictMono : StrictMono unitsOfRank :=
  strictMono_nat_of_lt_succ unitsOfRank_lt_succ

/-! ### Between the middles of two gaps -/

/-- A quotient is at most half away from what it is rounded to, and the result is even if it is
just that far. -/
theorem roundHalfEven_spec (num : Nat) {den : Nat} (hden : 0 < den) :
    (2 * num ≤ (2 * roundHalfEven num den + 1) * den ∧
        (2 * num = (2 * roundHalfEven num den + 1) * den → roundHalfEven num den % 2 = 0)) ∧
      (2 * roundHalfEven num den * den ≤ 2 * num + den ∧
        (2 * roundHalfEven num den * den = 2 * num + den → roundHalfEven num den % 2 = 0)) := by
  have hsplit := Nat.div_add_mod num den
  have hrest := Nat.mod_lt num hden
  simp only [roundHalfEven]
  generalize num / den = q at hsplit ⊢
  generalize num % den = s at hsplit hrest ⊢
  -- the result is the whole part or one more, whichever side of the half the rest is on
  obtain ⟨k, hk, hside, heven⟩ : ∃ k, (if 2 * s < den then q else if den < 2 * s then q + 1
      else q + q % 2) = q + k ∧ (k = 0 ∧ 2 * s ≤ den ∨ k = 1 ∧ den ≤ 2 * s) ∧
      (2 * s = den → (q + k) % 2 = 0) := by
    split_ifs with hless hgreater
    · exact ⟨0, rfl, .inl ⟨rfl, by omega⟩, by omega⟩
    · exact ⟨1, rfl, .inr ⟨rfl, by omega⟩, by omega⟩
    · exact ⟨q % 2, rfl, by omega, by omega⟩
  rw [hk]
  have hupper : (2 * (q + k) + 1) * den = 2 * (den * q) + (2 * k + 1) * den := by ring
  have hlower : 2 * (q + k) * den = 2 * (den * q) + 2 * k * den := by ring
  rw [hupper, hlower, ← hsplit]
  rcases hside with ⟨rfl, hs⟩ | ⟨rfl, hs⟩ <;>
    exact ⟨⟨by omega, fun h => heven (by omega)⟩, by omega, fun h => heven (by omega)⟩

theorem roundHalfEven_le {num den k : Nat} (hden : 0 < den) (h : num ≤ k * den) :
    roundHalfEven num den ≤ k := by
  have hspec := (roundHalfEven_spec num hden).2.1
  have hlt : 2 * roundHalfEven num den * den < (2 * k + 2) * den := by
    have : (2 * k + 2) * den = 2 * (k * den) + 2 * den := by ring
    omega
  have := Nat.lt_of_mul_lt_mul_right hlt
  omega

theorem le_roundHalfEven {num den k : Nat} (hden : 0 < den) (h : k * den ≤ num) :
    k ≤ roundHalfEven num den := by
  have hspec := (roundHalfEven_spec num hden).1.1
  have hle : 2 * k * den ≤ (2 * roundHalfEven num den + 1) * den := by
    have : 2 * k * den = 2 * (k * den) := by ring
    omega
  have := Nat.le_of_mul_le_mul_right hle hden
  omega

/-- The gap in whose octave a quotient lies: it is so many gaps, up to twice an octave of them, and
at least one octave unless the gap is a single unit. -/
theorem exists_gap (num : Nat) {den : Nat} (hden : 0 < den) :
    ∃ gap, nearestRank num den = gap * octave + roundHalfEven num (den * 2 ^ gap) ∧
      num < 2 * octave * (den * 2 ^ gap) ∧ (gap = 0 ∨ octave * (den * 2 ^ gap) ≤ num) := by
  have hoctave : octave = 2 ^ 52 := by decide
  have hnext : num < den * (num / den + 1) := Nat.lt_mul_div_succ num hden
  by_cases hsmall : num / den < 2 * octave
  · refine ⟨0, ?_, ?_, .inl rfl⟩
    · simp only [nearestRank, if_pos hsmall]
      simp
    · calc num < den * (num / den + 1) := hnext
        _ ≤ den * (2 * octave) := Nat.mul_le_mul_left den hsmall
        _ = 2 * octave * (den * 2 ^ 0) := by ring
  · have hne : num / den ≠ 0 := by
      have := octave_pos
      omega
    have hlog : 53 ≤ (num / den).log2 := (Nat.le_log2 hne).mpr (by rw [hoctave] at hsmall; omega)
    obtain ⟨gap, hgap⟩ : ∃ gap, (num / den).log2 = 52 + gap := Nat.exists_eq_add_of_le (by omega)
    have hlt : num / den < 2 * octave * 2 ^ gap := by
      have h : num / den < 2 ^ ((num / den).log2 + 1) := Nat.lt_log2_self
      rw [hgap] at h
      rw [hoctave]
      calc num / den < 2 ^ (52 + gap + 1) := h
        _ = 2 * 2 ^ 52 * 2 ^ gap := by ring
    have hle : octave * 2 ^ gap ≤ num / den := by
      rw [hoctave, ← Nat.pow_add, ← hgap]
      exact Nat.log2_self_le hne
    refine ⟨gap, ?_, ?_, .inr ?_⟩
    · simp only [nearestRank, if_neg hsmall, hgap, Nat.add_sub_cancel_left, Nat.pow_eq]
    · calc num < den * (num / den + 1) := hnext
        _ ≤ den * (2 * octave * 2 ^ gap) := Nat.mul_le_mul_left den hlt
        _ = 2 * octave * (den * 2 ^ gap) := by ring
    · calc octave * (den * 2 ^ gap) = octave * 2 ^ gap * den := by ring
        _ ≤ num / den * den := Nat.mul_le_mul_right den hle
        _ ≤ num := Nat.div_mul_le_self num den

/-- A quotient is rounded to a multiple of a gap, to the end of an octave only if it is not beyond
the end, and to the start of one only if it is not in front of the start. -/
theorem exists_nearestRank_split (num : Nat) {den : Nat} (hden : 0 < den) :
    ∃ gap m, nearestRank num den = gap * octave + m ∧ roundHalfEven num (den * 2 ^ gap) = m ∧
      unitsOfRank (nearestRank num den) = m * 2 ^ gap ∧ m ≤ 2 * octave ∧ (gap = 0 ∨ octave ≤ m) ∧
      (m * (den * 2 ^ gap) < num → m < 2 * octave) ∧
      (num < m * (den * 2 ^ gap) → gap = 0 ∨ octave < m) := by
  obtain ⟨gap, hrank, hlt, hge⟩ := exists_gap num hden
  have hpos : 0 < den * 2 ^ gap := Nat.mul_pos hden (Nat.two_pow_pos gap)
  have hle : roundHalfEven num (den * 2 ^ gap) ≤ 2 * octave := roundHalfEven_le hpos hlt.le
  have hnormal := hge.imp_right (le_roundHalfEven hpos)
  refine ⟨gap, _, hrank, rfl, ?_, hle, hnormal, fun h => ?_, fun h => ?_⟩
  · rw [hrank, unitsOfRank_split hle hnormal]
  · exact Nat.lt_of_mul_lt_mul_right (h.trans hlt)
  · exact hge.imp_right fun hge => Nat.lt_of_mul_lt_mul_right (hge.trans_lt h)

theorem split_mod_two (gap m : Nat) : (gap * octave + m) % 2 = m % 2 := by
  have hoctave : octave = 2 * 0x8000000000000 := rfl
  rw [hoctave]
  omega

/-- A quotient is not above the middle between what it is rounded to and the next magnitude. -/
theorem nearestRank_upper {num den : Nat} (hden : 0 < den) {rank : Nat}
    (h : nearestRank num den = rank) :
    2 * num ≤ (unitsOfRank rank + unitsOfRank (rank + 1)) * den ∧
      (2 * num = (unitsOfRank rank + unitsOfRank (rank + 1)) * den → rank % 2 = 0) := by
  obtain ⟨gap, m, hrank, hm, hunits, hle, hnormal, hlt, -⟩ := exists_nearestRank_split num hden
  rw [h] at hrank hunits
  have hpos : 0 < den * 2 ^ gap := Nat.mul_pos hden (Nat.two_pow_pos gap)
  by_cases hbelow : num ≤ m * (den * 2 ^ gap)
  · have hstep : unitsOfRank rank * den < unitsOfRank (rank + 1) * den :=
      Nat.mul_lt_mul_of_pos_right (unitsOfRank_lt_succ rank) hden
    have hvalue : unitsOfRank rank * den = m * (den * 2 ^ gap) := by
      rw [hunits]
      ring
    rw [Nat.add_mul]
    omega
  · have hnext : unitsOfRank (rank + 1) = (m + 1) * 2 ^ gap := by
      rw [hrank, Nat.add_assoc,
        unitsOfRank_split (hlt (by omega)) (hnormal.imp_right fun h => by omega)]
    have hmiddle : (unitsOfRank rank + unitsOfRank (rank + 1)) * den =
        (2 * m + 1) * (den * 2 ^ gap) := by
      rw [hunits, hnext]
      ring
    have hspec := (roundHalfEven_spec num hpos).1
    rwa [hm, ← hmiddle, ← split_mod_two gap, ← hrank] at hspec

/-- A quotient is not below the middle between what it is rounded to and the magnitude before. -/
theorem nearestRank_lower {num den : Nat} (hden : 0 < den) {rank : Nat}
    (h : nearestRank num den = rank + 1) :
    (unitsOfRank rank + unitsOfRank (rank + 1)) * den ≤ 2 * num ∧
      ((unitsOfRank rank + unitsOfRank (rank + 1)) * den = 2 * num → (rank + 1) % 2 = 0) := by
  obtain ⟨gap, m, hrank, hm, hunits, hle, hnormal, -, hgt⟩ := exists_nearestRank_split num hden
  rw [h] at hrank hunits
  have hpos : 0 < den * 2 ^ gap := Nat.mul_pos hden (Nat.two_pow_pos gap)
  by_cases habove : m * (den * 2 ^ gap) ≤ num
  · have hstep : unitsOfRank rank * den < unitsOfRank (rank + 1) * den :=
      Nat.mul_lt_mul_of_pos_right (unitsOfRank_lt_succ rank) hden
    have hvalue : unitsOfRank (rank + 1) * den = m * (den * 2 ^ gap) := by
      rw [hunits]
      ring
    rw [Nat.add_mul]
    omega
  · have hnormal' : gap = 0 ∨ octave < m := hgt (by omega)
    obtain ⟨k, rfl⟩ : ∃ k, m = k + 1 := by
      refine Nat.exists_eq_succ_of_ne_zero ?_
      rintro rfl
      have := octave_pos
      rcases hnormal' with rfl | h' <;> omega
    have hprevious : unitsOfRank rank = k * 2 ^ gap := by
      have hrank : rank = gap * octave + k := by omega
      rw [hrank, unitsOfRank_split (by omega) (hnormal'.imp_right fun h => by omega)]
    have hmiddle : (unitsOfRank rank + unitsOfRank (rank + 1)) * den + den * 2 ^ gap =
        2 * (k + 1) * (den * 2 ^ gap) := by
      rw [hunits, hprevious]
      ring
    have hspec := (roundHalfEven_spec num hpos).2
    rw [hm, ← hmiddle, ← split_mod_two gap, ← hrank] at hspec
    exact ⟨by omega, fun heq => hspec.2 (by omega)⟩

/-- The magnitude of a double is rounded to itself. -/
theorem nearestRank_unitsOfRank (rank : Nat) : nearestRank (unitsOfRank rank) 1 = rank := by
  have hmono : ∀ {p q}, p ≤ q → unitsOfRank p ≤ unitsOfRank q :=
    fun h => unitsOfRank_strictMono.monotone h
  rcases lt_trichotomy (nearestRank (unitsOfRank rank) 1) rank with hlt | heq | hgt
  · have hself : nearestRank (unitsOfRank rank) 1 = nearestRank (unitsOfRank rank) 1 := rfl
    have hupper := (nearestRank_upper Nat.one_pos hself).1
    have hlower := unitsOfRank_strictMono hlt
    have hnext := hmono (show nearestRank (unitsOfRank rank) 1 + 1 ≤ rank from hlt)
    omega
  · exact heq
  · obtain ⟨p, hp⟩ : ∃ p, nearestRank (unitsOfRank rank) 1 = p + 1 :=
      Nat.exists_eq_succ_of_ne_zero (by omega)
    have hlower := (nearestRank_lower Nat.one_pos hp).1
    have hupper := unitsOfRank_strictMono hgt
    have hprevious := hmono (show rank ≤ p by omega)
    rw [hp] at hupper
    omega

end Double

end PromQL

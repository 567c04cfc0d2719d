import Mathlib
import PromQL.Proofs.Double.Nearest
import PromQL.Proofs.Double.Numeral

/-!
# The fewest digits

A decimal with so many significant digits is a point of the grid that starts as many places behind
the first digit of a magnitude, or it is below the power of ten in front of the magnitude, which is
a point of that grid and nearer. So a search that goes from coarse grids to fine ones and looks at
the neighbours of the magnitude only finds a decimal with the fewest significant digits. Seventeen
are always enough, since the points of that grid are closer to each other than magnitudes are.
-/

namespace PromQL

/-! ### Significant digits -/

/-- The number of digits of a decimal, without zeros at either end. -/
def Decimal.significant (d : Decimal) : Nat := (Double.Digits.ofDecimal d).digits.length

theorem length_decimal_le_iff {n k : Nat} (hk : 0 < k) : (decimal n).length ≤ k ↔ n < 10 ^ k :=
  Nat.length_toDigits_le_iff (by omega) hk

theorem length_decimal_pos (n : Nat) : 0 < (decimal n).length :=
  List.length_pos_iff.mpr (decimal_ne_nil n)

theorem lt_pow_length_decimal (n : Nat) : n < 10 ^ (decimal n).length :=
  (length_decimal_le_iff (length_decimal_pos n)).mp le_rfl

theorem pow_le_of_length_decimal {n k : Nat} (hn : n ≠ 0) (h : (decimal n).length = k + 1) :
    10 ^ k ≤ n := by
  rcases Nat.eq_zero_or_pos k with rfl | hk
  · exact Nat.pos_of_ne_zero hn
  · by_contra hlt
    have := (length_decimal_le_iff hk).mpr (by omega : n < 10 ^ k)
    omega

namespace Decimal

theorem significant_zero (e : Int) : significant ⟨0, e⟩ = 0 := by
  have hzero : decimal 0 = ['0'] := Nat.toDigits_of_lt_base (by omega)
  simp [significant, Double.Digits.ofDecimal, hzero]

theorem significant_mul_pow {m : Nat} (hm : m % 10 ≠ 0) (k : Nat) (e : Int) :
    significant ⟨m * 10 ^ k, e⟩ = (decimal m).length := by
  rw [significant, Double.ofDecimal_mul_pow hm]

/-- A decimal has so many significant digits at most if it is a number of so many digits, or just
the first one that has more. -/
theorem significant_le {d : Decimal} {k : Nat} (hk : 0 < k) (h : d.coefficient ≤ 10 ^ k) :
    d.significant ≤ k := by
  obtain ⟨c, e⟩ := d
  rcases Nat.eq_zero_or_pos c with rfl | hc
  · rw [significant_zero]
    exact Nat.zero_le k
  · obtain ⟨m, j, rfl, hm⟩ := exists_mul_pow hc.ne'
    rw [significant_mul_pow hm, length_decimal_le_iff hk]
    have hle : m ≤ 10 ^ k := (Nat.le_mul_of_pos_right m (Nat.pow_pos (by omega))).trans h
    have hne : m ≠ 10 ^ k := by
      rintro rfl
      obtain ⟨i, rfl⟩ := Nat.exists_eq_succ_of_ne_zero hk.ne'
      rw [Nat.pow_succ, Nat.mul_mod_left] at hm
      exact hm rfl
    omega

/-- The value of a decimal other than zero by its significant digits. -/
theorem exists_significant {d : Decimal} (h : d.coefficient ≠ 0) :
    0 < d.significant ∧ ∃ (m : Nat) (e : Int), d.toRat = m * 10 ^ e ∧ m < 10 ^ d.significant := by
  obtain ⟨c, e⟩ := d
  obtain ⟨m, k, rfl, hm⟩ := exists_mul_pow h
  rw [significant_mul_pow hm]
  refine ⟨length_decimal_pos m, m, k + e, ?_, lt_pow_length_decimal m⟩
  rw [toRat, zpow_add₀ (by norm_num), zpow_natCast]
  push_cast
  ring

end Decimal

namespace Double

/-! ### Grids around a magnitude -/

/-- The last point of a grid that is not above a magnitude. -/
def gridFloor (rank : Nat) (exponent : Int) : Nat :=
  unitsOfRank rank * Nat.pow 10 (-exponent).toNat / (unitsPerOne * Nat.pow 10 exponent.toNat)

theorem gridFloor_spec (rank : Nat) (e : Int) :
    gridFloor rank e * (10 : ℚ) ^ e ≤ magnitude rank ∧
      magnitude rank < (gridFloor rank e + 1 : Nat) * (10 : ℚ) ^ e := by
  have hden : 0 < unitsPerOne * 10 ^ e.toNat :=
    Nat.mul_pos unitsPerOne_pos (Nat.pow_pos (by omega))
  have hpow : (0 : ℚ) < (10 ^ (-e).toNat : Nat) := Nat.cast_pos.mpr (Nat.pow_pos (by omega))
  have hfloor : gridFloor rank e =
      unitsOfRank rank * 10 ^ (-e).toNat / (unitsPerOne * 10 ^ e.toNat) := rfl
  have hpoint : ∀ c : Nat,
      (c : ℚ) * 10 ^ e = (c * 10 ^ e.toNat : Nat) / (10 ^ (-e).toNat : Nat) := by
    intro c
    rw [ten_zpow]
    push_cast
    ring
  rw [hpoint, hpoint, magnitude, div_le_div_iff₀ hpow unitsPerOne_cast_pos,
    div_lt_div_iff₀ unitsPerOne_cast_pos hpow, ← Nat.cast_mul, ← Nat.cast_mul, ← Nat.cast_mul,
    Nat.cast_le, Nat.cast_lt, hfloor]
  constructor
  · have h := Nat.div_mul_le_self (unitsOfRank rank * 10 ^ (-e).toNat) (unitsPerOne * 10 ^ e.toNat)
    rwa [Nat.mul_assoc, Nat.mul_comm (10 ^ e.toNat)]
  · have h := Nat.lt_mul_div_succ (unitsOfRank rank * 10 ^ (-e).toNat) hden
    rwa [Nat.mul_assoc, Nat.mul_comm (10 ^ e.toNat), Nat.mul_comm _ (unitsPerOne * _)]

theorem cast_pow_mul_zpow (k : Nat) (e : Int) : ((10 ^ k : Nat) : ℚ) * 10 ^ e = 10 ^ (k + e) := by
  rw [zpow_add₀ (by norm_num), zpow_natCast]
  push_cast
  rfl

/-- The width of a magnitude is the place of its first digit. -/
theorem decimalWidth_spec {rank : Nat} (hrank : rank ≠ 0) :
    (10 : ℚ) ^ (decimalWidth (unitsOfRank rank) - 1) ≤ magnitude rank ∧
      magnitude rank < 10 ^ decimalWidth (unitsOfRank rank) := by
  -- the digits are counted on a grid so fine that every magnitude but zero is beyond a point of it
  obtain ⟨places, hplaces, hle⟩ : ∃ places, places = 324 ∧ unitsPerOne ≤ Nat.pow 10 places :=
    ⟨324, rfl, by decide +kernel⟩
  have hfloor : gridFloor rank (-places) = unitsOfRank rank * Nat.pow 10 places / unitsPerOne := by
    have hone : Nat.pow 10 0 = 1 := rfl
    rw [gridFloor, neg_neg, Int.toNat_natCast, Int.toNat_neg_natCast, hone, Nat.mul_one]
  have hwidth : decimalWidth (unitsOfRank rank) =
      (decimal (gridFloor rank (-places))).length - (places : Int) := by
    rw [decimalWidth, ← hplaces, hfloor]
    omega
  have hpoint : gridFloor rank (-places) ≠ 0 := by
    have hunits : unitsOfRank rank ≠ 0 := (unitsOfRank_eq_zero_iff rank).not.mpr hrank
    rw [hfloor]
    refine (Nat.div_pos ?_ unitsPerOne_pos).ne'
    exact hle.trans (Nat.le_mul_of_pos_left _ (Nat.pos_of_ne_zero hunits))
  obtain ⟨k, hk⟩ : ∃ k, (decimal (gridFloor rank (-places))).length = k + 1 :=
    Nat.exists_eq_succ_of_ne_zero (length_decimal_pos _).ne'
  have hfirst := pow_le_of_length_decimal hpoint hk
  have hbehind : gridFloor rank (-places) < 10 ^ (k + 1) := hk ▸ lt_pow_length_decimal _
  have hstep : (0 : ℚ) < 10 ^ (-places : Int) := zpow_pos (by norm_num) _
  obtain ⟨hlower, hupper⟩ := gridFloor_spec rank (-places)
  constructor
  · calc (10 : ℚ) ^ (decimalWidth (unitsOfRank rank) - 1)
        = (10 ^ k : Nat) * 10 ^ (-places : Int) := by
          rw [cast_pow_mul_zpow]
          congr 1
          omega
      _ ≤ gridFloor rank (-places) * 10 ^ (-places : Int) :=
          mul_le_mul_of_nonneg_right (Nat.cast_le.mpr hfirst) hstep.le
      _ ≤ magnitude rank := hlower
  · calc magnitude rank < (gridFloor rank (-places) + 1 : Nat) * 10 ^ (-places : Int) := hupper
      _ ≤ (10 ^ (k + 1) : Nat) * 10 ^ (-places : Int) :=
          mul_le_mul_of_nonneg_right (Nat.cast_le.mpr hbehind) hstep.le
      _ = 10 ^ decimalWidth (unitsOfRank rank) := by
          rw [cast_pow_mul_zpow]
          congr 1
          omega

/-! ### Points that are rounded to a magnitude -/

/-- What is found on a grid is one of the two neighbours of the magnitude. -/
theorem eq_of_onGrid? {rank : Nat} {e : Int} {d : Decimal} (h : onGrid? rank e = some d) :
    d = ⟨gridFloor rank e, e⟩ ∨ d = ⟨gridFloor rank e + 1, e⟩ := by
  simp only [onGrid?] at h
  split at h
  · rw [Option.some.injEq] at h
    split_ifs at h
    · exact .inl h.symm
    · exact .inr h.symm
  · exact .inl (Option.some.inj h).symm
  · exact .inr (Option.some.inj h).symm
  · cases h

/-- If any point of a grid is rounded to a magnitude, one of its two neighbours is. -/
theorem isSome_onGrid? {rank : Fin rankCount} {e : Int} {c : Nat}
    (h : RoundsTo (c * (10 : ℚ) ^ e) rank.val) : (onGrid? rank.val e).isSome := by
  have hread : ∀ c : Nat, readsBack rank.val ⟨c, e⟩ ↔ RoundsTo (c * (10 : ℚ) ^ e) rank.val :=
    fun c => readsBack_iff.trans nearestRank_quotient_iff
  obtain ⟨hlower, hupper⟩ := gridFloor_spec rank.val e
  have hself := RoundsTo.self rank.val
  have hneighbour : readsBack rank.val ⟨gridFloor rank.val e, e⟩ ∨
      readsBack rank.val ⟨gridFloor rank.val e + 1, e⟩ := by
    rw [hread, hread]
    have hstep : (0 : ℚ) < 10 ^ e := zpow_pos (by norm_num) e
    rcases Nat.lt_or_ge (gridFloor rank.val e) c with hlt | hge
    · refine .inr (hself.between h hupper.le ?_)
      exact mul_le_mul_of_nonneg_right (Nat.cast_le.mpr hlt) hstep.le
    · refine .inl (h.between hself ?_ hlower)
      exact mul_le_mul_of_nonneg_right (Nat.cast_le.mpr hge) hstep.le
  simp only [onGrid?]
  split
  · rfl
  · rfl
  · rfl
  · next hnot hnot' =>
    rcases hneighbour with h | h
    · exact absurd (h.symm.trans hnot) (by decide)
    · exact absurd (h.symm.trans hnot') (by decide)

/-! ### Gaps between magnitudes -/

/-- The value of one gap. -/
def gapValue (gap : Nat) : ℚ := 2 ^ gap / unitsPerOne

theorem gapValue_pos (gap : Nat) : 0 < gapValue gap :=
  div_pos (by positivity) unitsPerOne_cast_pos

theorem gapValue_succ (gap : Nat) : gapValue (gap + 1) = 2 * gapValue gap := by
  rw [gapValue, gapValue, pow_succ]
  ring

theorem magnitude_split {gap m : Nat} (hle : m ≤ 2 * octave) (hnormal : gap = 0 ∨ octave ≤ m) :
    magnitude (gap * octave + m) = m * gapValue gap := by
  rw [magnitude, unitsOfRank_split hle hnormal, gapValue]
  push_cast
  ring

/-- The gap below a magnitude is as large as the one above it, or half as large at a power of two.
Either way the magnitude is less than ten to the sixteenth of such gaps. -/
theorem exists_gap_above {rank : Nat} (hrank : rank ≠ 0) :
    ∃ gap : ℚ, magnitude (rank + 1) = magnitude rank + gap ∧ magnitude rank < 10 ^ 16 * gap ∧
      ∀ p, p + 1 = rank → magnitude p + gap = magnitude rank ∨
        magnitude p + gap / 2 = magnitude rank ∧ magnitude rank < 10 ^ 16 * (gap / 2) := by
  obtain ⟨gap, m, rfl, hlt, hnormal⟩ := exists_split rank
  have hpos := gapValue_pos gap
  have hoctave : octave = 0x10000000000000 := rfl
  have hself := magnitude_split hlt.le hnormal
  refine ⟨gapValue gap, ?_, ?_, fun p hp => ?_⟩
  · rw [Nat.add_assoc, magnitude_split hlt (hnormal.imp_right fun h => by omega), hself]
    push_cast
    ring
  · have hm : (m : ℚ) < 10 ^ 16 := by
      have : m < 10 ^ 16 := by omega
      exact_mod_cast this
    rw [hself]
    exact mul_lt_mul_of_pos_right hm hpos
  · by_cases hinner : gap = 0 ∨ octave < m
    · obtain ⟨k, rfl⟩ : ∃ k, m = k + 1 := by
        refine Nat.exists_eq_succ_of_ne_zero ?_
        rintro rfl
        rcases hinner with rfl | h <;> omega
      have hp : p = gap * octave + k := by omega
      left
      rw [hself, hp, magnitude_split (by omega) (hinner.imp_right fun h => by omega)]
      push_cast
      ring
    · -- below a power of two the magnitudes stand twice as close
      rw [not_or] at hinner
      obtain ⟨g, rfl⟩ := Nat.exists_eq_succ_of_ne_zero hinner.1
      have hm : m = octave := by
        rcases hnormal with h | h <;> omega
      subst hm
      have hp : p = g * octave + (2 * octave - 1) := by
        have := Nat.succ_mul g octave
        omega
      have hprevious : magnitude p = (2 * octave - 1 : Nat) * gapValue g := by
        rw [hp, magnitude_split (by omega) (.inr (by omega))]
      have hfirst : (octave : ℚ) = 0x10000000000000 := by
        rw [hoctave, Nat.cast_ofNat]
      have hlast : ((2 * octave - 1 : Nat) : ℚ) = 2 * octave - 1 := by
        rw [Nat.cast_sub (by omega)]
        push_cast
        rfl
      have hhalf := gapValue_pos g
      right
      rw [hself, hprevious, Nat.succ_eq_add_one, gapValue_succ, hlast, hfirst]
      constructor <;> linarith

/-- One of the two points of a grid around a magnitude is rounded to it, if the magnitude is at least
ten to the sixteenth of their distance. -/
theorem roundsTo_neighbour {rank c : Nat} {step : ℚ} (hrank : rank ≠ 0)
    (hstep : 10 ^ 16 * step ≤ magnitude rank) (hlower : c * step ≤ magnitude rank)
    (hupper : magnitude rank < (c + 1 : Nat) * step) :
    RoundsTo (c * step) rank ∨ RoundsTo ((c + 1 : Nat) * step) rank := by
  obtain ⟨gap, hnext, hgap, hprevious⟩ := exists_gap_above hrank
  have hclose : ((c + 1 : Nat) : ℚ) * step = c * step + step := by
    push_cast
    ring
  by_cases habove : 2 * ((c + 1 : Nat) * step) < magnitude rank + magnitude (rank + 1)
  · refine .inr (.of_lt habove fun p hp => ?_)
    have hlt : magnitude p < magnitude rank := magnitude_strictMono (by omega)
    linarith
  · refine .inl (.of_lt ?_ fun p hp => ?_)
    · have hlt : magnitude rank < magnitude (rank + 1) := magnitude_strictMono (by omega)
      linarith
    · rcases hprevious p hp with h | ⟨h, hhalf⟩
      · linarith
      · -- at a power of two the points are closer than half of the gap above
        linarith

/-! ### The search -/

/-- The search ends on a grid no finer than one on which something is found. -/
theorem exists_firstOnGrid? {rank tries k : Nat} {e : Int} (hk : k < tries)
    (h : (onGrid? rank (e - k)).isSome) :
    ∃ j ≤ k, ∃ d, onGrid? rank (e - j) = some d ∧ firstOnGrid? rank tries e = some d := by
  induction tries generalizing k e with
  | zero => exact absurd hk (Nat.not_lt_zero k)
  | succ tries ih =>
    rw [firstOnGrid?]
    cases hgrid : onGrid? rank e with
    | some d => exact ⟨0, Nat.zero_le k, d, by simpa using hgrid, rfl⟩
    | none =>
      obtain ⟨k, rfl⟩ : ∃ i, k = i + 1 := by
        refine Nat.exists_eq_succ_of_ne_zero ?_
        rintro rfl
        rw [Nat.cast_zero, Int.sub_zero, hgrid] at h
        cases h
      have hnext : ∀ i : Nat, e - 1 - i = e - (i + 1 : Nat) := fun i => by omega
      obtain ⟨j, hj, d, hfound, hfirst⟩ := ih (Nat.lt_of_succ_lt_succ hk) (by rwa [hnext])
      exact ⟨j + 1, by omega, d, by rwa [← hnext], hfirst⟩

/-- The shortest decimal of a magnitude has no more digits than the points of a grid on which
something is found. -/
theorem significant_shortest_le_of_grid {rank : Fin rankCount} (hrank : rank.val ≠ 0) {k : Nat}
    (hk : k < 17) (h : (onGrid? rank.val (decimalWidth (unitsOfRank rank.val) - 1 - k)).isSome) :
    (shortest rank.val).significant ≤ k + 1 := by
  obtain ⟨j, hj, d, hgrid, hfirst⟩ := exists_firstOnGrid? hk h
  have hshortest : shortest rank.val = d := by simp [shortest, hfirst]
  have hfloor :
      gridFloor rank.val (decimalWidth (unitsOfRank rank.val) - 1 - j) < 10 ^ (j + 1) := by
    have hlower := (gridFloor_spec rank.val (decimalWidth (unitsOfRank rank.val) - 1 - j)).1
    have hupper := (decimalWidth_spec hrank).2
    have hstep := zpow_pos (show (0 : ℚ) < 10 by norm_num)
      (decimalWidth (unitsOfRank rank.val) - 1 - j)
    have hwidth : (10 : ℚ) ^ decimalWidth (unitsOfRank rank.val) =
        (10 ^ (j + 1) : Nat) * 10 ^ (decimalWidth (unitsOfRank rank.val) - 1 - j) := by
      rw [cast_pow_mul_zpow]
      congr 1
      omega
    rw [hwidth] at hupper
    exact Nat.cast_lt.mp (lt_of_mul_lt_mul_right (hlower.trans_lt hupper) hstep.le)
  have hcoefficient : d.coefficient ≤ 10 ^ (j + 1) := by
    rcases eq_of_onGrid? hgrid with rfl | rfl
    · exact hfloor.le
    · exact hfloor
  rw [hshortest]
  exact (Decimal.significant_le (Nat.succ_pos j) hcoefficient).trans (Nat.succ_le_succ hj)

/-- Some decimal of seventeen digits stands for a magnitude. -/
theorem isSome_onGrid?_seventeen {rank : Fin rankCount} (hrank : rank.val ≠ 0) :
    (onGrid? rank.val (decimalWidth (unitsOfRank rank.val) - 1 - (16 : Nat))).isSome := by
  obtain ⟨hlower, hupper⟩ :=
    gridFloor_spec rank.val (decimalWidth (unitsOfRank rank.val) - 1 - (16 : Nat))
  have hstep : (10 : ℚ) ^ 16 * 10 ^ (decimalWidth (unitsOfRank rank.val) - 1 - (16 : Nat)) ≤
      magnitude rank.val := by
    rw [← zpow_natCast, ← zpow_add₀ (by norm_num), add_sub_cancel]
    exact (decimalWidth_spec hrank).1
  rcases roundsTo_neighbour hrank hstep hlower hupper with h | h
  · exact isSome_onGrid? h
  · exact isSome_onGrid? h

/-- If a decimal with so many significant digits is rounded to a magnitude, so is a point of the
grid on which numbers as wide as the magnitude have as many digits. -/
theorem isSome_onGrid?_of_digits {rank : Fin rankCount} (hrank : rank.val ≠ 0) {m k : Nat} {e : Int}
    (hm : m < 10 ^ (k + 1)) (h : RoundsTo (m * (10 : ℚ) ^ e) rank.val) :
    (onGrid? rank.val (decimalWidth (unitsOfRank rank.val) - 1 - k)).isSome := by
  have hten : (10 : ℚ) ≠ 0 := by norm_num
  rcases le_or_gt (decimalWidth (unitsOfRank rank.val) - 1 - k) e with hon | hbelow
  · obtain ⟨n, hn⟩ := Int.le.dest hon
    refine isSome_onGrid? (c := m * 10 ^ n) ?_
    have hvalue : ((m * 10 ^ n : Nat) : ℚ) * 10 ^ (decimalWidth (unitsOfRank rank.val) - 1 - k) =
        m * 10 ^ e := by
      rw [← hn, zpow_add₀ hten, zpow_natCast]
      push_cast
      ring
    rwa [hvalue]
  · -- the decimal is below the magnitude's power of ten, which is on the grid
    refine isSome_onGrid? (c := 10 ^ k) ?_
    have hvalue : ((10 ^ k : Nat) : ℚ) * 10 ^ (decimalWidth (unitsOfRank rank.val) - 1 - k) =
        10 ^ (decimalWidth (unitsOfRank rank.val) - 1) := by
      rw [cast_pow_mul_zpow, add_sub_cancel]
    rw [hvalue]
    refine h.between (RoundsTo.self rank.val) ?_ (decimalWidth_spec hrank).1
    calc (m : ℚ) * 10 ^ e ≤ (10 ^ (k + 1) : Nat) * 10 ^ e :=
          mul_le_mul_of_nonneg_right (Nat.cast_le.mpr hm.le) (zpow_pos (by norm_num) e).le
      _ = 10 ^ ((k + 1 : Nat) + e) := cast_pow_mul_zpow (k + 1) e
      _ ≤ 10 ^ (decimalWidth (unitsOfRank rank.val) - 1) :=
          zpow_le_zpow_right₀ (by norm_num) (by omega)

/-- A decimal that stands for a magnitude has at least as many significant digits as the shortest
one. -/
theorem significant_shortest_le {rank : Fin rankCount} (hrank : rank.val ≠ 0) {d : Decimal}
    (h : RoundsTo d.toRat rank.val) : (shortest rank.val).significant ≤ d.significant := by
  have hcoefficient : d.coefficient ≠ 0 := by
    intro hzero
    have hvalue : d.toRat = magnitude 0 := by
      rw [Decimal.toRat, hzero, Nat.cast_zero, zero_mul, magnitude_zero]
    rw [hvalue] at h
    exact hrank (h.unique (RoundsTo.self 0))
  obtain ⟨hpos, m, e, hvalue, hm⟩ := Decimal.exists_significant hcoefficient
  obtain ⟨k, hk⟩ := Nat.exists_eq_succ_of_ne_zero hpos.ne'
  rw [hk] at hm ⊢
  rcases Nat.lt_or_ge k 17 with hlt | hge
  · exact significant_shortest_le_of_grid hrank hlt (isSome_onGrid?_of_digits hrank hm (hvalue ▸ h))
  · have hseventeen := significant_shortest_le_of_grid hrank (by omega)
      (isSome_onGrid?_seventeen hrank)
    omega

end Double

end PromQL

import Mathlib
import PromQL.Proofs.Double.Rounding
import PromQL.Proofs.Token.Spelling

/-!
# Numerals read back

The numeral of a finite magnitude is a spelled number, in which the digits of the shortest decimal
stand without the zeros at its end. It is read as a decimal of the same value, and so as the
magnitude.
-/

namespace PromQL

/-! ### Digits -/

/-- The digits of a positive number do not start with a zero. -/
theorem head?_decimal {n : Nat} (hn : n ≠ 0) : (decimal n).head? ≠ some '0' := by
  induction n using Nat.strongRecOn with
  | ind n ih =>
    by_cases hlt : n < 10
    · rw [decimal, Nat.toDigits_of_lt_base hlt]
      have hdigit : ∀ m < 10, m ≠ 0 → [m.digitChar].head? ≠ some '0' := by decide
      exact hdigit n hlt hn
    · rw [decimal, Nat.toDigits_of_base_le (by omega) (by omega)]
      have hne := decimal_ne_nil (n / 10)
      obtain ⟨c, cs, hcons⟩ := List.exists_cons_of_ne_nil hne
      have hhead := ih (n / 10) (by omega) (by omega)
      unfold decimal at hcons hhead
      rw [hcons] at hhead ⊢
      exact hhead

theorem decimal_mul_ten {n : Nat} (hn : n ≠ 0) : decimal (n * 10) = decimal n ++ ['0'] := by
  rw [decimal, Nat.toDigits_of_base_le (by omega) (by omega), Nat.mul_div_cancel n (by omega),
    Nat.mul_mod_left]
  rfl

theorem decimal_mul_pow {n : Nat} (hn : n ≠ 0) (k : Nat) :
    decimal (n * 10 ^ k) = decimal n ++ List.replicate k '0' := by
  induction k with
  | zero => simp
  | succ k ih =>
    have hne : n * 10 ^ k ≠ 0 := Nat.mul_ne_zero hn (Nat.ne_of_gt (Nat.pow_pos (by omega)))
    rw [Nat.pow_succ, ← Nat.mul_assoc, decimal_mul_ten hne, ih, List.append_assoc,
      List.replicate_succ']

/-- A positive number is one that does not end in a zero times a power of ten. -/
theorem exists_mul_pow {n : Nat} (hn : n ≠ 0) : ∃ m k, n = m * 10 ^ k ∧ m % 10 ≠ 0 := by
  induction n using Nat.strongRecOn with
  | ind n ih =>
    by_cases hmod : n % 10 = 0
    · obtain ⟨m, k, heq, hm⟩ := ih (n / 10) (by omega) (by omega)
      refine ⟨m, k + 1, ?_, hm⟩
      rw [Nat.pow_succ, ← Nat.mul_assoc, ← heq]
      omega
    · exact ⟨n, 0, by simp, hmod⟩

theorem getLast?_decimal {m : Nat} (hm : m % 10 ≠ 0) : (decimal m).getLast? ≠ some '0' := by
  have hdigit : ∀ d < 10, d ≠ 0 → d.digitChar ≠ '0' := by decide
  by_cases hlt : m < 10
  · rw [decimal, Nat.toDigits_of_lt_base hlt]
    simpa using hdigit m hlt (by omega)
  · rw [decimal, Nat.toDigits_of_base_le (by omega) (by omega)]
    simpa using hdigit (m % 10) (by omega) hm

namespace Double

/-- The digits of a decimal without zeros at the end. -/
theorem ofDecimal_mul_pow {m : Nat} (hm : m % 10 ≠ 0) (k : Nat) (e : Int) :
    Digits.ofDecimal ⟨m * 10 ^ k, e⟩ = ⟨decimal m, (decimal m).length + (e + k)⟩ := by
  have hne : m ≠ 0 := by
    rintro rfl
    exact hm rfl
  have hstrip : ((decimal m).reverse.dropWhile (· == '0')).reverse = decimal m := by
    have hlast := getLast?_decimal hm
    rw [← List.head?_reverse] at hlast
    cases hrev : (decimal m).reverse with
    | nil =>
      rw [List.reverse_eq_nil_iff] at hrev
      exact absurd hrev (decimal_ne_nil m)
    | cons c cs =>
      rw [hrev] at hlast
      have hc : ¬ (fun x => x == '0') c = true := by simpa using hlast
      rw [List.dropWhile_cons_of_neg (p := (· == '0')) hc, ← hrev, List.reverse_reverse]
  simp only [Digits.ofDecimal, decimal_mul_pow hne, List.reverse_append, List.reverse_replicate,
    List.length_append, List.length_replicate]
  rw [List.dropWhile_append_of_pos (by simp), hstrip]
  simp only [Digits.mk.injEq, true_and]
  omega

/-! ### Parts of numerals -/

/-- Digits with the point in its place, as parts. -/
def Digits.positionalParts (d : Digits) : NumberParts :=
  if d.point ≤ 0 then ⟨['0'], some (List.replicate (-d.point).toNat '0' ++ d.digits), none⟩
  else if d.digits.length ≤ d.point.toNat then
    ⟨d.digits ++ List.replicate (d.point.toNat - d.digits.length) '0', none, none⟩
  else ⟨d.digits.take d.point.toNat, some (d.digits.drop d.point.toNat), none⟩

/-- One digit before the point, the others after it, and the exponent, as parts. -/
def Digits.scientificParts (d : Digits) : NumberParts :=
  ⟨d.digits.take 1, if d.digits.length ≤ 1 then none else some (d.digits.drop 1),
    some (decide (d.point - 1 < 0), decimal (d.point - 1).natAbs)⟩

theorem Digits.text_positionalParts (d : Digits) : d.positionalParts.text = d.positional := by
  unfold positionalParts positional
  split_ifs <;>
    simp [NumberParts.text, NumberParts.fractionText, NumberParts.exponentText, *]

theorem Digits.text_scientificParts (d : Digits) : d.scientificParts.text = d.scientific := by
  unfold scientificParts scientific
  split_ifs <;>
    simp [NumberParts.text, NumberParts.fractionText, NumberParts.exponentText,
      NumberParts.signedText, signText, *]

theorem isDigit_of_mem_replicate {k : Nat} {c : Char} (h : c ∈ List.replicate k '0') :
    c.isDigit := by
  rw [List.eq_of_mem_replicate h]
  decide

theorem Digits.isDigits_positionalParts {d : Digits} (hne : d.digits ≠ [])
    (h : ∀ c ∈ d.digits, c.isDigit) : d.positionalParts.IsDigits := by
  unfold positionalParts
  split_ifs with hpoint hlength
  · refine ⟨List.cons_ne_nil _ _, by simp, ?_, by simp⟩
    rintro ds ⟨⟩ c hc
    exact (List.mem_append.mp hc).elim isDigit_of_mem_replicate (h c)
  · refine ⟨by simp [hne], fun c hc => ?_, by simp, by simp⟩
    exact (List.mem_append.mp hc).elim (h c) isDigit_of_mem_replicate
  · refine ⟨?_, fun c hc => h c (List.mem_of_mem_take hc), ?_, by simp⟩
    · simp only [ne_eq, List.take_eq_nil_iff, hne, or_false]
      omega
    · rintro ds ⟨⟩ c hc
      exact h c (List.mem_of_mem_drop hc)

theorem Digits.isDigits_scientificParts {d : Digits} (hne : d.digits ≠ [])
    (h : ∀ c ∈ d.digits, c.isDigit) : d.scientificParts.IsDigits := by
  unfold scientificParts
  refine ⟨by simp [hne], fun c hc => h c (List.mem_of_mem_take hc), fun ds hds c hc => ?_, ?_⟩
  · simp only at hds
    split_ifs at hds
    · cases hds
    · cases hds
      exact h c (List.mem_of_mem_drop hc)
  · rintro e ⟨⟩
    exact ⟨decimal_ne_nil _, fun _ => isDigit_of_mem_decimal⟩

end Double

/-! ### Reading parts -/

namespace NumberParts

/-- The digits of the fraction, if there are any. -/
def fractionDigits (n : NumberParts) : Text := n.fraction.getD []

/-- The exponent, which is zero if there is none. -/
def exponentValue (n : NumberParts) : Int :=
  (n.exponent.map fun e =>
    if e.1 then -(Nat.ofDigitChars 10 e.2 0 : Int) else Nat.ofDigitChars 10 e.2 0).getD 0

/-- The decimal that a spelled number is read as. -/
def value (n : NumberParts) : Decimal :=
  ⟨Nat.ofDigitChars 10 (n.whole ++ n.fractionDigits) 0,
    n.exponentValue - n.fractionDigits.length⟩

theorem decimalOf?_parts {n : NumberParts} (hn : n.IsDigits) :
    Double.decimalOf? n.whole n.fractionDigits n.exponentValue = some n.value := by
  have hdigits : ∀ c ∈ n.whole ++ n.fractionDigits, c.isDigit := by
    intro c hc
    rcases List.mem_append.mp hc with hc | hc
    · exact hn.whole c hc
    · cases h : n.fraction with
      | none => simp [fractionDigits, h] at hc
      | some ds =>
        rw [fractionDigits, h] at hc
        exact hn.fraction ds h c hc
  have hne : n.whole ++ n.fractionDigits ≠ [] := by simp [hn.whole_ne_nil]
  rw [Double.decimalOf?, natural?_of_digits hne hdigits]
  rfl

theorem exponentOf?_signedText {e : Bool × Text} (hne : e.2 ≠ []) (h : ∀ c ∈ e.2, c.isDigit) :
    Double.exponentOf? (signedText e) =
      some (if e.1 then -(Nat.ofDigitChars 10 e.2 0 : Int) else Nat.ofDigitChars 10 e.2 0) := by
  unfold signedText
  split_ifs
  · rw [List.singleton_append, Double.exponentOf?, natural?_of_digits hne h]
    rfl
  · have hsign : ∀ c ∈ e.2.head?, c ≠ '-' ∧ c ≠ '+' := by
      intro c hc
      have hdigit := h c (List.mem_of_mem_head? hc)
      constructor <;> rintro rfl <;> exact absurd hdigit (by decide)
    rw [List.nil_append]
    unfold Double.exponentOf?
    split
    · next heq => exact absurd rfl (hsign '-' (by rw [heq]; rfl)).1
    · next heq => exact absurd rfl (hsign '+' (by rw [heq]; rfl)).2
    · rw [natural?_of_digits hne h]
      rfl

theorem ne_of_isDigit {c d : Char} (h : c.isDigit) (hd : ¬ d.isDigit) : c ≠ d := by
  rintro rfl
  exact hd h

theorem fractionText_eq (n : NumberParts) :
    (n.fractionText = [] ∨ n.fractionText.head? = some '.') ∧
      n.fractionText.drop 1 = n.fractionDigits := by
  unfold fractionText fractionDigits
  cases n.fraction <;> simp

/-! ### The characters of a spelled number -/

namespace IsDigits

variable {n : NumberParts} {c : Char}

theorem of_mem_fractionText (hn : n.IsDigits) (hc : c ∈ n.fractionText) : c.isDigit ∨ c = '.' := by
  cases h : n.fraction with
  | none => simp [fractionText, h] at hc
  | some ds =>
    simp only [fractionText, h, Option.map_some, Option.getD_some, List.mem_cons] at hc
    exact hc.symm.imp_left (hn.fraction ds h c)

theorem of_mem_exponentText (hn : n.IsDigits) (hc : c ∈ n.exponentText) :
    c.isDigit ∨ c = 'e' ∨ c = '-' := by
  cases h : n.exponent with
  | none => simp [exponentText, h] at hc
  | some e =>
    simp only [exponentText, h, Option.map_some, Option.getD_some, List.mem_cons, signedText,
      List.mem_append] at hc
    rcases hc with rfl | hc | hc
    · exact .inr (.inl rfl)
    · split_ifs at hc
      · exact .inr (.inr (List.mem_singleton.mp hc))
      · cases hc
    · exact .inl ((hn.exponent e h).2 c hc)

theorem of_mem_text (hn : n.IsDigits) (hc : c ∈ n.text) :
    c.isDigit ∨ c = '.' ∨ c = 'e' ∨ c = '-' := by
  rcases List.mem_append.mp hc with hc | hc
  · rcases List.mem_append.mp hc with hc | hc
    · exact .inl (hn.whole c hc)
    · exact (hn.of_mem_fractionText hc).imp_right .inl
  · exact (hn.of_mem_exponentText hc).imp_right .inr

/-- The mantissa ends where the exponent starts. -/
theorem spanOf_mantissa (hn : n.IsDigits) :
    Lexeme.spanOf (· != 'e') n.text = (n.whole ++ n.fractionText, n.exponentText) := by
  have hmantissa : ∀ c ∈ n.whole ++ n.fractionText, (c != 'e') = true := by
    intro c hc
    have hne : c ≠ 'e' := by
      rcases List.mem_append.mp hc with hc | hc
      · exact ne_of_isDigit (hn.whole c hc) (by decide)
      · rcases hn.of_mem_fractionText hc with hc | rfl
        · exact ne_of_isDigit hc (by decide)
        · decide
    simpa using hne
  refine Lexeme.spanOf_of_forall hmantissa fun c hc => ?_
  unfold exponentText at hc
  cases h : n.exponent with
  | none => simp [h] at hc
  | some e =>
    rw [h] at hc
    cases hc
    decide

/-- The whole digits end at the point. -/
theorem spanOf_whole (hn : n.IsDigits) :
    Lexeme.spanOf (· != '.') (n.whole ++ n.fractionText) = (n.whole, n.fractionText) := by
  have hwhole : ∀ c ∈ n.whole, (c != '.') = true := fun c hc => by
    simpa using ne_of_isDigit (hn.whole c hc) (by decide : ¬ '.'.isDigit)
  refine Lexeme.spanOf_of_forall hwhole fun c hc => ?_
  rcases n.fractionText_eq.1 with h | h
  · simp [h] at hc
  · rw [h] at hc
    cases hc
    decide

end IsDigits

theorem readDecimal?_text {n : NumberParts} (hn : n.IsDigits) :
    Double.readDecimal? n.text = some n.value := by
  obtain ⟨htake, hdrop⟩ := Prod.mk.inj hn.spanOf_mantissa
  obtain ⟨htakePoint, hdropPoint⟩ := Prod.mk.inj hn.spanOf_whole
  simp only [Double.readDecimal?, htake, hdrop, htakePoint, hdropPoint, n.fractionText_eq.2]
  have hvalue := decimalOf?_parts hn
  unfold exponentValue at hvalue
  unfold exponentText
  cases h : n.exponent with
  | none =>
    rw [h] at hvalue
    exact hvalue
  | some e =>
    rw [h] at hvalue
    obtain ⟨hne, hdigits⟩ := hn.exponent e h
    simp only [Option.map_some, Option.getD_some, exponentOf?_signedText hne hdigits]
    exact hvalue

theorem toLower_of_isDigit {c : Char} (h : c.isDigit) : c.toLower = c := by
  rw [isDigit_iff] at h
  refine dif_neg fun hupper => ?_
  have hA : 'A'.toNat ≤ c.toNat := hupper.1
  have : 'A'.toNat = '9'.toNat + 8 := rfl
  omega

theorem map_toLower_text {n : NumberParts} (hn : n.IsDigits) :
    n.text.map Char.toLower = n.text := by
  refine (List.map_congr_left fun c hc => ?_).trans (List.map_id _)
  rcases hn.of_mem_text hc with hc | rfl | rfl | rfl
  · exact toLower_of_isDigit hc
  all_goals rfl

theorem exists_cons_text {n : NumberParts} (hn : n.IsDigits) :
    ∃ c cs, n.text = c :: cs ∧ c.isDigit ∧ n.whole.head? = some c := by
  obtain ⟨c, cs, hwhole⟩ := List.exists_cons_of_ne_nil hn.whole_ne_nil
  exact ⟨c, cs ++ (n.fractionText ++ n.exponentText), by simp [text, hwhole],
    hn.whole c (by simp [hwhole]), by simp [hwhole]⟩

/-- An octal integer starts with a zero and has no point. -/
theorem isOctal_text {n : NumberParts} (hn : n.IsDigits)
    (hoctal : n.whole.head? ≠ some '0' ∨ n.fraction.isSome) : Double.isOctal n.text = false := by
  rcases hoctal with h | h
  · obtain ⟨c, cs, hcons, -, hwhole⟩ := exists_cons_text hn
    have hc : c ≠ '0' := by
      rintro rfl
      exact h hwhole
    simp [Double.isOctal, hcons, hc]
  · obtain ⟨ds, hds⟩ := Option.isSome_iff_exists.mp h
    have hpoint : '.' ∈ n.text := by simp [text, fractionText, hds]
    simp only [Double.isOctal, Bool.and_eq_false_iff]
    exact .inr (List.all_eq_false.mpr ⟨'.', hpoint, by decide⟩)

/-- A number that is no octal integer is read as its decimal. -/
theorem ofNumeral?_text {n : NumberParts} (hn : n.IsDigits)
    (hoctal : n.whole.head? ≠ some '0' ∨ n.fraction.isSome) :
    Double.ofNumeral? n.text = some (Double.ofDecimal false n.value) := by
  have hx : n.text.contains 'x' = false := by
    rw [Bool.eq_false_iff, ne_eq, List.contains_iff_mem]
    intro hmem
    exact absurd (hn.of_mem_text hmem) (by decide)
  obtain ⟨c, cs, hcons, hdigit, -⟩ := exists_cons_text hn
  have hinf : n.text ≠ "inf".toList := by
    rw [hcons]
    intro heq
    exact ne_of_isDigit hdigit (by decide) (List.cons.inj heq).1
  have hnan : n.text ≠ "nan".toList := by
    rw [hcons]
    intro heq
    exact ne_of_isDigit hdigit (by decide) (List.cons.inj heq).1
  simp only [Double.ofNumeral?, map_toLower_text hn, hx, isOctal_text hn hoctal, Bool.false_eq_true,
    if_false, if_neg hinf, if_neg hnan, readDecimal?_text hn, Option.map_some]

end NumberParts

/-! ### The value of a numeral -/

namespace Double

/-- Two decimals of the same value. -/
def SameValue (a b : Decimal) : Prop :=
  (quotient a).1 * (quotient b).2 = (quotient b).1 * (quotient a).2

theorem sameValue_mul_pow (m k : Nat) (e : Int) : SameValue ⟨m * 10 ^ k, e⟩ ⟨m, e + k⟩ := by
  have hexp : k + e.toNat + (-(e + k)).toNat = (e + k).toNat + (-e).toNat := by omega
  have hpow : 10 ^ k * 10 ^ e.toNat * 10 ^ (-(e + k)).toNat =
      10 ^ (e + k).toNat * 10 ^ (-e).toNat := by
    rw [← Nat.pow_add, ← Nat.pow_add, ← Nat.pow_add, hexp]
  simp only [SameValue, quotient]
  calc m * 10 ^ k * 10 ^ e.toNat * unitsPerOne * 10 ^ (-(e + k)).toNat
      = m * (10 ^ k * 10 ^ e.toNat * 10 ^ (-(e + k)).toNat) * unitsPerOne := by
        simp only [Nat.mul_assoc, Nat.mul_comm unitsPerOne]
    _ = m * 10 ^ (e + k).toNat * unitsPerOne * 10 ^ (-e).toNat := by
        rw [hpow]
        simp only [Nat.mul_assoc, Nat.mul_comm unitsPerOne]

theorem nearestRank_of_sameValue {a b : Decimal} (h : SameValue a b) :
    nearestRank (quotient a).1 (quotient a).2 = nearestRank (quotient b).1 (quotient b).2 :=
  nearestRank_congr (quotient_pos a) (quotient_pos b) h

/-- The value of digits with the point in its place. -/
theorem value_positionalParts {m : Nat} {e : Int} :
    (Digits.positionalParts ⟨decimal m, (decimal m).length + e⟩).value = ⟨m, e⟩ ∨
      0 ≤ e ∧ (Digits.positionalParts ⟨decimal m, (decimal m).length + e⟩).value =
        ⟨m * 10 ^ e.toNat, 0⟩ := by
  have hdigits : Nat.ofDigitChars 10 (decimal m) 0 = m := Nat.ofDigitChars_ten_toDigits
  unfold Digits.positionalParts
  simp only
  split_ifs with hpoint hlength
  · left
    simp only [NumberParts.value, NumberParts.fractionDigits, NumberParts.exponentValue,
      Option.getD_some, Option.map_none, Option.getD_none, List.singleton_append,
      Nat.ofDigitChars_append, Nat.ofDigitChars_replicate_zero, Nat.ofDigitChars_cons,
      List.length_append, List.length_replicate, Decimal.mk.injEq]
    refine ⟨?_, by omega⟩
    simpa using hdigits
  · right
    refine ⟨by omega, ?_⟩
    simp only [NumberParts.value, NumberParts.fractionDigits, NumberParts.exponentValue,
      Option.getD_none, Option.map_none, List.append_nil, Nat.ofDigitChars_append, hdigits,
      Nat.ofDigitChars_replicate_zero, List.length_nil, Decimal.mk.injEq]
    refine ⟨?_, by omega⟩
    have hzeros : ((decimal m).length + e).toNat - (decimal m).length = e.toNat := by omega
    rw [hzeros, Nat.mul_comm]
  · left
    simp only [NumberParts.value, NumberParts.fractionDigits, NumberParts.exponentValue,
      Option.getD_some, Option.map_none, Option.getD_none, List.take_append_drop, hdigits,
      List.length_drop, Decimal.mk.injEq, true_and]
    omega

theorem value_scientificParts {m : Nat} {e : Int} :
    (Digits.scientificParts ⟨decimal m, (decimal m).length + e⟩).value = ⟨m, e⟩ := by
  have hdigits : Nat.ofDigitChars 10 (decimal m) 0 = m := Nat.ofDigitChars_ten_toDigits
  have hpos := List.length_pos_iff.mpr (decimal_ne_nil m)
  have hexp : ∀ x : Int, (if decide (x < 0) = true then
      -(Nat.ofDigitChars 10 (decimal x.natAbs) 0 : Int)
        else Nat.ofDigitChars 10 (decimal x.natAbs) 0) = x := by
    intro x
    have hvalue : Nat.ofDigitChars 10 (decimal x.natAbs) 0 = x.natAbs :=
      Nat.ofDigitChars_ten_toDigits
    rw [hvalue]
    split_ifs with h <;> simp at h <;> omega
  have hwhole : (decimal m).take 1 ++
      (if (decimal m).length ≤ 1 then none else some ((decimal m).drop 1)).getD [] = decimal m := by
    split_ifs with h
    · rw [Option.getD_none, List.append_nil, List.take_of_length_le h]
    · exact List.take_append_drop 1 (decimal m)
  have hlength : ((if (decimal m).length ≤ 1 then none
      else some ((decimal m).drop 1)).getD []).length = (decimal m).length - 1 := by
    split_ifs with h
    · simp only [Option.getD_none, List.length_nil]
      omega
    · simp
  simp only [Digits.scientificParts, NumberParts.value, NumberParts.fractionDigits,
    NumberParts.exponentValue, hwhole, hdigits, hlength, Option.map_some, Option.getD_some, hexp,
    Decimal.mk.injEq, true_and]
  generalize (decimal m).length = n at hpos ⊢
  show (n : Int) + e - 1 - ((n - 1 : Nat) : Int) = e
  omega

/-! ### Numerals -/

/-- The parts of the numeral of a finite magnitude. -/
def magnitudeParts (rank : Nat) : NumberParts :=
  let units := unitsOfRank rank
  if units = 0 then ⟨['0'], none, none⟩
  else
    let digits := Digits.ofDecimal (shortest rank)
    if needsExponent units then digits.scientificParts else digits.positionalParts

theorem numeral_finite (negative : Bool) (rank : Fin rankCount) :
    (finite negative rank).numeral = signText negative ++ (magnitudeParts rank.val).text := by
  simp only [numeral, magnitudeParts]
  split_ifs with hzero hexp
  · rfl
  · rw [Digits.text_scientificParts]
  · rw [Digits.text_positionalParts]

theorem unitsOfRank_eq_zero_iff (rank : Nat) : unitsOfRank rank = 0 ↔ rank = 0 := by
  unfold unitsOfRank
  split_ifs with h
  · rfl
  · have hpow : Nat.pow 2 (rank / octave - 1) ≠ 0 := Nat.ne_of_gt (Nat.two_pow_pos _)
    have hoctave := octave_pos
    rw [Nat.mul_eq_zero]
    constructor
    · rintro (h | h)
      · omega
      · exact absurd h hpow
    · omega

theorem coefficient_ne_zero {d : Decimal} (h : nearestRank (quotient d).1 (quotient d).2 ≠ 0) :
    d.coefficient ≠ 0 := by
  intro hzero
  refine h (nearestRank_eq_zero ?_)
  simp only [quotient, hzero, Nat.zero_mul, Nat.mul_zero]
  exact Nat.pow_pos (by omega)

/-- The digits of the shortest decimal of a positive magnitude, as they are written. -/
theorem exists_digits (rank : Fin rankCount) (hrank : rank.val ≠ 0) :
    ∃ (m : Nat) (e : Int), m % 10 ≠ 0 ∧
      Digits.ofDecimal (shortest rank.val) = ⟨decimal m, (decimal m).length + e⟩ ∧
      nearestRank (quotient ⟨m, e⟩).1 (quotient ⟨m, e⟩).2 = rank.val := by
  have hnearest := nearestRank_shortest rank
  generalize shortest rank.val = d at hnearest ⊢
  obtain ⟨coefficient, e⟩ := d
  have hcoefficient : coefficient ≠ 0 := coefficient_ne_zero (hnearest ▸ hrank)
  obtain ⟨m, k, rfl, hm⟩ := exists_mul_pow hcoefficient
  refine ⟨m, e + k, hm, ofDecimal_mul_pow hm k e, ?_⟩
  rw [← nearestRank_of_sameValue (sameValue_mul_pow m k e)]
  exact hnearest

theorem isDigits_magnitudeParts (rank : Fin rankCount) : (magnitudeParts rank.val).IsDigits := by
  simp only [magnitudeParts]
  split_ifs with hzero hexp
  · exact ⟨List.cons_ne_nil _ _, by simp, by simp, by simp⟩
  all_goals
    obtain ⟨m, e, -, hdigits, -⟩ :=
      exists_digits rank ((unitsOfRank_eq_zero_iff _).not.mp hzero)
    rw [hdigits]
  · exact Digits.isDigits_scientificParts (decimal_ne_nil m) fun _ => isDigit_of_mem_decimal
  · exact Digits.isDigits_positionalParts (decimal_ne_nil m) fun _ => isDigit_of_mem_decimal

/-- The numeral of a positive magnitude has the digits of the shortest decimal, with zeros behind
them if the point is further to the right, and stands for the magnitude. -/
theorem exists_value_magnitudeParts (rank : Fin rankCount) (hrank : rank.val ≠ 0) :
    ∃ (m k : Nat) (e : Int), m % 10 ≠ 0 ∧
      Digits.ofDecimal (shortest rank.val) = ⟨decimal m, (decimal m).length + (e + k)⟩ ∧
      (magnitudeParts rank.val).value = ⟨m * 10 ^ k, e⟩ ∧
      nearestRank (quotient ⟨m * 10 ^ k, e⟩).1 (quotient ⟨m * 10 ^ k, e⟩).2 = rank.val := by
  obtain ⟨m, e, hm, hdigits, hnearest⟩ := exists_digits rank hrank
  have hunits : unitsOfRank rank.val ≠ 0 := (unitsOfRank_eq_zero_iff _).not.mpr hrank
  have hplain : (magnitudeParts rank.val).value = ⟨m, e⟩ ∨
      0 ≤ e ∧ (magnitudeParts rank.val).value = ⟨m * 10 ^ e.toNat, 0⟩ := by
    simp only [magnitudeParts, if_neg hunits, hdigits]
    split_ifs
    · exact .inl value_scientificParts
    · exact value_positionalParts
  rcases hplain with hvalue | ⟨he, hvalue⟩
  · exact ⟨m, 0, e, hm, by simpa using hdigits, by simpa using hvalue, by simpa using hnearest⟩
  · have hexp : (0 : Int) + e.toNat = e := by omega
    refine ⟨m, e.toNat, 0, hm, by rwa [hexp], hvalue, ?_⟩
    rw [nearestRank_of_sameValue (sameValue_mul_pow m e.toNat 0), hexp]
    exact hnearest

/-- The numeral of a magnitude is read as the magnitude. -/
theorem ofNumeral?_magnitude (rank : Fin rankCount) :
    ofNumeral? (magnitudeParts rank.val).text = some (finite false rank) := by
  have hparts := isDigits_magnitudeParts rank
  by_cases hrank : rank.val = 0
  · have hzero : rank = ⟨0, by decide⟩ := Fin.ext hrank
    rw [hzero]
    rfl
  · obtain ⟨m, k, e, hm, hdigits, hvalue, hnearest⟩ := exists_value_magnitudeParts rank hrank
    have hne : m ≠ 0 := by
      rintro rfl
      exact hm rfl
    have hhead := head?_decimal hne
    have hunits : unitsOfRank rank.val ≠ 0 := (unitsOfRank_eq_zero_iff _).not.mpr hrank
    rw [NumberParts.ofNumeral?_text hparts]
    · rw [hvalue]
      exact congrArg some (ofDecimal_eq_finite_iff.mpr hnearest)
    · -- a leading zero stands in front of a point
      simp only [magnitudeParts, if_neg hunits, hdigits]
      split_ifs with hexp
      · left
        rwa [Digits.scientificParts, List.head?_take, if_neg (by decide)]
      · unfold Digits.positionalParts
        simp only
        split_ifs with hpoint hlength
        · exact .inr rfl
        · left
          obtain ⟨c, cs, hcons⟩ := List.exists_cons_of_ne_nil (decimal_ne_nil m)
          rw [hcons] at hhead ⊢
          exact hhead
        · exact .inr rfl

end Double

end PromQL

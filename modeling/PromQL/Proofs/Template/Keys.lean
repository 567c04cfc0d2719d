import Mathlib
import PromQL.Proofs.Template.Masking
import PromQL.Proofs.Token.Spelling

/-!
# The texts that stand for a variable

Masking gives each variable one key: the stem and the place of the variable in decimal digits. The
look-up takes more texts for that key, since it reads the place as a number, and a number may have a
plus sign and zeros in front. So a placeholder with zeros in front of its digits is replaced when
variables are put back, although masking never writes one.
-/

namespace PromQL

/-! ### Numbers behind zeros -/

theorem digitChar_of_isDigit {c : Char} (h : c.isDigit) : (c.toNat - '0'.toNat).digitChar = c := by
  obtain ⟨hzero, hnine⟩ := isDigit_iff.mp h
  have hnine : c.toNat ≤ '0'.toNat + 9 := hnine
  have hchar : (c.toNat - '0'.toNat).digitChar.toNat = '0'.toNat + (c.toNat - '0'.toNat) :=
    Nat.toNat_digitChar_of_lt_ten (by omega)
  rw [Nat.add_sub_cancel' hzero] at hchar
  exact Char.toNat_inj.mp hchar

theorem isDigit_of_digit?_ten {c : Char} {d : Nat} (h : digit? 10 c = some d) : c.isDigit := by
  by_contra hc
  have hrange : ¬ ('0'.toNat ≤ c.toNat ∧ c.toNat ≤ '9'.toNat) := fun h => hc (isDigit_iff.mpr h)
  simp only [digit?, if_neg hrange] at h
  split_ifs at h <;> omega

/-- One more digit behind a decimal, which is left out if it is a zero. -/
theorem decimal_ten_mul_add (m : Nat) {d : Nat} (hd : d < 10) :
    decimal (10 * m + d) = if m = 0 then [d.digitChar] else decimal m ++ [d.digitChar] := by
  split_ifs with hm
  · rw [hm, Nat.mul_zero, Nat.zero_add]
    exact Nat.toDigits_of_lt_base hd
  · rw [decimal, Nat.toDigits_of_base_le (by omega) (by omega), Nat.mul_add_div (by omega),
      Nat.div_eq_of_lt hd, Nat.mul_add_mod, Nat.mod_eq_of_lt hd]
    rfl

theorem isDigit_of_mem_zeros_decimal (zeros n : Nat) :
    ∀ c ∈ List.replicate zeros '0' ++ decimal n, c.isDigit := by
  intro c hc
  rcases List.mem_append.mp hc with hc | hc
  · rw [List.eq_of_mem_replicate hc]
    rfl
  · exact isDigit_of_mem_decimal hc

/-- Digits are the decimal of their number behind zeros. -/
theorem exists_zeros_decimal {ds : Text} (hne : ds ≠ []) (h : ∀ c ∈ ds, c.isDigit) :
    ∃ zeros, ds = List.replicate zeros '0' ++ decimal (Nat.ofDigitChars 10 ds 0) := by
  -- the digits are read from the left, so the last one is taken off
  induction ds using List.reverseRecOn with
  | nil => exact absurd rfl hne
  | append_singleton ds c ih =>
    obtain ⟨hds, hc⟩ := List.forall_mem_append.mp h
    have hc : c.isDigit := hc c List.mem_cons_self
    have hlt : c.toNat - '0'.toNat < 10 := by
      have hnine : c.toNat ≤ '0'.toNat + 9 := (isDigit_iff.mp hc).2
      omega
    rw [Nat.ofDigitChars_append, Nat.ofDigitChars_cons, Nat.ofDigitChars_nil,
      decimal_ten_mul_add _ hlt, digitChar_of_isDigit hc]
    by_cases hnil : ds = []
    · exact ⟨0, by simp [hnil]⟩
    · obtain ⟨zeros, hzeros⟩ := ih hnil hds
      split_ifs with hzero
      · rw [hzero] at hzeros
        refine ⟨zeros + 1, ?_⟩
        rw [hzeros, List.replicate_succ']
        rfl
      · exact ⟨zeros, by rw [← List.append_assoc, ← hzeros]⟩

/-- A number is read from its decimal, with any number of zeros in front, and from nothing else. -/
theorem natural?_ten_eq_some_iff {ds : Text} {n : Nat} :
    natural? 10 ds = some n ↔ ∃ zeros, ds = List.replicate zeros '0' ++ decimal n := by
  constructor
  · intro h
    have hne : ds ≠ [] := by
      rintro rfl
      cases h
    have hdigits : ∀ c ∈ ds, c.isDigit := by
      obtain ⟨c, cs, rfl⟩ := List.exists_cons_of_ne_nil hne
      intro d hd
      obtain ⟨_, hvalue⟩ := exists_of_naturalFrom? h d hd
      exact isDigit_of_digit?_ten hvalue
    rw [natural?_of_digits hne hdigits, Option.some.injEq] at h
    exact h ▸ exists_zeros_decimal hne hdigits
  · rintro ⟨zeros, rfl⟩
    have hne : List.replicate zeros '0' ++ decimal n ≠ [] := by simp [decimal_ne_nil]
    rw [natural?_of_digits hne (isDigit_of_mem_zeros_decimal zeros n), Nat.ofDigitChars_append,
      Nat.ofDigitChars_replicate_zero, Nat.mul_zero]
    exact congrArg some Nat.ofDigitChars_ten_toDigits

namespace Placeholders

/-! ### Look-up -/

/-- A key with a plus sign and zeros in front of its digits. -/
def looseKey (stem : Text) (plus : Bool) (zeros index : Nat) : Text :=
  stem ++ ((if plus then ['+'] else []) ++ (List.replicate zeros '0' ++ decimal index))

theorem index?_eq_some_iff {digits : Text} {i : Nat} :
    index? digits = some i ↔ i < wordCount ∧ ∃ (plus : Bool) (zeros : Nat),
      digits = (if plus then ['+'] else []) ++ (List.replicate zeros '0' ++ decimal i) := by
  have hread : ∀ ds : Text,
      ((natural? 10 ds).bind fun n => if n < wordCount then some n else none) = some i ↔
        i < wordCount ∧ ∃ zeros, ds = List.replicate zeros '0' ++ decimal i := by
    intro ds
    rw [Option.bind_eq_some_iff, ← natural?_ten_eq_some_iff]
    constructor
    · rintro ⟨n, hn, hi⟩
      split_ifs at hi with hlt
      rw [Option.some.injEq] at hi
      exact ⟨hi ▸ hlt, hi ▸ hn⟩
    · rintro ⟨hlt, hn⟩
      exact ⟨i, hn, if_pos hlt⟩
  have hplus : ∀ (cs : Text) (zeros : Nat), '+' :: cs ≠ List.replicate zeros '0' ++ decimal i := by
    intro cs zeros h
    have hdigit : '+'.isDigit := isDigit_of_mem_zeros_decimal zeros i '+' (h ▸ List.mem_cons_self)
    exact absurd hdigit (by decide)
  unfold index?
  split
  · next cs =>
    refine (hread cs).trans (and_congr_right fun _ => ?_)
    constructor
    · rintro ⟨zeros, rfl⟩
      exact ⟨true, zeros, rfl⟩
    · rintro ⟨plus, zeros, h⟩
      cases plus with
      | true => exact ⟨zeros, (List.cons.inj h).2⟩
      | false => exact absurd h (hplus cs zeros)
  · next hcons =>
    refine (hread digits).trans (and_congr_right fun _ => ?_)
    constructor
    · rintro ⟨zeros, rfl⟩
      exact ⟨false, zeros, rfl⟩
    · rintro ⟨plus, zeros, rfl⟩
      cases plus with
      | true => exact absurd rfl (hcons _)
      | false => exact ⟨zeros, rfl⟩

variable {m : Placeholders}

/-- A variable is found under its key with or without a plus sign and zeros in front of the digits,
and under nothing else. -/
theorem get?_eq_some_iff {k v : Text} :
    m.get? k = some v ↔ ∃ plus zeros i, i < wordCount ∧ (key m.stem i, v) ∈ m.pairs ∧
      k = looseKey m.stem plus zeros i := by
  simp only [get?, Option.bind_eq_bind, Option.bind_eq_some_iff, isPrefixOf?_eq_some_iff,
    index?_eq_some_iff]
  constructor
  · rintro ⟨digits, rfl, i, ⟨hi, plus, zeros, rfl⟩, hv⟩
    exact ⟨plus, zeros, i, hi, mem_pairs.mpr ⟨i, hv, rfl⟩, rfl⟩
  · rintro ⟨plus, zeros, i, hi, hpair, rfl⟩
    obtain ⟨j, hv, hkey⟩ := mem_pairs.mp hpair
    cases key_injective m.stem hkey
    exact ⟨_, rfl, i, ⟨hi, plus, zeros, rfl⟩, hv⟩

/-! ### Putting variables back -/

/-- No variable is a placeholder. -/
theorem ne_of_mem_pairs_ofText {text k v : Text} (h : (k, v) ∈ (ofText text).pairs) (t : Text) :
    v ≠ (ofText text).stem ++ t := by
  obtain ⟨i, hv, -⟩ := mem_pairs.mp h
  obtain ⟨s, -, hs⟩ := List.mem_filterMap.mp (List.mem_of_getElem? hv)
  obtain ⟨n, hstem, -⟩ := freshStem_spec text
  have hstem : (ofText text).stem = stemOf n := hstem
  rw [hstem, stemOf_eq_cons]
  cases s with
  | literal t => cases hs
  | dollar name =>
    cases hs
    nofun

/-- The key of a variable is replaced, with or without zeros in front of its digits, where no digit
follows. -/
theorem unmasking?_ne_iff {text s : Text} {edit : Edit} :
    ((ofText text).unmasking? s = some edit ∧ edit.replacement ≠ edit.source) ↔
      ∃ zeros i rest, i < wordCount ∧ (key (ofText text).stem i, edit.replacement) ∈
          (ofText text).pairs ∧ edit.source = looseKey (ofText text).stem false zeros i ∧
        s = edit.source ++ rest ∧ ∀ c ∈ rest.head?, ¬ c.isDigit := by
  have hplus : ∀ (rest : Text) (digits : Text), rest.takeWhile Char.isDigit ≠ '+' :: digits := by
    intro rest digits h
    have hmem : '+' ∈ rest.takeWhile Char.isDigit := h ▸ List.mem_cons_self
    exact absurd (List.mem_takeWhile_imp hmem) (by decide)
  constructor
  · rintro ⟨hedit, hne⟩
    obtain ⟨rest, hrest, hedit⟩ := Option.bind_eq_some_iff.mp hedit
    cases hedit
    cases hget : (ofText text).get? ((ofText text).stem ++ rest.takeWhile Char.isDigit) with
    | none => exact absurd (by rw [hget]; rfl) hne
    | some v =>
      obtain ⟨plus, zeros, i, hi, hpair, hkey⟩ := get?_eq_some_iff.mp hget
      have hdigits := List.append_cancel_left hkey
      cases plus with
      | true => exact absurd hdigits (hplus rest _)
      | false =>
        refine ⟨zeros, i, rest.dropWhile Char.isDigit, hi, hpair, hkey, ?_, fun c hc => ?_⟩
        · rw [isPrefixOf?_eq_some_iff.mp hrest, List.append_assoc, List.takeWhile_append_dropWhile]
        · have hhead := List.head?_dropWhile_not Char.isDigit rest
          rw [Option.mem_def.mp hc] at hhead
          simpa using hhead
  · obtain ⟨source, replacement⟩ := edit
    rintro ⟨zeros, i, rest, hi, hpair, rfl, rfl, hrest⟩
    have hget := get?_eq_some_iff.mpr ⟨false, zeros, i, hi, hpair, rfl⟩
    refine ⟨?_, ne_of_mem_pairs_ofText hpair _⟩
    have hspan : (List.replicate zeros '0' ++ decimal i ++ rest).takeWhile Char.isDigit =
        List.replicate zeros '0' ++ decimal i :=
      congrArg Prod.fst (Lexeme.spanOf_of_forall (isDigit_of_mem_zeros_decimal zeros i) hrest)
    have hsource : looseKey (ofText text).stem false zeros i ++ rest =
        (ofText text).stem ++ (List.replicate zeros '0' ++ decimal i ++ rest) := by
      simp [looseKey]
    have hkey : (ofText text).stem ++ (List.replicate zeros '0' ++ decimal i) =
        looseKey (ofText text).stem false zeros i := rfl
    simp only [unmasking?, hsource, isPrefixOf?_append, Option.bind_eq_bind, Option.bind_some,
      hspan, hkey, hget]
    rfl

/-- Each variable has a key of its own. It is found under that key and under those that differ from
it by a plus sign and zeros in front of the digits, and is put back for those without a plus sign
where no digit follows; nothing else is found or replaced. -/
theorem lookup_and_replacements (text : Text) :
    ((ofText text).pairs.map Prod.fst).Nodup ∧
      (∀ k v, (ofText text).get? k = some v ↔ ∃ plus zeros i, i < wordCount ∧
        (key (ofText text).stem i, v) ∈ (ofText text).pairs ∧
          k = looseKey (ofText text).stem plus zeros i) ∧
      ∀ s edit, ((ofText text).unmasking? s = some edit ∧ edit.replacement ≠ edit.source) ↔
        ∃ zeros i rest, i < wordCount ∧ (key (ofText text).stem i, edit.replacement) ∈
            (ofText text).pairs ∧ edit.source = looseKey (ofText text).stem false zeros i ∧
          s = edit.source ++ rest ∧ ∀ c ∈ rest.head?, ¬ c.isDigit :=
  ⟨nodup_keys (ofText text), fun _ _ => get?_eq_some_iff, fun _ _ => unmasking?_ne_iff⟩

/-- A key with one more zero is no key of the text, but the variable is found under it, and put back
in its place. -/
theorem get?_paddedKey :
    (ofText "$x".toList).pairs = [("VAR0".toList, "$x".toList)] ∧
      (ofText "$x".toList).get? "VAR00".toList = some "$x".toList ∧
      ("VAR00".toList, "$x".toList) ∉ (ofText "$x".toList).pairs ∧
      (ofText "$x".toList).unmask "VAR00".toList = "$x".toList := by
  decide

end Placeholders

end PromQL

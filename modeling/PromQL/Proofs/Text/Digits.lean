import Mathlib
import PromQL.Text.Digits

/-!
# Written numbers read back

A digit of base ten is read as its value, so a text of such digits is read as the number that the
library's `Nat.ofDigitChars` makes of it. The decimal of a number has digits only and is read as
that number.
-/

namespace PromQL

/-! ### Digits of base ten -/

theorem isDigit_iff {c : Char} : c.isDigit ↔ '0'.toNat ≤ c.toNat ∧ c.toNat ≤ '9'.toNat := by
  simp only [Char.isDigit, Bool.and_eq_true, decide_eq_true_eq]
  exact Iff.rfl

theorem digit?_ten_of_isDigit {c : Char} (h : c.isDigit) :
    digit? 10 c = some (c.toNat - '0'.toNat) := by
  obtain ⟨h0, h9⟩ := isDigit_iff.mp h
  have hlt : c.toNat - '0'.toNat < 10 := by
    have : '9'.toNat = '0'.toNat + 9 := rfl
    omega
  simp only [digit?, if_pos (And.intro h0 h9), if_pos hlt]

theorem isWordChar_of_isDigit {c : Char} (h : c.isDigit) : isWordChar c := by
  simp [isWordChar, Char.isAlphanum, h]

/-! ### Texts of digits -/

/-- A text that can be read as a number has digits only. -/
theorem exists_of_naturalFrom? {base value number : Nat} {ds : Text}
    (h : naturalFrom? base value ds = some number) : ∀ c ∈ ds, ∃ d, digit? base c = some d := by
  induction ds generalizing value with
  | nil => exact List.forall_mem_nil _
  | cons c cs ih =>
    obtain ⟨d, hd, h⟩ := Option.bind_eq_some_iff.mp h
    exact List.forall_mem_cons.mpr ⟨⟨d, hd⟩, ih h⟩

theorem naturalFrom?_of_digits {ds : Text} (h : ∀ c ∈ ds, c.isDigit) (value : Nat) :
    naturalFrom? 10 value ds = some (Nat.ofDigitChars 10 ds value) := by
  induction ds generalizing value with
  | nil => simp
  | cons c cs ih =>
    have hc : digit? 10 c = some (c.toNat - '0'.toNat) :=
      digit?_ten_of_isDigit (h c List.mem_cons_self)
    rw [naturalFrom?, hc, Nat.ofDigitChars_cons, Nat.mul_comm 10 value]
    exact ih (fun d hd => h d (List.mem_cons_of_mem c hd)) _

theorem natural?_of_digits {ds : Text} (hne : ds ≠ []) (h : ∀ c ∈ ds, c.isDigit) :
    natural? 10 ds = some (Nat.ofDigitChars 10 ds 0) := by
  cases ds with
  | nil => exact absurd rfl hne
  | cons c cs => exact naturalFrom?_of_digits h 0

/-! ### Decimals -/

theorem decimal_ne_nil (n : Nat) : decimal n ≠ [] := Nat.toDigits_ne_nil

theorem isDigit_of_mem_decimal {n : Nat} {c : Char} (h : c ∈ decimal n) : c.isDigit :=
  Nat.isDigit_of_mem_toDigits (by decide) (by decide) h

/-- The decimal of a number is read as the number. -/
theorem natural?_decimal (n : Nat) : natural? 10 (decimal n) = some n := by
  rw [natural?_of_digits (decimal_ne_nil n) fun _ => isDigit_of_mem_decimal]
  exact congrArg some Nat.ofDigitChars_ten_toDigits

end PromQL

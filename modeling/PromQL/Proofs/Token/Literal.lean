import Mathlib
import PromQL.Proofs.Token.Spelling

/-!
# Written string literals

A text may be written between double quotes in many ways, character by character. Whatever follows
it, its literal is read as one string, which stands for the text again, and it has no control
characters, so it stays on its line.
-/

namespace PromQL

/-- The forms of a character between double quotes: the character itself, a letter or the mark
behind a backslash, or the four hexadecimal digits of its code point. -/
inductive EscapedForm : Char → Text → Prop
  | itself {c : Char} (hmark : c ≠ '"') (hback : c ≠ '\\') (hcontrol : ¬ isControl c) :
      EscapedForm c [c]
  | mark : EscapedForm '"' ['\\', '"']
  | letter {c d : Char} (h : letterEscape? d = some c) : EscapedForm c ['\\', d]
  | code {c : Char} {digits : Text} (hlength : digits.length = 4)
      (hvalue : natural? 16 digits = some c.toNat) : EscapedForm c ('\\' :: 'u' :: digits)

/-- What is written for a character is one of its forms. -/
theorem escapedForm_escape (c : Char) : EscapedForm c (escape c) := by
  have h := writtenForm_escape c
  generalize escape c = form at h
  cases h with
  | itself hmark hback hcontrol => exact .itself hmark hback hcontrol
  | mark => exact .mark
  | letter h => exact .letter h
  | code hcontrol =>
    obtain ⟨hlength, hvalue⟩ := hexPadded_control c.toNat (toNat_lt_of_isControl hcontrol)
    refine .code hlength ?_
    cases hdigits : hexPadded 4 c.toNat with
    | nil => rw [hdigits] at hlength; cases hlength
    | cons d ds => rw [hdigits] at hvalue; exact hvalue

/-! ### Control characters -/

theorem not_isControl_of_letterEscape? {c d : Char} (h : letterEscape? d = some c) :
    ¬ isControl d := by
  have hall : escapeLetters.all (!isControl ·) := by decide
  simpa using List.all_eq_true.mp hall d (mem_of_letterEscape? h)

theorem not_isControl_of_digit? {base d : Nat} {c : Char} (h : digit? base c = some d) :
    ¬ isControl c := by
  intro hcontrol
  have hrange : c.toNat < '0'.toNat ∨ 'f'.toNat < c.toNat := by
    have hzero : '0'.toNat = 0x30 := rfl
    have hf : 'f'.toNat = 0x66 := rfl
    simp only [isControl, Bool.or_eq_true, Bool.and_eq_true, decide_eq_true_eq] at hcontrol
    omega
  have hdecimal : ¬ ('0'.toNat ≤ c.toNat ∧ c.toNat ≤ '9'.toNat) := by
    have hnine : '9'.toNat < 'f'.toNat := by decide
    omega
  have hlower : ¬ ('a'.toNat ≤ c.toNat ∧ c.toNat ≤ 'f'.toNat) := by
    have ha : '0'.toNat < 'a'.toNat := by decide
    omega
  have hupper : ¬ ('A'.toNat ≤ c.toNat ∧ c.toNat ≤ 'F'.toNat) := by
    have hA : '0'.toNat < 'A'.toNat := by decide
    have hF : 'F'.toNat < 'f'.toNat := by decide
    omega
  rw [digit?, if_neg hdecimal, if_neg hlower, if_neg hupper, if_neg (Nat.lt_irrefl base)] at h
  cases h

/-- No form of a character has a control character. -/
theorem EscapedForm.not_isControl {c : Char} {form : Text} (h : EscapedForm c form) :
    ∀ d ∈ form, ¬ isControl d := by
  have hback : ¬ isControl '\\' := by decide
  cases h with
  | itself _ _ hcontrol => exact List.forall_mem_singleton.mpr hcontrol
  | mark =>
    have hmark : ¬ isControl '"' := by decide
    exact List.forall_mem_cons.mpr ⟨hback, List.forall_mem_singleton.mpr hmark⟩
  | letter hletter =>
    have hd := not_isControl_of_letterEscape? hletter
    exact List.forall_mem_cons.mpr ⟨hback, List.forall_mem_singleton.mpr hd⟩
  | @code _ digits _ hvalue =>
    have hdigits : ∀ d ∈ digits, ¬ isControl d := by
      intro d hd
      cases digits with
      | nil => cases hd
      | cons e es =>
        obtain ⟨n, hn⟩ := exists_of_naturalFrom? hvalue d hd
        exact not_isControl_of_digit? hn
    exact List.forall_mem_cons.mpr ⟨hback, List.forall_mem_cons.mpr ⟨by decide, hdigits⟩⟩

/-! ### Literals -/

/-- A text is written by forms of its characters, none of which has a control character. -/
theorem exists_escapedForms (s : Text) : ∃ forms, List.Forall₂ EscapedForm s forms ∧
    s.flatMap escape = forms.flatten ∧ ∀ form ∈ forms, ∀ c ∈ form, ¬ isControl c := by
  induction s with
  | nil => exact ⟨[], .nil, rfl, List.forall_mem_nil _⟩
  | cons c s ih =>
    obtain ⟨forms, hforms, htext, hcontrol⟩ := ih
    have hc := escapedForm_escape c
    refine ⟨escape c :: forms, .cons hc hforms, ?_, ?_⟩
    · rw [List.flatMap_cons, htext, List.flatten_cons]
    · exact List.forall_mem_cons.mpr ⟨hc.not_isControl, hcontrol⟩

/-- The literal of a text writes each character in one of its forms, and has no control characters.
In front of any other text it is read as one string, which stands for the text. -/
theorem read_quote (s rest : Text) :
    ∃ forms, List.Forall₂ EscapedForm s forms ∧ quote s = '"' :: forms.flatten ++ ['"'] ∧
      Lexeme.plain? (quote s ++ rest) = some ⟨.string '"' forms.flatten, .plain, rest⟩ ∧
      Lexeme.braces? (quote s ++ rest) = some ⟨.string '"' forms.flatten, .braces, rest⟩ ∧
      unquote? '"' forms.flatten = some s ∧ ∀ c ∈ quote s, ¬ isControl c := by
  obtain ⟨forms, hforms, htext, hcontrol⟩ := exists_escapedForms s
  have hquote : quote s = '"' :: forms.flatten ++ ['"'] := by rw [quote, htext]
  have hplain := (reads_quotedToken s (.inl rfl) rest).read
  have hbraces := (reads_quotedToken s (.inr rfl) rest).read
  have hvalue := unquote?_escape s
  rw [spelling_quotedToken, quotedToken, htext] at hplain hbraces
  rw [htext] at hvalue
  refine ⟨forms, hforms, hquote, hplain, hbraces, hvalue, fun c hc => ?_⟩
  have hmark : ¬ isControl '"' := by decide
  rw [hquote, List.mem_append, List.mem_cons, List.mem_flatten, List.mem_singleton] at hc
  rcases hc with (rfl | ⟨form, hform, hc⟩) | rfl
  · exact hmark
  · exact hcontrol form hform c hc
  · exact hmark

/-- A text that ends in a backslash, with a mark, a control character and what looks like an
escape. -/
example : quote "\\u0041\x01\"\\".toList = "\"\\\\u0041\\u0001\\\"\\\\\"".toList := rfl

end PromQL

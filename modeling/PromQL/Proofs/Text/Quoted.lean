import Mathlib
import PromQL.Text.Quoted

/-!
# Quoted texts are read back

The form of each character inside a canonical literal is read as that character, whatever follows
it, so the body of the literal of a text is read as the text.
-/

namespace PromQL

/-! ### Steps of reading -/

theorem unescape?_plain {mark c : Char} {cs : Text} (hn : c ≠ '\n') (hback : c ≠ '\\') :
    unescape? mark .plain (c :: cs) = (unescape? mark .plain cs).map (c :: ·) := by
  rw [unescape?, if_neg hn, if_neg hback]

theorem unescape?_digit {mark c : Char} {base left value d : Nat} {cs : Text}
    (h : digit? base c = some d) :
    unescape? mark (.digits base (left + 2) value) (c :: cs) =
      unescape? mark (.digits base (left + 1) (value * base + d)) cs := by
  rw [unescape?, h]
  rfl

theorem unescape?_lastDigit {mark c e : Char} {base value d : Nat} {cs : Text}
    (h : digit? base c = some d) (hlimit : value * base + d < escapeLimit base)
    (hchar : charOf? (value * base + d) = some e) :
    unescape? mark (.digits base 1 value) (c :: cs) = (unescape? mark .plain cs).map (e :: ·) := by
  rw [unescape?, h, Option.bind_eq_bind, Option.bind_some]
  simp only [if_pos hlimit, hchar]
  rfl

/-! ### Numeric escapes -/

/-- The digits of a numeric escape are read as the character of their value. -/
theorem unescape?_digits {mark c : Char} {base value : Nat} {ds rest : Text} (hne : ds ≠ [])
    (hvalue : naturalFrom? base value ds = some c.toNat) (hlimit : c.toNat < escapeLimit base) :
    unescape? mark (.digits base ds.length value) (ds ++ rest) =
      (unescape? mark .plain rest).map (c :: ·) := by
  induction ds generalizing value with
  | nil => exact absurd rfl hne
  | cons d ds ih =>
    rw [naturalFrom?, Option.bind_eq_bind, Option.bind_eq_some_iff] at hvalue
    obtain ⟨digit, hdigit, hvalue⟩ := hvalue
    cases ds with
    | nil =>
      rw [naturalFrom?_nil, Option.some.injEq] at hvalue
      have hchar : charOf? c.toNat = some c := by
        have hvalid : c.toNat.isValidChar := c.valid
        have hofNat : Char.ofNat c.toNat = c := Char.ofNat_toNat c
        rw [Char.ofNat, dif_pos hvalid] at hofNat
        rw [charOf?, dif_pos hvalid, hofNat]
      exact unescape?_lastDigit hdigit (hvalue.symm ▸ hlimit) (hvalue.symm ▸ hchar)
    | cons d' ds =>
      rw [List.cons_append, List.length_cons, List.length_cons, unescape?_digit hdigit]
      exact ih (List.cons_ne_nil d' ds) hvalue

/-- A control character below the last one has four hexadecimal digits, which make up its value. -/
theorem hexPadded_control :
    ∀ n < 0xa0, (hexPadded 4 n).length = 4 ∧ naturalFrom? 16 0 (hexPadded 4 n) = some n := by
  decide +kernel

theorem toNat_lt_of_isControl {c : Char} (h : isControl c) : c.toNat < 0xa0 := by
  simp only [isControl, Bool.or_eq_true, Bool.and_eq_true, decide_eq_true_eq] at h
  omega

/-! ### Letter escapes -/

/-- The characters behind a backslash that are an escape of their own. -/
def escapeLetters : Text := ['a', 'b', 'f', 'n', 'r', 't', 'v', '\\']

theorem mem_of_letterEscape? {c d : Char} (h : letterEscape? d = some c) : d ∈ escapeLetters := by
  by_contra hd
  simp only [escapeLetters, List.mem_cons, List.not_mem_nil, or_false, not_or] at hd
  simp [letterEscape?, hd] at h

theorem unescape?_letter {c d : Char} (h : letterEscape? d = some c) (rest : Text) :
    unescape? '"' .started (d :: rest) = (unescape? '"' .plain rest).map (c :: ·) := by
  have hmark : d ≠ '"' := ne_of_mem_of_not_mem (mem_of_letterEscape? h) (by decide)
  simp only [unescape?, if_neg hmark, h]

/-! ### Written characters -/

/-- How a character is written between double quotes: as itself, as the mark or a letter behind a
backslash, or, if it is a control character without a letter, by its hexadecimal digits. -/
inductive WrittenForm : Char → Text → Prop
  | itself {c : Char} (hmark : c ≠ '"') (hback : c ≠ '\\') (hcontrol : ¬ isControl c) :
      WrittenForm c [c]
  | mark : WrittenForm '"' ['\\', '"']
  | letter {c d : Char} (h : letterEscape? d = some c) (hc : isControl c ∨ c = '\\') :
      WrittenForm c ['\\', d]
  | code {c : Char} (hcontrol : isControl c) : WrittenForm c ('\\' :: 'u' :: hexPadded 4 c.toNat)

theorem writtenForm_escape (c : Char) : WrittenForm c (escape c) := by
  have hletter {d e : Char} (h : letterEscape? d = some e) (he : isControl e ∨ e = '\\')
      (hc : c = e) : WrittenForm c ['\\', d] := hc ▸ .letter h he
  unfold escape
  refine iteInduction (motive := WrittenForm c) (fun hc => hc ▸ .mark) fun hmark => ?_
  refine iteInduction (motive := WrittenForm c) (hletter rfl (by decide)) fun hback => ?_
  refine iteInduction (motive := WrittenForm c) (hletter rfl (by decide)) fun _ => ?_
  refine iteInduction (motive := WrittenForm c) (hletter rfl (by decide)) fun _ => ?_
  refine iteInduction (motive := WrittenForm c) (hletter rfl (by decide)) fun _ => ?_
  refine iteInduction (motive := WrittenForm c) (hletter rfl (by decide)) fun _ => ?_
  refine iteInduction (motive := WrittenForm c) (hletter rfl (by decide)) fun _ => ?_
  refine iteInduction (motive := WrittenForm c) (hletter rfl (by decide)) fun _ => ?_
  refine iteInduction (motive := WrittenForm c) (hletter rfl (by decide)) fun _ => ?_
  exact iteInduction (motive := WrittenForm c) .code (.itself hmark hback)

/-- The form of a character inside a literal is read as the character. -/
theorem unescape?_escape (c : Char) (rest : Text) :
    unescape? '"' .plain (escape c ++ rest) = (unescape? '"' .plain rest).map (c :: ·) := by
  have h := writtenForm_escape c
  generalize escape c = form at h
  cases h with
  | itself hmark hback hcontrol =>
    have hn : c ≠ '\n' := fun hn => hcontrol (hn ▸ by decide)
    exact unescape?_plain hn hback
  | mark => rfl
  | letter h => exact unescape?_letter h rest
  | code hcontrol =>
    have hlt : c.toNat < 0xa0 := toNat_lt_of_isControl hcontrol
    obtain ⟨hlength, hvalue⟩ := hexPadded_control c.toNat hlt
    have hne : hexPadded 4 c.toNat ≠ [] := by
      intro hnil
      simp [hnil] at hlength
    have hlimit : c.toNat < escapeLimit 16 := by
      have : escapeLimit 16 = 0x110000 := rfl
      omega
    have hread : unescape? '"' (.digits 16 (hexPadded 4 c.toNat).length 0)
        (hexPadded 4 c.toNat ++ rest) = (unescape? '"' .plain rest).map (c :: ·) :=
      unescape?_digits hne hvalue hlimit
    rw [hlength] at hread
    exact hread

/-! ### Literals -/

/-- The body of the canonical literal of a text is read as the text. -/
theorem unquote?_escape (s : Text) : unquote? '"' (s.flatMap escape) = some s := by
  have hmark : '"' ≠ backtick := by decide
  rw [unquote?, if_neg hmark]
  induction s with
  | nil => rfl
  | cons c cs ih => rw [List.flatMap_cons, unescape?_escape, ih, Option.map_some]

end PromQL

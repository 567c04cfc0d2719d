import Mathlib.Data.List.Infix
import PromQL.Text.Basic

/-!
# Starts and parts of texts

What the searches of the library find, said with prefixes and contiguous parts of lists.
-/

namespace PromQL

theorem isPrefixOf?_append (p rest : Text) : p.isPrefixOf? (p ++ rest) = some rest := by
  induction p with
  | nil => rfl
  | cons c cs ih => simp [List.isPrefixOf?, ih]

theorem isPrefixOf?_eq_some_iff {p text rest : Text} :
    p.isPrefixOf? text = some rest ↔ text = p ++ rest := by
  constructor
  · intro h
    induction p generalizing text with
    | nil => simpa [List.isPrefixOf?] using h
    | cons c cs ih =>
      cases text with
      | nil => simp [List.isPrefixOf?] at h
      | cons d ds =>
        rw [List.isPrefixOf?] at h
        split_ifs at h with hcd
        rw [ih h, beq_iff_eq.mp hcd]
        rfl
  · rintro rfl
    exact isPrefixOf?_append p rest

theorem isPrefixOf?_eq_none_iff {p text : Text} : p.isPrefixOf? text = none ↔ ¬ p <+: text := by
  constructor
  · rintro h ⟨rest, rfl⟩
    simp [isPrefixOf?_append] at h
  · intro h
    cases hp : p.isPrefixOf? text with
    | none => rfl
    | some rest => exact absurd ⟨rest, (isPrefixOf?_eq_some_iff.mp hp).symm⟩ h

/-- A text occurs in another one if and only if it is a contiguous part of it. -/
theorem occursIn_iff {needle text : Text} : occursIn needle text ↔ needle <:+: text := by
  induction text with
  | nil => simp [List.infix_nil]
  | cons c cs ih =>
    rw [occursIn_cons, Bool.or_eq_true, List.isPrefixOf_iff_prefix, ih, List.infix_cons_iff]

/-! ### Two ways to cut a text -/

/-- A character of a text that is cut in two stands in one of the parts. -/
theorem exists_of_append_eq_append_cons {a b y k : Text} {d : Char} (h : a ++ b = y ++ d :: k) :
    (∃ k', a = y ++ d :: k' ∧ k = k' ++ b) ∨ ∃ y', y = a ++ y' ∧ b = y' ++ d :: k := by
  rcases List.append_eq_append_iff.mp h with ⟨y', hy, hb⟩ | ⟨c, ha, hc⟩
  · exact .inr ⟨y', hy, hb⟩
  · rcases List.cons_eq_append_iff.mp hc with ⟨rfl, hb⟩ | ⟨k', rfl, hk⟩
    · exact .inr ⟨[], by simpa using ha.symm, hb⟩
    · exact .inl ⟨k', ha, hk⟩

/-- A text is not cut in two ways in front of characters that do not stand in the first part of the
other cut. -/
theorem append_cons_ne_append_cons {a b x y : Text} {c d : Char} (hcd : c ≠ d) (hc : c ∉ b)
    (hd : d ∉ a) : a ++ c :: x ≠ b ++ d :: y := by
  intro h
  rcases exists_of_append_eq_append_cons h with ⟨k, rfl, -⟩ | ⟨b', rfl, hb⟩
  · exact hd (by simp)
  · rcases List.cons_eq_append_iff.mp hb with ⟨rfl, hd'⟩ | ⟨b'', rfl, -⟩
    · exact hcd (List.head_eq_of_cons_eq hd').symm
    · exact hc (by simp)

/-- Two texts differ in one place first. -/
theorem eq_of_first_differences {a b x x' y y' : Text} {c c' d d' : Char}
    (h : a ++ c :: x = b ++ d :: y) (h' : a ++ c' :: x' = b ++ d' :: y') (hc : c ≠ c')
    (hd : d ≠ d') : a = b := by
  rcases exists_of_append_eq_append_cons h with ⟨k, rfl, -⟩ | ⟨k, rfl, hk⟩
  · rw [List.append_assoc, List.append_cancel_left_eq] at h'
    exact absurd (List.head_eq_of_cons_eq h') hd
  · rcases List.cons_eq_append_iff.mp hk with ⟨rfl, -⟩ | ⟨k, rfl, -⟩
    · exact (List.append_nil a).symm
    · rw [List.append_assoc, List.append_cancel_left_eq] at h'
      exact absurd (List.head_eq_of_cons_eq h').symm hc

/-- An end of a text that is cut in two is an end of the second part or starts in the first one. -/
theorem suffix_append_cases {a b s : Text} (h : s <:+ a ++ b) :
    s <:+ b ∨ ∃ s', s' ≠ [] ∧ s' <:+ a ∧ s = s' ++ b := by
  obtain ⟨front, hfront⟩ := h
  rcases List.append_eq_append_iff.mp hfront with ⟨s', ha, hs⟩ | ⟨front', -, hb⟩
  · cases s' with
    | nil => exact .inl ⟨[], by simpa using hs⟩
    | cons c cs => exact .inr ⟨c :: cs, List.cons_ne_nil c cs, ⟨front, ha.symm⟩, hs⟩
  · exact .inl ⟨front', hb.symm⟩

end PromQL

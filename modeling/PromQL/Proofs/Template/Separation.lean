import Mathlib
import PromQL.Proofs.Template.Restoration

/-!
# Variables between separators

A character that is neither a dollar sign nor one of a name belongs to no variable, and separates
those in front of it from those behind it. So a text is masked part by part, and its variables are
those of its parts, if the parts are cut at such characters.
-/

namespace PromQL

/-- A character that is neither a dollar sign nor one of a name. -/
def IsSeparator (c : Char) : Prop := ¬ isWordChar c ∧ c ≠ '$'

instance (c : Char) : Decidable (IsSeparator c) := inferInstanceAs (Decidable (_ ∧ _))

theorem toNat_of_isWordChar {c : Char} (h : isWordChar c) : 0x30 ≤ c.toNat ∧ c.toNat ≤ 0x7a := by
  have hval : c.val.toNat = c.toNat := rfl
  simp only [isWordChar, Char.isAlphanum, Char.isAlpha, Char.isUpper, Char.isLower, Char.isDigit,
    Bool.or_eq_true, Bool.and_eq_true, decide_eq_true_eq, beq_iff_eq, UInt32.le_iff_toNat_le,
    ge_iff_le] at h
  rcases h with h | rfl
  · simp at h
    omega
  · decide

/-- A character that is not in the range of names and the dollar sign is a separator. -/
theorem IsSeparator.of_toNat {c : Char} (h : c.toNat < 0x24 ∨ 0x7a < c.toNat) : IsSeparator c := by
  constructor
  · intro hword
    have := toNat_of_isWordChar hword
    omega
  · rintro rfl
    have : '$'.toNat = 0x24 := rfl
    omega

theorem IsSeparator.of_isBlank {c : Char} (h : isBlank c) : IsSeparator c := by
  refine .of_toNat ?_
  simp only [isBlank, Bool.or_eq_true, Bool.and_eq_true, decide_eq_true_eq, beq_iff_eq] at h
  omega

/-! ### Segments -/

namespace Segment

/-- Names end in front of a character that they do not have, and segments are cut there. -/
theorem split_append {b : Text} (hb : ∀ c ∈ b.head?, ¬ isWordChar c) (a : Text) :
    split (a ++ b) = ((split a).1, (split a).2 ++ (split b).2) := by
  induction a with
  | nil =>
    refine Prod.ext ?_ rfl
    cases b with
    | nil => rfl
    | cons c cs =>
      have hc : ¬ isWordChar c := hb c rfl
      simp only [List.nil_append, split, hc, Bool.false_eq_true, if_false]
      split <;> rfl
  | cons c cs ih =>
    simp only [List.cons_append, split, ih]
    split
    · rfl
    · split <;> rfl

theorem split_append_cons {c : Char} (hc : IsSeparator c) (a b : Text) :
    split (a ++ c :: b) =
      ((split a).1, (split a).2 ++ .literal (c :: (split b).1) :: (split b).2) := by
  have hend : ∀ d ∈ (c :: b).head?, ¬ isWordChar d := by
    rintro d ⟨⟩
    exact hc.1
  rw [split_append hend]
  simp [split, hc.1, hc.2]

/-- The segments in front of a separator end there. -/
theorem ofText_append_cons {c : Char} (hc : IsSeparator c) (a b : Text) :
    ofText (a ++ c :: b) = ofText a ++ .literal (c :: (split b).1) :: (split b).2 := by
  rw [ofText, split_append_cons hc]
  rfl

end Segment

/-- The variables in front of a character that no name has come before those from there on. -/
theorem variablesOf_append {b : Text} (hb : ∀ c ∈ b.head?, ¬ isWordChar c) (a : Text) :
    variablesOf (a ++ b) = variablesOf a ++ variablesOf b := by
  rw [variablesOf, Segment.ofText, Segment.split_append hb]
  exact List.filterMap_append (l := .literal (Segment.split a).1 :: (Segment.split a).2)

/-- The variables in front of a separator come before those behind it. -/
theorem variablesOf_append_cons {c : Char} (hc : IsSeparator c) (a b : Text) :
    variablesOf (a ++ c :: b) = variablesOf a ++ variablesOf b := by
  simp only [variablesOf, Segment.ofText_append_cons hc, List.filterMap_append]
  rfl

/-- A text without dollar signs adds no variables to what is behind it. -/
theorem variablesOf_append_of_not_mem {a : Text} (ha : '$' ∉ a) (b : Text) :
    variablesOf (a ++ b) = variablesOf b := by
  induction a with
  | nil => rfl
  | cons c cs ih =>
    obtain ⟨hc, hcs⟩ := not_or.mp (List.mem_cons.not.mp ha)
    rw [← ih hcs]
    simp only [List.cons_append, variablesOf, Segment.ofText, Segment.split]
    split
    · rfl
    · have hdollar : (c == '$') = false := beq_eq_false_iff_ne.mpr (Ne.symm hc)
      rw [hdollar]
      rfl

/-- Separators cut a text, and add no variables to it. -/
theorem variablesOf_append_separators {cut : Text} (hne : cut ≠ []) (h : ∀ c ∈ cut, IsSeparator c)
    (a b : Text) : variablesOf (a ++ (cut ++ b)) = variablesOf a ++ variablesOf b := by
  obtain ⟨c, cs, rfl⟩ := List.exists_cons_of_ne_nil hne
  have hdollar : '$' ∉ cs := fun hmem => (h _ (List.mem_cons_of_mem c hmem)).2 rfl
  rw [List.cons_append, variablesOf_append_cons (h c List.mem_cons_self),
    variablesOf_append_of_not_mem hdollar]

namespace Placeholders

/-- A text without dollar signs has no variables. -/
theorem variablesOf_of_not_mem {text : Text} (h : '$' ∉ text) : variablesOf text = [] := by
  rw [variablesOf, List.filterMap_eq_nil_iff]
  intro s hs
  cases s with
  | literal t => rfl
  | dollar name =>
    have hpart := Segment.text_infix_of_mem_ofText hs
    exact absurd (hpart.subset List.mem_cons_self) h

/-- A text without variables is its own masked form. -/
theorem mask_of_no_variables {text : Text} (h : variablesOf text = []) : mask text = text := by
  rw [mask, fill_of_no_variables h]
  exact Segment.flatMap_text_ofText text

/-! ### Masking in parts -/

/-- A text with placeholders for its variables, the first of which is in the given place. -/
def maskFrom (stem : Text) (index : Nat) (text : Text) : Text :=
  fill stem index (Segment.ofText text)

theorem mask_eq_maskFrom (text : Text) : mask text = maskFrom (freshStem text) 0 text := rfl

theorem fill_append (stem : Text) (index : Nat) (a b : List Segment) :
    fill stem index (a ++ b) =
      fill stem index a ++ fill stem (index + (a.filterMap Segment.asVariable?).length) b := by
  induction a generalizing index with
  | nil => rfl
  | cons s a ih =>
    cases s with
    | literal t =>
      rw [List.cons_append, fill_literal, fill_literal, ih, List.append_assoc]
      rfl
    | dollar name =>
      rw [List.cons_append, fill_dollar, fill_dollar, ih, List.append_assoc, Nat.add_right_comm]
      rfl

/-- What is behind a separator is masked on its own, with the places that are left. -/
theorem maskFrom_append_cons {c : Char} (hc : IsSeparator c) (stem : Text) (index : Nat)
    (a b : Text) :
    maskFrom stem index (a ++ c :: b) =
      maskFrom stem index a ++ c :: maskFrom stem (index + (variablesOf a).length) b := by
  rw [maskFrom, Segment.ofText_append_cons hc, fill_append]
  rfl

theorem maskFrom_of_not_mem {text : Text} (h : '$' ∉ text) (stem : Text) (index : Nat) :
    maskFrom stem index text = text := by
  rw [maskFrom, fill_of_no_variables (variablesOf_of_not_mem h), Segment.flatMap_text_ofText]

/-- What is in front of a separator stays as it is, if it has no dollar signs. -/
theorem maskFrom_append_cons_of_not_mem {a : Text} {c : Char} (ha : '$' ∉ a) (hc : IsSeparator c)
    (stem : Text) (index : Nat) (b : Text) :
    maskFrom stem index (a ++ c :: b) = a ++ c :: maskFrom stem index b := by
  rw [maskFrom_append_cons hc, maskFrom_of_not_mem ha, variablesOf_of_not_mem ha]
  rfl

/-- Separators stay as they are. -/
theorem maskFrom_append {a : Text} (ha : ∀ c ∈ a, IsSeparator c) (stem : Text) (index : Nat)
    (b : Text) : maskFrom stem index (a ++ b) = a ++ maskFrom stem index b := by
  induction a with
  | nil => rfl
  | cons c cs ih =>
    have hrest := ih fun d hd => ha d (List.mem_cons_of_mem c hd)
    rw [List.cons_append, List.cons_append, ← hrest]
    exact maskFrom_append_cons_of_not_mem (a := []) List.not_mem_nil (ha c List.mem_cons_self) ..

theorem isWordChar_of_mem_key {n index : Nat} {c : Char} (h : c ∈ key (stemOf n) index) :
    isWordChar c := by
  rw [key, List.mem_append, stemOf_eq_cons] at h
  rcases h with h | h
  · rcases List.mem_cons.mp h with rfl | h
    · rfl
    · exact isWordChar_of_isStemTail (isStemTail_of_mem_tail (n := n) h)
  · exact isWordChar_of_isDigit (isDigit_of_mem_decimal h)

/-- Masking writes characters of names only. -/
theorem mem_or_of_mem_maskFrom {n : Nat} {index : Nat} {text : Text} {c : Char}
    (h : c ∈ maskFrom (stemOf n) index text) : c ∈ text ∨ isWordChar c := by
  have hfill : ∀ (segments : List Segment) (index : Nat), c ∈ fill (stemOf n) index segments →
      c ∈ segments.flatMap Segment.text ∨ isWordChar c := by
    intro segments
    induction segments with
    | nil => nofun
    | cons s segments ih =>
      intro index hc
      cases s with
      | literal t =>
        rcases List.mem_append.mp hc with hc | hc
        · exact .inl (List.mem_append_left _ hc)
        · exact (ih index hc).imp_left (List.mem_append_right _)
      | dollar name =>
        rcases List.mem_append.mp hc with hc | hc
        · exact .inr (isWordChar_of_mem_key hc)
        · exact (ih (index + 1) hc).imp_left (List.mem_append_right _)
  have hor := hfill _ _ h
  rwa [Segment.flatMap_text_ofText] at hor

end Placeholders

end PromQL

import Mathlib
import PromQL.Proofs.Text.Spacing

/-!
# Texts without their indentation

The spaces at the starts of the lines of a text can be left out. What is left of the rest of a text
depends on whether the text in front of it ends in a line break, with spaces behind it or not.
Words, in which neither spaces nor line breaks are, stay as they are, and are found in the same
places.
-/

namespace PromQL

/-- The rest of a text without the spaces at the starts of its lines, the first of which is a new
one or goes on. -/
def unindentFrom : Bool → Text → Text
  | _, [] => []
  | fresh, c :: cs =>
    if fresh && c == ' ' then unindentFrom true cs else c :: unindentFrom (c == '\n') cs

/-- A text without the spaces at the starts of its lines. -/
def unindent (text : Text) : Text := unindentFrom true text

@[simp] theorem unindentFrom_space (cs : Text) :
    unindentFrom true (' ' :: cs) = unindentFrom true cs := rfl

/-- At anything but a space it does not matter whether the line is new. -/
theorem unindentFrom_eq_false (text : Text) (h : text.head? ≠ some ' ') (fresh : Bool) :
    unindentFrom fresh text = unindentFrom false text := by
  cases text with
  | nil => rfl
  | cons c cs =>
    have hc : (c == ' ') = false := beq_eq_false_iff_ne.mpr fun heq => h (by rw [heq]; rfl)
    rw [unindentFrom, unindentFrom, hc, Bool.and_false, Bool.and_false]

theorem unindentFrom_append_lineBreak (fresh : Bool) (a b : Text) :
    unindentFrom fresh (a ++ '\n' :: b) = unindentFrom fresh a ++ '\n' :: unindentFrom true b := by
  induction a generalizing fresh with
  | nil => exact unindentFrom_eq_false ('\n' :: b) (by simp) fresh
  | cons c cs ih =>
    rw [List.cons_append, unindentFrom, unindentFrom]
    split_ifs
    · exact ih true
    · rw [ih, List.cons_append]

theorem unindentFrom_replicate_append (k : Nat) (b : Text) :
    unindentFrom true (List.replicate k ' ' ++ b) = unindentFrom true b := by
  induction k with
  | zero => rfl
  | succ k ih =>
    rw [List.replicate_succ, List.cons_append, unindentFrom_space, ih]

/-! ### Words -/

/-- A text without spaces and line breaks. -/
def IsUnbroken (text : Text) : Prop := ∀ c ∈ text, ¬ isSpacing c

theorem IsUnbroken.head {c : Char} {cs : Text} (h : IsUnbroken (c :: cs)) : c ≠ ' ' ∧ c ≠ '\n' := by
  have hc := h c List.mem_cons_self
  constructor <;> rintro rfl <;> exact hc rfl

theorem IsUnbroken.tail {c : Char} {cs : Text} (h : IsUnbroken (c :: cs)) : IsUnbroken cs :=
  fun d hd => h d (List.mem_cons_of_mem c hd)

end PromQL

import Mathlib
import PromQL.Expr.Line
import PromQL.Expr.Reading
import PromQL.Proofs.Duration.Reading
import PromQL.Proofs.Expr.Equality

/-!
# Durations between brackets

The range of a matrix selector, the range and the step of a subquery and an offset are printed by
the same text, with nothing that checks it. The lexer reads that text in full unless the duration
is positive and below a millisecond, of which nothing is printed at all.
-/

namespace PromQL

/-- Whether a text starts with a digit and is all of a duration to the lexer, in front of anything
that does not go on a word. -/
def Lexeme.IsDuration (t : Text) : Prop :=
  (∃ c ∈ t.head?, c.isDigit) ∧
    ∀ rest, IsNameEnd rest → quantity? (t ++ rest) = some (.duration t, rest)

namespace Duration

/-- Nothing is printed of a positive duration below a millisecond, and of no other. -/
theorem text_ne_nil_iff (d : Duration) :
    d.text ≠ [] ↔ d.nanoseconds = 0 ∨ 1000000 ≤ d.nanoseconds := by
  have hms : d.milliseconds = 0 ↔ d.nanoseconds < 1000000 := Nat.div_eq_zero_iff_lt (by decide)
  rw [Ne, text_eq_nil_iff, hms]
  omega

theorem isDuration_text_iff (d : Duration) : Lexeme.IsDuration d.text ↔ d.text ≠ [] := by
  constructor
  · rintro ⟨⟨c, hc, -⟩, -⟩ hnil
    rw [hnil] at hc
    cases hc
  · intro hne
    refine ⟨?_, fun rest hrest => Lexeme.quantity?_duration hne hrest⟩
    have hdigit := head?_flatMap_groupText d.parts
    rw [← text_eq_parts] at hdigit
    obtain ⟨c, cs, hcs⟩ := List.exists_cons_of_ne_nil hne
    have hc : c ∈ d.text.head? := by rw [hcs]; rfl
    exact ⟨c, hc, hdigit c hc⟩

/-- One text stands for a duration as a range, as a step and as an offset of either sign. It is a
duration to the lexer if and only if there is no time at all or at least a millisecond. -/
theorem isDuration_printed_iff (d : Duration) :
    ∃ t, (∀ s : Selector, (Expr.matrix s d).line = s.body ++ '[' :: t ++ ']' :: s.modifiers.text) ∧
      (∀ inner step m, (Expr.subquery inner d step m).line =
        inner.line ++ '[' :: t ++ ':' :: (step.map text).getD [] ++ ']' :: m.text) ∧
      (∀ inner range m, (Expr.subquery inner range (some d) m).line =
        inner.line ++ '[' :: range.text ++ ':' :: t ++ ']' :: m.text) ∧
      Offset.text ⟨false, d⟩ = "offset ".toList ++ t ∧
      Offset.text ⟨true, d⟩ = "offset -".toList ++ t ∧
      (Lexeme.IsDuration t ↔ d.nanoseconds = 0 ∨ 1000000 ≤ d.nanoseconds) :=
  ⟨d.text, fun _ => rfl, fun _ _ _ => rfl, fun _ _ _ => rfl, rfl, rfl,
    (isDuration_text_iff d).trans (text_ne_nil_iff d)⟩

/-- A tenth of a millisecond can be read as a range, and leaves the brackets empty when it is
written. -/
theorem not_isDuration_tenthOfMillisecond :
    Expr.ofText "m[0.0001]".toList =
        .ok (.matrix ⟨some "m".toList, .empty, .empty⟩ ⟨100000⟩) ∧
      (Expr.matrix ⟨some "m".toList, .empty, .empty⟩ ⟨100000⟩).line = "m[]".toList ∧
      ¬ Lexeme.IsDuration (⟨100000⟩ : Duration).text :=
  ⟨by decide +kernel, by decide +kernel, fun h => (isDuration_text_iff _).mp h rfl⟩

end Duration

end PromQL

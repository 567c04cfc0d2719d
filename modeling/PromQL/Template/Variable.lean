import PromQL.Text.Basic

/-!
# Template variables

Dashboards write variables into a query: a dollar sign followed by letters, digits and
underscores, as many as there are. A text is the sequence of its variables and of what stands
between them.
-/

namespace PromQL

/-- A stretch of a templated text: a variable by its name, or text without variables. -/
inductive Segment where
  | literal (text : Text)
  | dollar (name : Text)
  deriving DecidableEq, Repr

namespace Segment

/-- A segment as it is written. -/
def text : Segment → Text
  | literal t => t
  | .dollar name => '$' :: name

/-- The variable that a segment is, as it is written. -/
def asVariable? : Segment → Option Text
  | literal _ => none
  | .dollar name => some ('$' :: name)

@[simp] theorem text_literal (t : Text) : (literal t).text = t := rfl

@[simp] theorem text_dollar (name : Text) : (Segment.dollar name).text = '$' :: name := rfl

/-- The run of name characters that a text starts with, and the segments after it. -/
def split : Text → Text × List Segment
  | [] => ([], [])
  | c :: cs =>
    let (run, segments) := split cs
    if isWordChar c then (c :: run, segments)
    else if c == '$' && !run.isEmpty then ([], .dollar run :: segments)
    else ([], .literal (c :: run) :: segments)

/-- The segments of a text. -/
def ofText (text : Text) : List Segment := .literal (split text).1 :: (split text).2

theorem split_text (text : Text) :
    (split text).1 ++ (split text).2.flatMap Segment.text = text := by
  induction text with
  | nil => rfl
  | cons c cs ih =>
    simp only [split]
    split
    · simpa using ih
    · split
      · next h =>
        have : c = '$' := by simp at h; exact h.1
        simp [this, ih]
      · simp [ih]

/-- The segments of a text make it up. -/
theorem flatMap_text_ofText (text : Text) : (ofText text).flatMap Segment.text = text := by
  simpa [ofText] using split_text text

end Segment

/-- The variables of a text, as they are written, repeated ones included. -/
def variablesOf (text : Text) : List Text := (Segment.ofText text).filterMap Segment.asVariable?

end PromQL

import PromQL.Template.Variable
import PromQL.Text.Digits
import PromQL.Text.Editing

/-!
# Placeholders

A query is parsed with an identifier in the place of each template variable. The identifiers share
a stem that does not occur in the text, and end in the place of the variable among all variables,
counted from zero. Unmasking puts the variables back in one pass: the longest run of digits after
a stem decides which variable is meant.
-/

namespace PromQL

/-- The variables that stand behind the placeholders of one text, in order, and the stem of the
placeholders. -/
structure Placeholders where
  stem : Text
  occurrences : List Text
  deriving DecidableEq, Repr

namespace Placeholders

/-! ### Stems -/

/-- The stem with so many underscores. -/
def stemOf (underscores : Nat) : Text := "VAR".toList ++ List.replicate underscores '_'

/-- The shortest stem with at least so many underscores that does not occur in a text, or the last
one that is tried. -/
def freshStemFrom (text : Text) : Nat → Nat → Text
  | 0, underscores => stemOf underscores
  | tries + 1, underscores =>
    if occursIn (stemOf underscores) text then freshStemFrom text tries (underscores + 1)
    else stemOf underscores

/-- The shortest stem that does not occur in a text. A stem that is longer than the text does not,
so there are always enough tries. -/
def freshStem (text : Text) : Text := freshStemFrom text text.length 0

/-! ### Masking -/

/-- The placeholder for the variable in the given place. -/
def key (stem : Text) (index : Nat) : Text := stem ++ decimal index

/-- Writes segments with placeholders for variables, the first of which is in the given place. -/
def fill (stem : Text) : Nat → List Segment → Text
  | _, [] => []
  | index, .literal t :: segments => t ++ fill stem index segments
  | index, .dollar _ :: segments => key stem index ++ fill stem (index + 1) segments

/-- The placeholders of a text. -/
def ofText (text : Text) : Placeholders := ⟨freshStem text, variablesOf text⟩

/-- A text with its variables replaced by placeholders. -/
def mask (text : Text) : Text := fill (freshStem text) 0 (Segment.ofText text)

@[simp] theorem fill_nil (stem : Text) (index : Nat) : fill stem index [] = [] := rfl

@[simp] theorem fill_literal (stem : Text) (index : Nat) (t : Text) (segments : List Segment) :
    fill stem index (.literal t :: segments) = t ++ fill stem index segments := rfl

@[simp] theorem fill_dollar (stem : Text) (index : Nat) (name : Text)
    (segments : List Segment) :
    fill stem index (.dollar name :: segments) =
      key stem index ++ fill stem (index + 1) segments := rfl

/-! ### Look-up -/

/-- The placeholders with their variables, in order. -/
def pairs (m : Placeholders) : List (Text × Text) :=
  m.occurrences.zipIdx.map fun (v, i) => (key m.stem i, v)

/-- The place that is written behind a stem: decimal digits, with a plus sign in front or not, of
a number below `2⁶⁴`. -/
def index? (digits : Text) : Option Nat := do
  let n ← natural? 10 (match digits with | '+' :: cs => cs | cs => cs)
  if n < wordCount then some n else none

/-- The variable that a placeholder stands for. -/
def get? (m : Placeholders) (placeholder : Text) : Option Text := do
  let digits ← m.stem.isPrefixOf? placeholder
  let index ← index? digits
  m.occurrences[index]?

/-! ### Unmasking -/

/-- At a stem, the placeholder with all digits that follow becomes its variable; one that stands
for no variable stays. -/
def unmasking? (m : Placeholders) (text : Text) : Option Edit := do
  let rest ← m.stem.isPrefixOf? text
  let token := m.stem ++ rest.takeWhile Char.isDigit
  pure ⟨token, (m.get? token).getD token⟩

/-- A text with the variables put back. -/
def unmask (m : Placeholders) (text : Text) : Text :=
  if m.occurrences.isEmpty then text else editAll m.unmasking? text

theorem unmask_of_no_occurrences {m : Placeholders} (h : m.occurrences = []) (text : Text) :
    m.unmask text = text := by
  simp [unmask, h]

end Placeholders

end PromQL

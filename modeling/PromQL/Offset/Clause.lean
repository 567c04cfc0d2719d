import PromQL.Text.Basic

/-!
# Clauses in plain text

The parts of a query that the repair of offsets looks for, recognised in its text without parsing
it: an opening name, a range in brackets, a grouping clause and an offset clause. Each recogniser
reads from the start of a text and gives what it found and the text behind it; what was found,
blanks included, followed by that rest is the text again.
-/

namespace PromQL

namespace Offset

/-! ### Names and ranges -/

/-- An identifier and the parenthesis right behind it. -/
def opening? (text : Text) : Option (Text × Text) :=
  if (text.head?.map isWordStart).getD false then
    match run? isWordChar text with
    | some (name, '(' :: rest) => some (name, rest)
    | _ => none
  else none

/-- Brackets around a nonempty text, which ends at the first closing bracket. -/
def range? (text : Text) : Option (Text × Text) := do
  let rest ← after? "[" text
  let (inner, rest) ← run? (· != ']') rest
  let rest ← after? "]" rest
  pure ('[' :: inner ++ [']'], rest)

end Offset

/-! ### Grouping -/

/-- A grouping clause behind an aggregation, with the blanks before its word and before its
parenthesis. -/
structure GroupingClause where
  before : Text
  word : Text
  between : Text
  labels : Text
  deriving DecidableEq, Repr

namespace GroupingClause

/-- The clause as it stands in the text. -/
def source (c : GroupingClause) : Text :=
  c.before ++ c.word ++ c.between ++ '(' :: c.labels ++ [')']

/-- The word of a grouping clause. -/
def word? (text : Text) : Option (Text × Text) :=
  match after? "by" text with
  | some rest => some ("by".toList, rest)
  | none => (after? "without" text).map fun rest => ("without".toList, rest)

/-- Reads a grouping clause with at least one label. -/
def read? (text : Text) : Option (GroupingClause × Text) := do
  let (before, rest) ← run? isBlank text
  let (word, rest) ← word? rest
  let (between, rest) ← run? isBlank rest
  let rest ← after? "(" rest
  let (labels, rest) ← run? (· != ')') rest
  let rest ← after? ")" rest
  pure (⟨before, word, between, labels⟩, rest)

end GroupingClause

/-! ### Offset -/

/-- An offset clause, with the blanks before its word and before its duration. -/
structure OffsetClause where
  before : Text
  between : Text
  duration : Text
  deriving DecidableEq, Repr

namespace OffsetClause

/-- The clause as it stands in the text. -/
def source (c : OffsetClause) : Text :=
  c.before ++ "offset".toList ++ c.between ++ c.duration

/-- The clause as it is written into a selector. -/
def text (c : OffsetClause) : Text := " offset ".toList ++ c.duration

/-- Reads an offset clause, whose duration may be a template variable. -/
def read? (text : Text) : Option (OffsetClause × Text) := do
  let (before, rest) ← run? isBlank text
  let rest ← after? "offset" rest
  let (between, rest) ← run? isBlank rest
  let (duration, rest) ← run? (fun c => c.isAlphanum || c == '_' || c == '$') rest
  pure (⟨before, between, duration⟩, rest)

end OffsetClause

end PromQL

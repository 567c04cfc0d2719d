import PromQL.Expr.Basic

/-!
# Expressions on one line

The canonical text of an expression on a single line. The parts that a layout over several lines
shares with it, the clauses of operators and aggregations, are functions of their own, which take
the texts of the operands.
-/

namespace PromQL

/-! ### Modifiers of selectors -/

/-- A time as it is written, in seconds with three decimal places. -/
def Instant.text : Instant → Text
  | .queryStart => "@ start()".toList
  | .queryEnd => "@ end()".toList
  | .epoch t =>
    let seconds := Duration.toSeconds ⟨t.natAbs⟩
    "@ ".toList ++ (if t < 0 then seconds.negate else seconds).threePlaces

/-- An offset as it is written. -/
def Offset.text (o : Offset) : Text :=
  "offset ".toList ++ (if o.negative then ['-'] else []) ++ o.duration.text

/-- The modifiers, each with a space in front. -/
def Modifiers.text (m : Modifiers) : Text :=
  (m.time.map fun t => ' ' :: t.text).getD [] ++ (m.offset.map fun o => ' ' :: o.text).getD []

/-- A selector without its modifiers. -/
def Selector.body (s : Selector) : Text := selectorText s.name s.matchers

@[simp] theorem Modifiers.text_empty : Modifiers.empty.text = [] := rfl

/-! ### Clauses -/

/-- A word and labels in parentheses behind it. -/
def clause (word : String) (labels : List Text) : Text :=
  word.toList ++ '(' :: labelsText labels ++ [')']

/-- The grouping clause of an aggregation. -/
def LabelChoice.groupingText : LabelChoice → Text
  | .only labels => clause "by " labels
  | .allBut labels => clause "without " labels

/-- The matching clause of a binary operator. Ignoring no labels is the same as having no clause,
so it is not written. -/
def LabelChoice.matchingText? : LabelChoice → Option Text
  | .only labels => some (clause "on" labels)
  | .allBut [] => none
  | .allBut labels => some (clause "ignoring" labels)

/-- The word that says which side has many series. -/
def Side.text : Side → String
  | .left => "group_left"
  | .right => "group_right"

/-- The group modifier of a binary operator. -/
def Grouping.text (g : Grouping) : Text :=
  if g.labels.isEmpty then g.many.text.toList else clause g.many.text g.labels

/-- The matching clause of a binary operator, if there is one to write. -/
def BinaryModifiers.matchingText? (m : BinaryModifiers) : Option Text :=
  m.matching.bind LabelChoice.matchingText?

/-- A text that may be missing, with a space in front. -/
def spaced (t : Option Text) : Text := (t.map (' ' :: ·)).getD []

/-- A binary operator and its modifiers, with the matching clause or without it. -/
def BinaryModifiers.operatorText (m : BinaryModifiers) (op : BinaryOp) (matching : Bool) : Text :=
  op.text ++ (if m.returnBool then " bool".toList else []) ++
    (if matching then spaced m.matchingText? else []) ++ spaced (m.grouping.map Grouping.text)

@[simp] theorem spaced_none : spaced none = [] := rfl

@[simp] theorem spaced_some (t : Text) : spaced (some t) = ' ' :: t := rfl

/-! ### Nodes around texts -/

/-- An aggregation around the texts of its parameter and of what it aggregates. -/
def aggregateText (op : AggregateOp) (grouping : Option LabelChoice) (parameter : Option Text)
    (inner : Text) : Text :=
  op.text ++ (grouping.map fun g => ' ' :: g.groupingText ++ [' ']).getD [] ++
    '(' :: (parameter.map (· ++ ", ".toList)).getD [] ++ inner ++ [')']

/-- A call around the texts of its arguments. -/
def callText (function : Text) (arguments : List Text) : Text :=
  function ++ '(' :: ", ".toList.intercalate arguments ++ [')']

/-- A subquery behind the text of what it evaluates. -/
def subqueryText (inner : Text) (range : Duration) (step : Option Duration)
    (modifiers : Modifiers) : Text :=
  inner ++ '[' :: range.text ++ ':' :: (step.map Duration.text).getD [] ++ ']' :: modifiers.text

/-- The text of a node that another program has added. -/
def extensionText (description : Text) : Text :=
  "Extension \x7b expr: ".toList ++ description ++ " \x7d".toList

/-! ### Expressions -/

namespace Expr

mutual

/-- An expression on one line. -/
def line : Expr → Text
  | number value => value.numeral
  | string value => quote value
  | vector s => s.body ++ s.modifiers.text
  | matrix s range => s.body ++ '[' :: range.text ++ ']' :: s.modifiers.text
  | subquery inner range step modifiers => subqueryText inner.line range step modifiers
  | paren inner => '(' :: inner.line ++ [')']
  | negate inner => '-' :: inner.line
  | call function arguments => callText function (lines arguments)
  | aggregate op grouping parameter inner =>
    aggregateText op grouping (optionLine parameter) inner.line
  | binary op modifiers left right =>
    left.line ++ ' ' :: modifiers.operatorText op true ++ ' ' :: right.line
  | extension description => extensionText description

/-- Several expressions, each on one line. -/
def lines : List Expr → List Text
  | [] => []
  | e :: es => e.line :: lines es

/-- An expression that may be missing, on one line. -/
def optionLine : Option Expr → Option Text
  | none => none
  | some e => some e.line

end

theorem lines_eq_map (es : List Expr) : lines es = es.map line := by
  induction es with
  | nil => rfl
  | cons e es ih => simp [lines, ih]

theorem optionLine_eq_map (e : Option Expr) : optionLine e = e.map line := by
  cases e <;> rfl

end Expr

end PromQL

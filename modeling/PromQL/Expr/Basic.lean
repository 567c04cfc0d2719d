import PromQL.Duration.Basic
import PromQL.Expr.Operator
import PromQL.Label.Matcher

/-!
# Expressions

The expressions of the query language as trees. Parentheses are nodes of the tree, and nothing is
checked here: whether an expression makes sense is said by its typing.
-/

namespace PromQL

/-! ### Selectors -/

/-- The time at which a selector is evaluated: the start or the end of the query, or a time in
nanoseconds since the Unix epoch. -/
inductive Instant where
  | queryStart
  | queryEnd
  | epoch (nanoseconds : Int)
  deriving DecidableEq, Repr

/-- How far back a selector looks, or forward if the offset is negative. -/
structure Offset where
  negative : Bool
  duration : Duration
  deriving DecidableEq, Repr

/-- The modifiers behind a selector or subquery. -/
structure Modifiers where
  time : Option Instant
  offset : Option Offset
  deriving DecidableEq, Repr

/-- No modifiers. -/
def Modifiers.empty : Modifiers := ⟨none, none⟩

/-- A set of series: the name of the metric, matchers and modifiers. -/
structure Selector where
  name : Option Text
  matchers : Matchers
  modifiers : Modifiers
  deriving DecidableEq, Repr

/-! ### Clauses -/

/-- Some labels, or all labels but some. -/
inductive LabelChoice where
  | only (labels : List Text)
  | allBut (labels : List Text)
  deriving DecidableEq, Repr

/-- The side of a binary expression that has many series for one of the other side. -/
inductive Side where
  | left | right
  deriving DecidableEq, Repr

/-- The side with many series, and the labels that it takes over from the other one. -/
structure Grouping where
  many : Side
  labels : List Text
  deriving DecidableEq, Repr

/-- What may stand between a binary operator and its right operand. -/
structure BinaryModifiers where
  returnBool : Bool
  matching : Option LabelChoice
  grouping : Option Grouping
  deriving DecidableEq, Repr

/-- No modifiers. -/
def BinaryModifiers.empty : BinaryModifiers := ⟨false, none, none⟩

/-! ### Trees -/

/-- An expression. -/
inductive Expr where
  | number (value : Double)
  | string (value : Text)
  | vector (selector : Selector)
  | matrix (selector : Selector) (range : Duration)
  | subquery (inner : Expr) (range : Duration) (step : Option Duration) (modifiers : Modifiers)
  | paren (inner : Expr)
  | negate (inner : Expr)
  | call (function : Text) (arguments : List Expr)
  | aggregate (op : AggregateOp) (grouping : Option LabelChoice) (parameter : Option Expr)
      (inner : Expr)
  | binary (op : BinaryOp) (modifiers : BinaryModifiers) (left right : Expr)
  /-- A node that another program has added; only its description is known. -/
  | extension (description : Text)
  deriving Repr

end PromQL

import PromQL.Expr.Typing
import PromQL.Token.Lexer

/-!
# The shape of parsed expressions

Trees that the grammar builds have a shape: operands bind tightly enough for the place where they
stand, names are words that the lexer takes for names, and alternatives between matchers are there
in a form of their own. Trees of this shape can be written without further parentheses.
-/

namespace PromQL

/-! ### Levels -/

/-- The least level of the left operand of an operator; a power wants an operand without operators
and signs. -/
def BinaryOp.leftPrecedence : BinaryOp → Nat
  | pow => 7
  | op => op.precedence

/-- How tightly an expression binds: operators by their precedence, a sign like a power, and
everything else more tightly. -/
def Expr.level : Expr → Nat
  | binary op _ _ _ => op.precedence
  | negate _ | number (.infinite true) | number (.finite true _) => 6
  | _ => 7

/-- Whether an expression is a number. -/
def Expr.isNumber : Expr → Bool
  | number _ => true
  | _ => false

/-! ### Names -/

/-- A word that the lexer takes for a name which a metric may have. -/
def IsMetricWord (name : Text) : Prop :=
  isBareMetric name ∧ (Lexeme.ofWord name).metricName? = some name

/-- A word that the lexer takes for a plain name. -/
def IsPlainWord (name : Text) : Prop :=
  isBareMetric name ∧ Lexeme.ofWord name = .identifier name

/-! ### Selectors -/

/-- Matchers as they are read: one group, or at least two alternatives. -/
def Matchers.Formed (ms : Matchers) : Prop :=
  ms.alternatives = [] ∨
    ms.group = [] ∧ 2 ≤ ms.alternatives.length ∧ ∀ group ∈ ms.alternatives, group ≠ []

/-- A selector has a name or a matcher. -/
structure Selector.Formed (s : Selector) : Prop where
  name : ∀ name ∈ s.name, IsMetricWord name
  matchers : s.matchers.Formed
  nonempty : s.name = none → s.matchers.flatten ≠ []

/-! ### Expressions -/

namespace Expr

mutual

/-- The shape of an expression that has been read and makes sense. -/
def Formed : Expr → Prop
  | number _ | string _ => True
  | vector s | matrix s _ => s.Formed
  | subquery inner _ _ _ => inner.Formed ∧ inner.level = 7 ∧ inner.isNumber = false
  | paren inner => inner.Formed
  | negate inner => inner.Formed ∧ 6 ≤ inner.level ∧ inner.isNumber = false
  | call function arguments => IsPlainWord function ∧ AllFormed arguments
  | aggregate op _ parameter inner =>
    op.reserved = false ∧ parameter.isSome = op.hasParameter ∧ ParameterFormed parameter ∧
      inner.Formed
  | binary op modifiers left right =>
    left.Formed ∧ right.Formed ∧ op.leftPrecedence ≤ left.level ∧
      op.rightPrecedence ≤ right.level ∧ (op.isSetOp → modifiers.grouping = none)
  | extension _ => False

/-- The shape of several expressions. -/
def AllFormed : List Expr → Prop
  | [] => True
  | e :: es => e.Formed ∧ AllFormed es

/-- The shape of an expression that may be missing. -/
def ParameterFormed : Option Expr → Prop
  | none => True
  | some e => e.Formed

end

end Expr

end PromQL

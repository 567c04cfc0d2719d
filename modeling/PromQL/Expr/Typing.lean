import PromQL.Expr.Basic
import PromQL.Function
import PromQL.Pattern.Reading

/-!
# Typing

Which expressions make sense: operators, aggregations and functions want operands of certain
types, matchers must have patterns that can be read, and a selector must not select everything.
-/

namespace PromQL

/-! ### Selectors -/

/-- Whether a matcher accepts a label that is empty or missing; there is no answer if its pattern
cannot be read. -/
def Matcher.matchesEmpty? (m : Matcher) : Option Bool :=
  match m.op with
  | .equal => some m.value.isEmpty
  | .notEqual => some !m.value.isEmpty
  | .regex => (Pattern.ofValue? m.value).map Pattern.matchesEmpty
  | .notRegex => (Pattern.ofValue? m.value).map fun p => !p.matchesEmpty

/-- A selector has patterns that can be read. If it has a name, no matcher is about the name of the
metric, and otherwise one of its matchers refuses the empty text. -/
def Selector.wellFormed (s : Selector) : Bool :=
  let matchers := s.matchers.flatten
  matchers.all (fun m => m.matchesEmpty?.isSome) &&
    match s.name with
    | some _ => matchers.all fun m => m.name != metricLabel
    | none => matchers.any fun m => m.matchesEmpty? == some false

/-! ### Operators -/

/-- Whether labels are chosen at all. -/
def LabelChoice.isNonempty : LabelChoice → Bool
  | .only labels | .allBut labels => !labels.isEmpty

/-- Whether a label stands in the list of labels to match on and in the one of the group. -/
def BinaryModifiers.overlap (m : BinaryModifiers) : Bool :=
  match m.matching, m.grouping with
  | some (.only labels), some g => labels.any g.labels.contains
  | _, _ => false

/-- Whether the operands of a binary operator have types that fit the operator and its
modifiers. -/
def BinaryModifiers.admit (m : BinaryModifiers) (op : BinaryOp) (left right : ValueType) : Bool :=
  let scalars := left == .scalar && right == .scalar
  let vectors := left == .vector && right == .vector
  let isOperand := fun t : ValueType => t == .scalar || t == .vector
  isOperand left && isOperand right &&
    (op.isComparison || !m.returnBool) &&
    (!(op.isComparison && scalars) || m.returnBool) &&
    (!op.isSetOp || vectors && m.grouping.isNone) &&
    !m.overlap &&
    (vectors || !(m.matching.map LabelChoice.isNonempty).getD false)

/-- The type of the parameter of an aggregation. -/
def AggregateOp.parameterType : AggregateOp → ValueType
  | .countValues => .string
  | _ => .scalar

namespace Expr

/-- Whether a call is decided by its argument alone: exponentials of no finite number and
logarithms of no positive one. The types of its arguments are not looked at. -/
def isSpecialCall (function : Text) : List Expr → Bool
  | number value :: _ =>
    match value with
    | .nan | .infinite _ => ["exp", "ln", "log2", "log10"].any (·.toList == function)
    | .finite negative rank =>
      (negative || rank.val == 0) && ["ln", "log2", "log10"].any (·.toList == function)
  | _ => false

/-- The type of the value of an expression. -/
def type : Expr → ValueType
  | number _ => .scalar
  | string _ => .string
  | vector _ | aggregate .. | extension _ => .vector
  | matrix .. | subquery .. => .matrix
  | paren inner | negate inner => inner.type
  | call function _ => ((Signature.ofName? function).map Signature.result).getD .vector
  | binary _ _ left right =>
    if left.type == .scalar && right.type == .scalar then .scalar else .vector

mutual

/-- Whether an expression makes sense. -/
def wellTyped : Expr → Bool
  | number _ | string _ => true
  | vector s | matrix s _ => s.wellFormed
  | subquery inner _ _ _ => inner.wellTyped && inner.type == .vector
  | paren inner => inner.wellTyped
  | negate inner => inner.wellTyped && (inner.type == .scalar || inner.type == .vector)
  | call function arguments =>
    allWellTyped arguments &&
      match Signature.ofName? function with
      | some s =>
        s.takes arguments.length &&
          (isSpecialCall function arguments || s.admits (arguments.map type))
      | none => false
  | aggregate op _ parameter inner =>
    inner.wellTyped && inner.type == .vector && parameterWellTyped op parameter
  | binary op modifiers left right =>
    left.wellTyped && right.wellTyped && modifiers.admit op left.type right.type
  | extension _ => false

/-- Whether several expressions make sense. -/
def allWellTyped : List Expr → Bool
  | [] => true
  | e :: es => e.wellTyped && allWellTyped es

/-- Whether the parameter of an aggregation makes sense, and is there if and only if the operator
has one. -/
def parameterWellTyped (op : AggregateOp) : Option Expr → Bool
  | none => !op.hasParameter
  | some e => op.hasParameter && e.wellTyped && e.type == op.parameterType

end

theorem allWellTyped_eq_all (es : List Expr) : allWellTyped es = es.all wellTyped := by
  induction es with
  | nil => rfl
  | cons e es ih => simp [allWellTyped, ih]

end Expr

end PromQL

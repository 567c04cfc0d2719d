import PromQL.Expr.Line

/-!
# Expressions over several lines

The layout of an expression breaks lines at operators and parentheses, not by width. Parentheses
and the arguments of calls are one level deeper than what is around them; the operands of an
operator are on its level.
-/

namespace PromQL

/-- The blanks in front of a line at some depth. -/
def indentation (indent depth : Nat) : Text := List.replicate (depth * indent) ' '

@[simp] theorem indentation_zero (indent : Nat) : indentation indent 0 = [] := by
  simp [indentation]

/-- A binary operator between the laid out texts of its operands. Set union and intersection stand
between blank lines, quotients and differences on a line of their own, comparisons at the start of
a line, and all other operators within it. -/
def BinaryModifiers.layout (m : BinaryModifiers) (op : BinaryOp) (margin left right : Text) :
    Text :=
  match op with
  | .and | .or =>
    let matching := (m.matchingText?.map ("\n\n".toList ++ ·)).getD []
    left ++ "\n\n".toList ++ m.operatorText op false ++ matching ++ "\n\n".toList ++ right
  | .div | .sub => left ++ '\n' :: margin ++ m.operatorText op true ++ '\n' :: right
  | .equal | .notEqual | .greater | .less | .greaterEqual | .lessEqual =>
    left ++ '\n' :: margin ++ m.operatorText op true ++ ' ' :: right
  | _ => left ++ ' ' :: m.operatorText op true ++ ' ' :: right

namespace Expr

mutual

/-- An expression at some depth over several lines. Selectors, literals, subqueries and negations
stay on one line, and so does the parameter of an aggregation. -/
def layout (indent depth : Nat) : Expr → Text
  | paren inner =>
    "(\n".toList ++ indentation indent (depth + 1) ++ inner.layout indent (depth + 1) ++
      '\n' :: indentation indent depth ++ [')']
  | call function arguments => callText function (layouts indent (depth + 1) arguments)
  | aggregate op grouping parameter inner =>
    aggregateText op grouping (parameter.map line) (inner.layout indent depth)
  | binary op modifiers left right =>
    modifiers.layout op (indentation indent depth) (left.layout indent depth)
      (right.layout indent depth)
  | e => e.line

/-- Several expressions at the same depth. -/
def layouts (indent depth : Nat) : List Expr → List Text
  | [] => []
  | e :: es => e.layout indent depth :: layouts indent depth es

end

theorem layouts_eq_map (indent depth : Nat) (es : List Expr) :
    layouts indent depth es = es.map (layout indent depth) := by
  induction es with
  | nil => rfl
  | cons e es ih => simp [layouts, ih]

/-- Whether an expression reads well on one line: all do but operators and parentheses. -/
def isCompact : Expr → Bool
  | binary .. | paren _ => false
  | _ => true

/-- An expression on one line if it is simple, and laid out over several otherwise. -/
def format (indent : Nat) (e : Expr) : Text :=
  if e.isCompact then e.line else e.layout indent 0

end Expr

end PromQL

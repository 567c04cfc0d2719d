import Mathlib
import PromQL.Expr.Layout
import PromQL.Options
import PromQL.Proofs.Text.Spacing

/-!
# Layouts and lines

A layout over several lines has the same words in the same order as the expression on one line; the
two differ in their spacing only. The one exception are unions and intersections with a group
modifier, which no query has: there the layout would write the matching clause behind it.
-/

namespace PromQL

/-! ### Unions and intersections -/

/-- Whether an operator stands between blank lines in a layout. -/
def BinaryOp.isSpacious : BinaryOp → Bool
  | .and | .or => true
  | _ => false

namespace Expr

mutual

/-- No union or intersection in the expression has a group modifier. -/
def UngroupedSets : Expr → Prop
  | number _ | string _ | vector _ | matrix .. | extension _ => True
  | subquery inner .. | paren inner | negate inner => inner.UngroupedSets
  | call _ arguments => AllUngroupedSets arguments
  | aggregate _ _ parameter inner => OptionUngroupedSets parameter ∧ inner.UngroupedSets
  | binary op modifiers left right =>
    (op.isSpacious → modifiers.grouping = none) ∧ left.UngroupedSets ∧ right.UngroupedSets

/-- The same of several expressions. -/
def AllUngroupedSets : List Expr → Prop
  | [] => True
  | e :: es => e.UngroupedSets ∧ AllUngroupedSets es

/-- The same of an expression that may be missing. -/
def OptionUngroupedSets : Option Expr → Prop
  | none => True
  | some e => e.UngroupedSets

end

end Expr

/-! ### The parts of a layout -/

namespace SameSpacing

theorem isSpacing_of_mem_lineBreak (indent depth : Nat) :
    ∀ c ∈ '\n' :: indentation indent depth, isSpacing c := by
  intro c hc
  rcases List.mem_cons.mp hc with rfl | hc
  · rfl
  · rw [List.eq_of_mem_replicate hc]
    rfl

/-- A line break and the blanks behind it. -/
theorem lineBreak (indent depth : Nat) : SameSpacing ('\n' :: indentation indent depth) [' '] :=
  spacing (List.cons_ne_nil _ _) (isSpacing_of_mem_lineBreak indent depth)

theorem blankLine : SameSpacing "\n\n".toList [' '] :=
  spacing (by decide) (List.all_eq_true.mp rfl)

variable {left left' right right' inner inner' : Text}

/-- An operator on a line of its own, or at the start of one, is as spaced as within a line. -/
theorem operator (op : Text) (indent depth : Nat) {gap : Text} (hgap : SameSpacing gap [' '])
    (hleft : SameSpacing left left') (hright : SameSpacing right right') :
    SameSpacing (left ++ '\n' :: indentation indent depth ++ op ++ (gap ++ right))
      (left' ++ ' ' :: op ++ ' ' :: right') := by
  have h := ((hleft.append (lineBreak indent depth)).append (refl op)).append (hgap.append hright)
  simpa using h

/-- Between blank lines the matching clause is set apart from the operator as well. -/
theorem setOperator (op : BinaryOp) (m : BinaryModifiers) (hm : m.grouping = none)
    (hleft : SameSpacing left left') (hright : SameSpacing right right') :
    SameSpacing
      (left ++ "\n\n".toList ++ m.operatorText op false ++
        (m.matchingText?.map ("\n\n".toList ++ ·)).getD [] ++ "\n\n".toList ++ right)
      (left' ++ ' ' :: m.operatorText op true ++ ' ' :: right') := by
  have hmatching : SameSpacing ((m.matchingText?.map ("\n\n".toList ++ ·)).getD [])
      (spaced m.matchingText?) := by
    cases m.matchingText? with
    | none => exact refl []
    | some clause => exact blankLine.append (refl clause)
  have h := (((hleft.append blankLine).append (refl (m.operatorText op false))).append
    hmatching).append (blankLine.append hright)
  simpa [BinaryModifiers.operatorText, hm] using h

theorem binaryLayout (op : BinaryOp) (m : BinaryModifiers)
    (hm : op.isSpacious → m.grouping = none) (indent depth : Nat)
    (hleft : SameSpacing left left') (hright : SameSpacing right right') :
    SameSpacing (m.layout op (indentation indent depth) left right)
      (left' ++ ' ' :: m.operatorText op true ++ ' ' :: right') := by
  have hbreak : SameSpacing ['\n'] [' '] := spacing (by decide) (List.all_eq_true.mp rfl)
  cases op
  case and | or => exact setOperator _ m (hm rfl) hleft hright
  case div | sub => exact operator _ indent depth hbreak hleft hright
  case equal | notEqual | greater | less | greaterEqual | lessEqual =>
    exact operator _ indent depth (refl [' ']) hleft hright
  all_goals exact (hleft.append (refl _)).append (hright.cons ' ')

theorem parens (indent depth : Nat) (h : SameSpacing inner inner') :
    SameSpacing ("(\n".toList ++ indentation indent (depth + 1) ++ inner ++
      '\n' :: indentation indent depth ++ [')']) ('(' :: inner' ++ [')']) := by
  have hopen : SameSpacing ('(' :: '\n' :: indentation indent (depth + 1)) ['('] :=
    behind_open (isSpacing_of_mem_lineBreak indent (depth + 1))
  have hclose : SameSpacing ('\n' :: indentation indent depth ++ [')']) [')'] :=
    before_close (isSpacing_of_mem_lineBreak indent depth)
  simpa using (hopen.append h).append hclose

theorem call (function : Text) {texts texts' : List Text}
    (h : List.Forall₂ SameSpacing texts texts') :
    SameSpacing (callText function texts) (callText function texts') := by
  have harguments := (intercalate ", ".toList h).append (refl [')'])
  simpa [callText] using (refl function).append (harguments.cons '(')

theorem aggregate (op : AggregateOp) (grouping : Option LabelChoice) (parameter : Option Text)
    (h : SameSpacing inner inner') :
    SameSpacing (aggregateText op grouping parameter inner)
      (aggregateText op grouping parameter inner') :=
  ((refl _).append h).append (refl [')'])

end SameSpacing

namespace Expr

mutual

/-- A layout differs from the line in its spacing only. -/
theorem sameSpacing_layout (indent depth : Nat) :
    ∀ e : Expr, e.UngroupedSets → SameSpacing (e.layout indent depth) e.line
  | number _, _ | string _, _ | vector _, _ | matrix .., _ | subquery .., _ | negate _, _
  | extension _, _ => .refl _
  | paren inner, h => .parens indent depth (sameSpacing_layout indent (depth + 1) inner h)
  | call function arguments, h =>
    .call function (sameSpacing_layouts indent (depth + 1) arguments h)
  | aggregate op grouping parameter inner, h => by
    rw [layout, line, ← optionLine_eq_map]
    exact .aggregate op grouping _ (sameSpacing_layout indent depth inner h.2)
  | binary op modifiers left right, h =>
    .binaryLayout op modifiers h.1 indent depth (sameSpacing_layout indent depth left h.2.1)
      (sameSpacing_layout indent depth right h.2.2)

theorem sameSpacing_layouts (indent depth : Nat) :
    ∀ es : List Expr, AllUngroupedSets es →
      List.Forall₂ SameSpacing (layouts indent depth es) (lines es)
  | [], _ => .nil
  | e :: es, h =>
    .cons (sameSpacing_layout indent depth e h.1) (sameSpacing_layouts indent depth es h.2)

end

/-- The layout of an expression at any depth has the normal spacing of the expression on one line,
and so has the format, whichever of the two it takes. -/
theorem normalSpacing_layout (options : Options) (depth : Nat) {e : Expr} (h : e.UngroupedSets) :
    normalSpacing (e.layout options.indent depth) = normalSpacing e.line ∧
      normalSpacing (e.format options.indent) = normalSpacing e.line := by
  have hlayout : ∀ depth, normalSpacing (e.layout options.indent depth) = normalSpacing e.line :=
    fun depth => (sameSpacing_layout options.indent depth e h).normalSpacing_eq
  refine ⟨hlayout depth, ?_⟩
  rw [format]
  split
  · rfl
  · exact hlayout 0

/-- A quotient with a group modifier, the left side of which is an intersection in parentheses. -/
def quotientOfSets : Expr :=
  binary .div ⟨false, some (.only [['x']]), some ⟨.left, []⟩⟩
    (paren (binary .and ⟨false, some (.only [['x']]), none⟩
      (vector ⟨some ['a'], .empty, .empty⟩) (vector ⟨some ['b'], .empty, .empty⟩)))
    (call "abs".toList [paren (vector ⟨some ['c'], .empty, .empty⟩)])

theorem normalSpacing_quotientOfSets :
    quotientOfSets.UngroupedSets ∧
      normalSpacing (quotientOfSets.layout 4 2) = normalSpacing quotientOfSets.line ∧
      normalSpacing (quotientOfSets.format 4) = normalSpacing quotientOfSets.line := by
  have hsets : quotientOfSets.UngroupedSets := by
    simp [quotientOfSets, UngroupedSets, AllUngroupedSets, BinaryOp.isSpacious]
  exact ⟨hsets, normalSpacing_layout .default 2 hsets⟩

end Expr

end PromQL

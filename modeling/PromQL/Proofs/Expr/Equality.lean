import PromQL.Expr.Basic

/-!
# Equality of expressions

Whether two expressions are equal can be computed, node by node.
-/

namespace PromQL

namespace Expr

mutual

/-- Whether two expressions have the same nodes. -/
def beq : Expr → Expr → Bool
  | number v, number w => v = w
  | string v, string w => v = w
  | vector s, vector t => s = t
  | matrix s range, matrix t range' => s = t && range = range'
  | subquery inner range step m, subquery inner' range' step' m' =>
    inner.beq inner' && range = range' && step = step' && m = m'
  | paren inner, paren inner' => inner.beq inner'
  | negate inner, negate inner' => inner.beq inner'
  | call function arguments, call function' arguments' =>
    function = function' && beqAll arguments arguments'
  | aggregate op grouping parameter inner, aggregate op' grouping' parameter' inner' =>
    op = op' && grouping = grouping' && beqOption parameter parameter' && inner.beq inner'
  | binary op m left right, binary op' m' left' right' =>
    op = op' && m = m' && left.beq left' && right.beq right'
  | extension description, extension description' => description = description'
  | _, _ => false

/-- Whether several expressions have the same nodes. -/
def beqAll : List Expr → List Expr → Bool
  | [], [] => true
  | e :: es, e' :: es' => e.beq e' && beqAll es es'
  | _, _ => false

/-- Whether two expressions that may be missing have the same nodes. -/
def beqOption : Option Expr → Option Expr → Bool
  | none, none => true
  | some e, some e' => e.beq e'
  | _, _ => false

end

mutual

theorem beq_iff (e e' : Expr) : e.beq e' ↔ e = e' := by
  match e with
  | number _ | string _ | vector _ | matrix _ _ | extension _ => cases e' <;> simp [beq]
  | subquery inner _ _ _ =>
    cases e' with
    | subquery inner' _ _ _ => simp [beq, beq_iff inner inner', and_assoc]
    | _ => simp [beq]
  | paren inner =>
    cases e' with
    | paren inner' => simp [beq, beq_iff inner inner']
    | _ => simp [beq]
  | negate inner =>
    cases e' with
    | negate inner' => simp [beq, beq_iff inner inner']
    | _ => simp [beq]
  | call _ arguments =>
    cases e' with
    | call _ arguments' => simp [beq, beqAll_iff arguments arguments']
    | _ => simp [beq]
  | aggregate _ _ none inner =>
    cases e' with
    | aggregate _ _ p' inner' => cases p' <;> simp [beq, beqOption, beq_iff inner inner', and_assoc]
    | _ => simp [beq]
  | aggregate _ _ (some p) inner =>
    cases e' with
    | aggregate _ _ p' inner' =>
      cases p' with
      | none => simp [beq, beqOption]
      | some p' => simp [beq, beqOption, beq_iff p p', beq_iff inner inner', and_assoc]
    | _ => simp [beq]
  | binary _ _ left right =>
    cases e' with
    | binary _ _ left' right' =>
      simp [beq, beq_iff left left', beq_iff right right', and_assoc]
    | _ => simp [beq]

theorem beqAll_iff (es es' : List Expr) : beqAll es es' ↔ es = es' := by
  match es, es' with
  | [], [] => simp [beqAll]
  | [], _ :: _ => simp [beqAll]
  | _ :: _, [] => simp [beqAll]
  | e :: es, e' :: es' => simp [beqAll, beq_iff e e', beqAll_iff es es']

end

instance : DecidableEq Expr := fun e e' => decidable_of_iff _ (beq_iff e e')

end Expr

/-- Whether two readings have the same outcome can be computed. -/
instance instDecidableEqReading {ε α : Type} [DecidableEq ε] [DecidableEq α] :
    DecidableEq (Except ε α)
  | .ok a, .ok b => decidable_of_iff (a = b) (by simp)
  | .error a, .error b => decidable_of_iff (a = b) (by simp)
  | .ok _, .error _ => isFalse (by simp)
  | .error _, .ok _ => isFalse (by simp)

end PromQL

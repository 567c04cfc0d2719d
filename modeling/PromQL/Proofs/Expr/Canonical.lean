import PromQL.Proofs.Duration.Reading
import PromQL.Expr.Basic

/-!
# Canonical expressions

Writing an expression sorts its matchers, leaves out the ones that only repeat the name of the
metric, and leaves out an empty clause of labels to ignore. The canonical form of an expression is
what is left of it. Durations are cut to whole milliseconds as well, so two expressions have the
same meaning if their canonical forms agree after cutting.
-/

namespace PromQL

/-! ### Changes of parts -/

namespace Expr

/-- A change of the parts that the nodes of an expression are made of. -/
structure Change where
  selector : Selector → Selector
  duration : Duration → Duration
  step : Option Duration → Option Duration
  modifiers : Modifiers → Modifiers
  operator : BinaryModifiers → BinaryModifiers

mutual

/-- An expression with all of its parts changed. -/
def map (f : Change) : Expr → Expr
  | number value => number value
  | string value => string value
  | vector s => vector (f.selector s)
  | matrix s range => matrix (f.selector s) (f.duration range)
  | subquery inner range step modifiers =>
    subquery (inner.map f) (f.duration range) (f.step step) (f.modifiers modifiers)
  | paren inner => paren (inner.map f)
  | negate inner => negate (inner.map f)
  | call function arguments => call function (mapAll f arguments)
  | aggregate op grouping parameter inner =>
    aggregate op grouping (mapOption f parameter) (inner.map f)
  | binary op modifiers left right =>
    binary op (f.operator modifiers) (left.map f) (right.map f)
  | extension description => extension description

/-- Several expressions with all of their parts changed. -/
def mapAll (f : Change) : List Expr → List Expr
  | [] => []
  | e :: es => e.map f :: mapAll f es

/-- An expression that may be missing, with all of its parts changed. -/
def mapOption (f : Change) : Option Expr → Option Expr
  | none => none
  | some e => some (e.map f)

end

theorem mapAll_eq_map (f : Change) (es : List Expr) : mapAll f es = es.map (map f) := by
  induction es with
  | nil => rfl
  | cons e es ih => rw [mapAll, ih, List.map_cons]

end Expr

/-! ### Canonical forms -/

/-- The matchers that are written, sorted, without the groups of which nothing is left. -/
def Matchers.canonical (metric : Option Text) (ms : Matchers) : Matchers :=
  ⟨canonicalGroup metric ms.group,
    (ms.alternatives.map (canonicalGroup metric)).filter fun group => !group.isEmpty⟩

/-- A selector with its matchers as they are written. -/
def Selector.canonical (s : Selector) : Selector :=
  { s with matchers := s.matchers.canonical s.name }

/-- The modifiers without a clause that ignores no labels. -/
def BinaryModifiers.canonical (m : BinaryModifiers) : BinaryModifiers :=
  { m with matching := if m.matching = some (.allBut []) then none else m.matching }

/-- What is written of an expression. -/
def Expr.canonical (e : Expr) : Expr :=
  e.map ⟨Selector.canonical, id, id, id, BinaryModifiers.canonical⟩

namespace Expr

@[simp] theorem canonical_subquery (inner : Expr) (range : Duration) (step : Option Duration)
    (m : Modifiers) :
    (subquery inner range step m).canonical = subquery inner.canonical range step m := rfl

@[simp] theorem canonical_call (function : Text) (arguments : List Expr) :
    (call function arguments).canonical = call function (arguments.map canonical) := by
  rw [canonical, map, mapAll_eq_map]
  rfl

@[simp] theorem canonical_binary (op : BinaryOp) (m : BinaryModifiers) (left right : Expr) :
    (binary op m left right).canonical =
      binary op m.canonical left.canonical right.canonical := rfl

end Expr

/-! ### Whole milliseconds -/

/-- An offset cut to whole milliseconds. -/
def Offset.cut (o : Offset) : Offset := { o with duration := o.duration.cut }

/-- Modifiers with their offset cut to whole milliseconds. -/
def Modifiers.cut (m : Modifiers) : Modifiers := { m with offset := m.offset.map Offset.cut }

/-- A selector with its offset cut to whole milliseconds. -/
def Selector.cut (s : Selector) : Selector := { s with modifiers := s.modifiers.cut }

/-- An expression with all durations cut to whole milliseconds. -/
def Expr.cut (e : Expr) : Expr :=
  e.map ⟨Selector.cut, Duration.cut, Option.map Duration.cut, Modifiers.cut, id⟩

/-- Whether two expressions are equal up to the order of the matchers in a group, matchers that
repeat the name of the metric, empty clauses of labels to ignore, and durations cut to whole
milliseconds. -/
def Expr.Same (e e' : Expr) : Prop := e.canonical.cut = e'.canonical.cut

end PromQL

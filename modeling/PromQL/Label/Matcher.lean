import PromQL.Label.Name

/-!
# Matchers

A matcher compares the value of one label with a text. Matchers stand in groups, all of which have
to hold, and groups in alternatives, one of which has to hold. In the canonical form the matchers
of a group are sorted by name, then operator, then value.
-/

namespace PromQL

/-- How a matcher compares. -/
inductive MatchOp where
  | equal | notEqual | regex | notRegex
  deriving DecidableEq, Repr

namespace MatchOp

/-- The operator as it is written. -/
def text : MatchOp → Text
  | equal => "=".toList
  | notEqual => "!=".toList
  | regex => "=~".toList
  | notRegex => "!~".toList

/-- The place of an operator in the canonical order. -/
def rank : MatchOp → Nat
  | equal => 0
  | notEqual => 1
  | regex => 2
  | notRegex => 3

end MatchOp

/-- A label name, an operator and the text that the label is compared with. -/
structure Matcher where
  name : Text
  op : MatchOp
  value : Text
  deriving DecidableEq, Repr

/-- The label that holds the name of the metric. -/
def metricLabel : Text := "__name__".toList

namespace Matcher

/-- A matcher as it is written. -/
def text (m : Matcher) : Text := labelText m.name ++ m.op.text ++ quote m.value

/-- The canonical order: by name, then operator, then value, texts by their code points. -/
def compare (a b : Matcher) : Ordering :=
  (Ord.compare a.name b.name).then
    ((Ord.compare a.op.rank b.op.rank).then (Ord.compare a.value b.value))

/-- Inserts a matcher before the first one that does not come before it. -/
def insert (m : Matcher) : List Matcher → List Matcher
  | [] => [m]
  | n :: ns => if (compare m n).isLE then m :: n :: ns else n :: insert m ns

/-- The matchers of a group in canonical order. -/
def sort (group : List Matcher) : List Matcher := group.foldr insert []

@[simp] theorem sort_nil : sort [] = [] := rfl

@[simp] theorem sort_cons (m : Matcher) (group : List Matcher) :
    sort (m :: group) = insert m (sort group) := rfl

theorem insert_perm (m : Matcher) (group : List Matcher) : (insert m group).Perm (m :: group) := by
  induction group with
  | nil => exact .refl _
  | cons n ns ih =>
    unfold insert
    split
    · exact .refl _
    · exact (ih.cons n).trans (.swap m n ns)

/-- Sorting loses and invents no matcher. -/
theorem sort_perm (group : List Matcher) : (sort group).Perm group := by
  induction group with
  | nil => exact .refl _
  | cons m group ih => exact (insert_perm m _).trans (ih.cons m)

/-- Whether a matcher only repeats the name of the metric that is written before the braces. -/
def repeatsName (metric : Option Text) (m : Matcher) : Bool :=
  m.name == metricLabel && m.op == .equal && metric == some m.value

end Matcher

/-- The matchers of a selector: one group, and alternatives to it. -/
structure Matchers where
  group : List Matcher
  alternatives : List (List Matcher)
  deriving DecidableEq, Repr

namespace Matchers

/-- No matcher at all. -/
def empty : Matchers := ⟨[], []⟩

/-- All groups of matchers; the first one only if it has any. -/
def groups (ms : Matchers) : List (List Matcher) :=
  if ms.group.isEmpty then ms.alternatives else ms.group :: ms.alternatives

/-- All matchers of all groups. -/
def flatten (ms : Matchers) : List Matcher := ms.group ++ ms.alternatives.flatten

/-- The matchers of a group that are written, in canonical order. -/
def canonicalGroup (metric : Option Text) (group : List Matcher) : List Matcher :=
  Matcher.sort (group.filter fun m => !m.repeatsName metric)

/-- The text of a group. -/
def groupText (metric : Option Text) (group : List Matcher) : Text :=
  [','].intercalate ((canonicalGroup metric group).map Matcher.text)

/-- The texts of the groups of which something is left to write. -/
def groupTexts (metric : Option Text) (ms : Matchers) : List Text :=
  (ms.groups.map (groupText metric)).filter fun t => !t.isEmpty

/-- The word between two alternatives. -/
def orText : Text := " or ".toList

/-- The matchers in braces, or nothing if there is none to write. -/
def text (metric : Option Text) (ms : Matchers) : Text :=
  match groupTexts metric ms with
  | [] => []
  | texts => '{' :: orText.intercalate texts ++ ['}']

end Matchers

/-- The text of a selector without its modifiers. A metric name that is not a plain identifier
stands inside the braces as a quoted string, in front of the matchers. -/
def selectorText (metric : Option Text) (ms : Matchers) : Text :=
  match metric with
  | none => ms.text none
  | some name =>
    if isBareMetric name then name ++ ms.text metric
    else
      let parts := [quote name, Matchers.orText.intercalate (ms.groupTexts metric)]
      '{' :: [','].intercalate (parts.filter fun t => !t.isEmpty) ++ ['}']

end PromQL

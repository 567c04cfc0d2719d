import PromQL.Text.Basic

/-!
# Patterns

The regular expressions that labels are matched with, seen from two sides: whether they match the
empty text, and how large they are. The characters that a set holds play no part in either, so
only the measures of the set are kept.
-/

namespace PromQL

/-- The measures of a set of characters: how deep its brackets are nested, and its weight, which is
about how many bytes an automaton takes that reads one of its characters. -/
structure CharSet where
  depth : Nat
  weight : Nat
  deriving DecidableEq, Repr

/-- A group that only holds a part of a pattern together, or one that captures what it matches and
may have a name. -/
inductive GroupKind where
  | plain
  | capturing (name : Option Text)
  deriving DecidableEq, Repr

/-- A regular expression. The second part of a sequence and the first part of a choice may be a
sequence or a choice again, which then has more than two parts; any other part is in a group. -/
inductive Pattern where
  | empty
  /-- A setting of flags for the rest of the group. -/
  | setting
  /-- One character of a set. -/
  | single (set : CharSet)
  /-- A condition on the place in the text; it holds in the empty text or not. -/
  | assertion (inEmpty : Bool)
  | sequence (first second : Pattern)
  | choice (first second : Pattern)
  /-- At least and perhaps at most so many times. -/
  | repeated (least : Nat) (most : Option Nat) (inner : Pattern)
  | group (kind : GroupKind) (inner : Pattern)
  deriving DecidableEq, Repr

namespace Pattern

/-! ### Matching -/

/-- Whether a pattern matches the empty text. -/
def matchesEmpty : Pattern → Bool
  | empty | setting => true
  | single _ => false
  | assertion inEmpty => inEmpty
  | sequence p q => p.matchesEmpty && q.matchesEmpty
  | choice p q => p.matchesEmpty || q.matchesEmpty
  | repeated least _ p => least == 0 || p.matchesEmpty
  | group _ p => p.matchesEmpty

/-- Whether a pattern cannot match any text but the empty one. -/
def matchesOnlyEmpty : Pattern → Bool
  | empty | setting | assertion _ => true
  | single _ => false
  | sequence p q | choice p q => p.matchesOnlyEmpty && q.matchesOnlyEmpty
  | repeated _ most p => most == some 0 || p.matchesOnlyEmpty
  | group _ p => p.matchesOnlyEmpty

/-- The names of the groups of a pattern, from left to right. -/
def names : Pattern → List Text
  | empty | setting | single _ | assertion _ => []
  | sequence p q | choice p q => p.names ++ q.names
  | repeated _ _ p => p.names
  | group .plain p => p.names
  | group (.capturing name) p => name.toList ++ p.names

/-! ### Limits -/

/-- Whether a pattern is a sequence. -/
def isSequence : Pattern → Bool
  | sequence _ _ => true
  | _ => false

/-- Whether a pattern is a choice. -/
def isChoice : Pattern → Bool
  | choice _ _ => true
  | _ => false

/-- How deep a pattern is nested; all parts of a sequence or of a choice are equally deep. -/
def depth : Pattern → Nat
  | empty | setting | assertion _ => 0
  | single set => set.depth
  | sequence p q => max (p.depth + 1) (q.depth + if q.isSequence then 0 else 1)
  | choice p q => max (p.depth + if p.isChoice then 0 else 1) (q.depth + 1)
  | repeated _ _ p | group _ p => p.depth + 1

/-- How many bytes one state of an automaton takes. -/
def stateWeight : Nat := 32

/-- How many bytes the way to a state takes that is one of several next ones. -/
def branchWeight : Nat := 4

/-- About how many bytes the automaton of a pattern takes: an inner pattern counts as often as it
is repeated at least and, with the state that leaves the repetition early, at most. The repetition
of a pattern that only matches the empty text is a single one. -/
def weight : Pattern → Nat
  | setting => 0
  | empty | assertion _ => stateWeight
  | single set => set.weight
  | sequence p q => p.weight + q.weight
  | choice p q =>
    (if p.isChoice then p.weight else p.weight + 2 * stateWeight + branchWeight) +
      q.weight + branchWeight
  | repeated least most p =>
    let optional := p.weight + stateWeight + 2 * branchWeight
    if p.matchesOnlyEmpty then optional
    else match most with
      | none => (least - 1) * p.weight + optional
      | some most =>
        least * p.weight + (most - least) * optional + if least < most then stateWeight else 0
  | group .plain p => p.weight
  | group (.capturing _) p => p.weight + 2 * stateWeight

/-- The depth that a pattern may have. -/
def maxDepth : Nat := 250

/-- The bytes that an automaton may take: ten times two to the power of twenty. -/
def maxWeight : Nat := 10 * 0x100000

/-- Whether a pattern keeps to the limits. The states in which an automaton starts, captures the
whole match and ends come on top of the pattern. -/
def withinLimits (p : Pattern) : Bool :=
  p.depth ≤ maxDepth && p.weight + 4 * stateWeight ≤ maxWeight

end Pattern

end PromQL

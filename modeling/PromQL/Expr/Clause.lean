import PromQL.Duration.Reading
import PromQL.Token.Basic
import PromQL.Text.Quoted

/-!
# Clauses in tokens

The parts of the grammar below expressions: labels, modifiers, matchers and durations. Each reader
starts at the head of the tokens and gives what it read and the tokens behind it.

Two kinds of fault are told apart. A token that fits nowhere ends the reading at once, and so does
a number of seconds that is too large for a duration, which is an error of its own. What is well
formed but means nothing, such as a broken escape, is read to its end and has no value.
-/

namespace PromQL

/-- Why a query cannot be read: it is no query, or a number is too large for a duration. -/
inductive ParseError where
  | malformed
  | outOfRange
  deriving DecidableEq, Repr

/-- Reading that may end at a fault. -/
abbrev Reading := Except ParseError

/-- What has been read: the value, if the tokens have one, and the tokens behind them. -/
abbrev Read (α : Type) := Option α × List Token

/-! ### Tokens and values -/

/-- The label that a token is; a string is one by what it stands for, if it stands for anything. -/
def Token.label? : Token → Option (Option Text)
  | .identifier name => some (some name)
  | .keyword word spelling => if word.isLabel then some (some spelling) else none
  | .string mark body => some (unquote? mark body)
  | _ => none

/-- The number that a token stands for: a number, or the seconds of a duration. -/
def Token.number? : Token → Option (Option Double)
  | .number spelling => some (Double.ofNumeral? spelling)
  | .duration spelling => some ((Duration.ofText? spelling).map Duration.toSeconds)
  | _ => none

/-- The time that a number of seconds since the epoch stands for, in milliseconds: a half goes away
from zero, and there are at most `2⁶⁴ - 1` of them. -/
def Instant.ofSeconds? : Double → Option Instant
  | .finite negative rank =>
    if rank.val + 1 = Double.rankCount then none
    else
      let milliseconds :=
        match Double.ofUnits false (Double.unitsOfRank rank * 1000) 1 with
        | .finite _ product =>
          min ((2 * Double.unitsOfRank product + Double.unitsPerOne) / (2 * Double.unitsPerOne))
            (wordCount - 1)
        | _ => wordCount - 1
      let nanoseconds : Int := milliseconds * 1000000
      some (.epoch (if negative then -nanoseconds else nanoseconds))
  | _ => none

/-- Adds a matcher. A new alternative makes the first group an alternative too, and any other
matcher belongs to the group that was last. -/
def Matchers.add (ms : Matchers) (alternative : Bool) (m : Matcher) : Matchers :=
  if alternative then
    ⟨[], ms.alternatives ++ (if ms.group.isEmpty then [] else [ms.group]) ++ [[m]]⟩
  else
    match ms.alternatives.getLast? with
    | some last => ⟨ms.group, ms.alternatives.dropLast ++ [last ++ [m]]⟩
    | none => ⟨ms.group ++ [m], []⟩

namespace Grammar

/-- The end of reading at a token that fits nowhere. -/
def malformed {α : Type} : Reading α := .error .malformed

/-- The tokens behind one that has to be there. -/
def expect (token : Token) : List Token → Reading (List Token)
  | t :: ts => if t = token then .ok ts else .error .malformed
  | [] => .error .malformed

/-! ### Labels -/

/-- Labels up to a closing parenthesis, in front of which there may be a comma. -/
def labelsRest : List Token → Reading (Read (List Text))
  | .rightParen :: ts => .ok (some [], ts)
  | t :: .rightParen :: ts =>
    match t.label? with
    | some label => .ok (label.map ([·]), ts)
    | none => malformed
  | t :: .comma :: ts =>
    match t.label? with
    | some label => do
      let (labels, ts) ← labelsRest ts
      .ok (label.bind fun l => labels.map (l :: ·), ts)
    | none => malformed
  | _ => malformed

/-- Labels in parentheses. -/
def labelList : List Token → Reading (Read (List Text))
  | .leftParen :: ts => labelsRest ts
  | _ => malformed

/-- Labels in parentheses, chosen or left out. -/
def labelChoice (allBut : Bool) (ts : List Token) : Reading (Read LabelChoice) := do
  let (labels, ts) ← labelList ts
  pure (labels.map (if allBut then .allBut else .only), ts)

/-! ### Modifiers of operators -/

/-- The group modifier, if there is one; a parenthesis behind it starts its labels. -/
def groupModifier : List Token → Reading (Read (Option Grouping))
  | .keyword (.group many) _ :: .leftParen :: ts => do
    let (labels, ts) ← labelsRest ts
    pure (labels.map fun ls => some ⟨many, ls⟩, ts)
  | .keyword (.group many) _ :: ts => .ok (some (some ⟨many, []⟩), ts)
  | ts => .ok (some none, ts)

/-- The modifiers behind a binary operator, of which all may be missing. -/
def binaryModifiers (ts : List Token) : Reading (Read BinaryModifiers) := do
  let (returnBool, ts) := match ts with
    | .keyword .bool _ :: ts => (true, ts)
    | ts => (false, ts)
  match ts with
  | .keyword (.matching allBut) _ :: ts =>
    let (choice, ts) ← labelChoice allBut ts
    let (grouping, ts) ← groupModifier ts
    pure (choice.bind fun c => grouping.map fun g => ⟨returnBool, some c, g⟩, ts)
  | ts => pure (some ⟨returnBool, none, none⟩, ts)

/-! ### Matchers -/

/-- A matcher by its tokens. A string alone is the name of the metric. -/
def matcherOf? : List Token → Option (Option Matcher)
  | [.string mark body] => some ((unquote? mark body).map fun v => ⟨metricLabel, .equal, v⟩)
  | [.identifier name, .matchOp op, .string mark body] =>
    some ((unquote? mark body).map fun v => ⟨name, op, v⟩)
  | [.string nameMark nameBody, .matchOp op, .string mark body] =>
    some ((unquote? nameMark nameBody).bind fun n => (unquote? mark body).map fun v => ⟨n, op, v⟩)
  | _ => none

/-- Cuts the inside of braces at its commas and at the words between alternatives: the tokens up to
the first cut, and those behind each cut together with whether it starts an alternative. -/
def pieces : List Token → List Token × List (Bool × List Token)
  | [] => ([], [])
  | t :: ts =>
    let (first, others) := pieces ts
    match t with
    | .comma => ([], (false, first) :: others)
    | .orWord => ([], (true, first) :: others)
    | _ => (t :: first, others)

/-- The pieces without the empty one behind a last comma. -/
def withoutLastComma (others : List (Bool × List Token)) : List (Bool × List Token) :=
  if others.getLast? = some (false, []) then others.dropLast else others

/-- The matchers that the inside of braces stands for. -/
def matchersOf? (ts : List Token) : Option (Option Matchers) :=
  match pieces ts with
  | ([], []) => some (some .empty)
  | (first, others) => do
    let ms ← ((false, first) :: withoutLastComma others).mapM fun (alternative, piece) =>
      (matcherOf? piece).map fun m => (alternative, m)
    pure (ms.foldl (fun acc (alternative, m) =>
      acc.bind fun ms => m.map fun m => ms.add alternative m) (some Matchers.empty))

/-- Matchers in braces. -/
def matchers : List Token → Reading (Read Matchers)
  | .leftBrace :: ts =>
    match ts.dropWhile (· != .rightBrace), matchersOf? (ts.takeWhile (· != .rightBrace)) with
    | _ :: behind, some ms => .ok (ms, behind)
    | _, _ => malformed
  | _ => malformed

/-! ### Quantities -/

/-- The duration that a token stands for, a number being so many seconds. A number that is too
large is an error if what is behind it may stand there. -/
def durationOf (token : Token) (fits : Bool) : Reading (Option Duration) :=
  match token with
  | .duration spelling => .ok (Duration.ofText? spelling)
  | .number spelling =>
    match Double.ofNumeral? spelling with
    | none => .ok none
    | some v =>
      match Duration.ofSeconds? v, fits with
      | some d, _ => .ok (some d)
      | none, true => .error .outOfRange
      | none, false => .error .malformed
  | _ => .error .malformed

/-- A sign, if there is one. -/
def signed : List Token → Bool × List Token
  | .operator .sub :: ts => (true, ts)
  | .operator .add :: ts => (false, ts)
  | ts => (false, ts)

/-- Whether an expression may end in front of the tokens. -/
def mayFollow : List Token → Bool
  | [] => true
  | t :: _ =>
    t.binaryOp?.isSome || t = .rightParen || t = .comma || t = .leftBracket || t = .atSign ||
      (match t with | .keyword .offset _ => true | _ => false)

end Grammar

end PromQL

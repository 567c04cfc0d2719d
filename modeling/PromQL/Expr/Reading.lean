import PromQL.Expr.Clause
import PromQL.Expr.Typing
import PromQL.Token.Lexer

/-!
# Reading expressions

The grammar of the query language. An operand is a literal, a selector, a call, an aggregation or
a parenthesised expression, with signs in front of it and ranges, offsets and times behind it.
Operators bind by precedence, a sign as tightly as a product but more loosely than a power, and
everything behind an operand more tightly than any operator.
-/

namespace PromQL

namespace Expr

/-! ### Building nodes -/

/-- An expression behind a minus sign; in front of a number the sign belongs to the number. -/
def negated : Expr → Expr
  | number value => number value.negate
  | e => negate e

/-- A selector over a range; only a plain selector without modifiers has one. -/
def overRange? : Expr → Duration → Option Expr
  | vector s, range => if s.modifiers = .empty then some (matrix s range) else none
  | _, _ => none

/-- Changes the modifiers of a selector or subquery. -/
def modify? (change : Modifiers → Option Modifiers) : Expr → Option Expr
  | vector s => (change s.modifiers).map fun m => vector { s with modifiers := m }
  | matrix s range => (change s.modifiers).map fun m => matrix { s with modifiers := m } range
  | subquery inner range step m => (change m).map fun m => subquery inner range step m
  | _ => none

/-- Sets the offset of a selector or subquery that has none. -/
def withOffset? (e : Expr) (offset : Offset) : Option Expr :=
  e.modify? fun m => if m.offset.isSome then none else some { m with offset := some offset }

/-- Sets the time of a selector or subquery that has none. -/
def withTime? (e : Expr) (time : Instant) : Option Expr :=
  e.modify? fun m => if m.time.isSome then none else some { m with time := some time }

/-- An aggregation of the given arguments: one, or two if the operator has a parameter. -/
def aggregateOf? (op : AggregateOp) (grouping : Option LabelChoice) : List Expr → Option Expr
  | [inner] => if op.hasParameter then none else some (aggregate op grouping none inner)
  | [parameter, inner] =>
    if op.hasParameter then some (aggregate op grouping (some parameter) inner) else none
  | _ => none

end Expr

namespace Grammar

/-! ### Behind an operand -/

/-- What is in brackets behind an operand: a range, or the range and step of a subquery. -/
def range (e : Option Expr) : List Token → Reading (Read Expr)
  | t :: .rightBracket :: ts => do
    let d ← durationOf t true
    pure (e.bind fun e => d.bind e.overRange?, ts)
  | t :: .colon :: ts => do
    let d ← durationOf t true
    match ts with
    | .rightBracket :: ts =>
      pure (e.bind fun e => d.map fun d => .subquery e d none .empty, ts)
    | u :: .rightBracket :: ts =>
      let step ← durationOf u true
      pure (e.bind fun e => d.bind fun d => step.map fun s => .subquery e d (some s) .empty, ts)
    | _ => malformed
  | _ => malformed

/-- An offset behind its word. -/
def offset (e : Option Expr) (ts : List Token) : Reading (Read Expr) :=
  match signed ts with
  | (negative, t :: ts) => do
    let d ← durationOf t (mayFollow ts)
    pure (e.bind fun e => d.bind fun d => e.withOffset? ⟨negative, d⟩, ts)
  | (_, []) => malformed

/-- A time behind its sign. -/
def time (e : Option Expr) : List Token → Reading (Read Expr)
  | .keyword .queryStart _ :: .leftParen :: .rightParen :: ts =>
    .ok (e.bind fun e => e.withTime? .queryStart, ts)
  | .keyword .queryEnd _ :: .leftParen :: .rightParen :: ts =>
    .ok (e.bind fun e => e.withTime? .queryEnd, ts)
  | ts =>
    match signed ts with
    | (negative, t :: ts) =>
      match t.number? with
      | some v =>
        let v := v.map fun v => if negative then v.negate else v
        .ok (e.bind fun e => v.bind fun v => (Instant.ofSeconds? v).bind e.withTime?, ts)
      | none => malformed
    | (_, []) => malformed

/-- Everything behind an operand. -/
def suffixes : Nat → Option Expr → List Token → Reading (Read Expr)
  | 0, _, _ => malformed
  | fuel + 1, e, ts =>
    match ts with
    | .leftBracket :: ts => do
      let (e, ts) ← range e ts
      suffixes fuel e ts
    | .keyword .offset _ :: ts => do
      let (e, ts) ← offset e ts
      suffixes fuel e ts
    | .atSign :: ts => do
      let (e, ts) ← time e ts
      suffixes fuel e ts
    | ts => .ok (e, ts)

/-! ### Operands -/

/-- A selector of which the name has been read, if it has one. -/
def selector (name : Option Text) (ts : List Token) : Reading (Read Expr) :=
  match ts with
  | .leftBrace :: _ => do
    let (ms, ts) ← matchers ts
    pure (ms.map fun ms => .vector ⟨name, ms, .empty⟩, ts)
  | _ =>
    match name with
    | some _ => .ok (some (.vector ⟨name, .empty, .empty⟩), ts)
    | none => malformed

/-- The grouping clause of an aggregation, if there is one. -/
def grouping : List Token → Reading (Read (Option LabelChoice))
  | .keyword (.grouping allBut) _ :: ts => do
    let (choice, ts) ← labelChoice allBut ts
    pure (choice.map some, ts)
  | ts => .ok (some none, ts)

mutual

/-- An operand without what is behind it. -/
def primary : Nat → List Token → Reading (Read Expr)
  | 0, _ => malformed
  | fuel + 1, ts =>
    match ts with
    | .number spelling :: ts => .ok ((Double.ofNumeral? spelling).map .number, ts)
    | .duration spelling :: ts =>
      .ok ((Duration.ofText? spelling).map fun d => .number d.toSeconds, ts)
    | .string mark body :: ts => .ok ((unquote? mark body).map .string, ts)
    | .leftParen :: ts => do
      let (e, ts) ← expression fuel 0 ts
      pure (e.map .paren, ← expect .rightParen ts)
    | .leftBrace :: _ => selector none ts
    | .identifier name :: .leftParen :: ts => do
      let (es, ts) ← arguments fuel ts
      pure (es.map (.call name), ts)
    | .keyword (.aggregate op) _ :: .leftParen :: ts =>
      if op.reserved then malformed
      else do
        let (es, ts) ← arguments fuel ts
        let (choice, ts) ← grouping ts
        pure (es.bind fun es => choice.bind fun g => Expr.aggregateOf? op g es, ts)
    | .keyword (.aggregate op) _ :: .keyword (.grouping allBut) word :: ts =>
      if op.reserved then malformed
      else do
        let (choice, ts) ← grouping (.keyword (.grouping allBut) word :: ts)
        let ts ← expect .leftParen ts
        let (es, ts) ← arguments fuel ts
        pure (es.bind fun es => choice.bind fun g => Expr.aggregateOf? op g es, ts)
    | t :: ts =>
      match t.metricName? with
      | some name => selector (some name) ts
      | none => malformed
    | [] => malformed

/-- An operand with its signs and with what is behind it. -/
def operand : Nat → List Token → Reading (Read Expr)
  | 0, _ => malformed
  | fuel + 1, ts =>
    match ts with
    | .operator .sub :: ts => do
      let (e, ts) ← expression fuel BinaryOp.pow.precedence ts
      pure (e.map Expr.negated, ts)
    | .operator .add :: ts => expression fuel BinaryOp.pow.precedence ts
    | ts => do
      let (e, ts) ← primary fuel ts
      suffixes (ts.length + 1) e ts

/-- An expression of operators that bind at least so tightly. -/
def expression : Nat → Nat → List Token → Reading (Read Expr)
  | 0, _, _ => malformed
  | fuel + 1, level, ts => do
    let (left, ts) ← operand fuel ts
    operators fuel level left ts

/-- Goes on behind the left operand of operators that bind at least so tightly. -/
def operators : Nat → Nat → Option Expr → List Token → Reading (Read Expr)
  | 0, _, _, _ => malformed
  | fuel + 1, level, left, ts =>
    match ts.head?.bind Token.binaryOp? with
    | some op =>
      if level ≤ op.precedence then do
        let (modifiers, ts) ← binaryModifiers ts.tail
        let (right, ts) ← expression fuel op.rightPrecedence ts
        operators fuel level
          (left.bind fun l => modifiers.bind fun m => right.map fun r => .binary op m l r) ts
      else .ok (left, ts)
    | none => .ok (left, ts)

/-- Arguments up to the closing parenthesis. -/
def arguments : Nat → List Token → Reading (Read (List Expr))
  | 0, _ => malformed
  | fuel + 1, ts =>
    match ts with
    | .rightParen :: ts => .ok (some [], ts)
    | ts => moreArguments fuel ts

/-- At least one argument, and the others up to the closing parenthesis. -/
def moreArguments : Nat → List Token → Reading (Read (List Expr))
  | 0, _ => malformed
  | fuel + 1, ts => do
    let (e, ts) ← expression fuel 0 ts
    match ts with
    | .rightParen :: ts => pure (e.map ([·]), ts)
    | .comma :: ts =>
      let (es, ts) ← moreArguments fuel ts
      pure (e.bind fun e => es.map (e :: ·), ts)
    | _ => malformed

end

/-- The expression that all of the tokens make up, if they have a meaning. -/
def whole (ts : List Token) : Reading (Option Expr) := do
  match ← expression (4 * ts.length + 4) 0 ts with
  | (e, []) => pure e
  | _ => .error .malformed

end Grammar

/-- The expression that a query stands for. -/
def Expr.ofText (query : Text) : Reading Expr :=
  match Token.ofText? query with
  | none => .error .malformed
  | some ts => do
    match ← Grammar.whole ts with
    | some e => if e.wellTyped then pure e else .error .malformed
    | none => .error .malformed

end PromQL

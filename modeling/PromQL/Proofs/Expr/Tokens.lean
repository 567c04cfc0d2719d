import PromQL.Proofs.Double.Numeral
import PromQL.Proofs.Duration.Reading
import PromQL.Expr.Line

/-!
# Expressions as tokens

The tokens that an expression is written with, as it stands: matchers in their order, and every
clause that is there. Signs of numbers are tokens of their own, and a duration below a millisecond
has no token at all.
-/

namespace PromQL

/-! ### Literals -/

/-- A sign in front of a magnitude. -/
def signTokens (negative : Bool) : List Token := if negative then [.operator .sub] else []

/-- The tokens of a number. -/
def Double.tokens : Double → List Token
  | .nan => [.number "NaN".toList]
  | .infinite negative =>
    [.operator (if negative then .sub else .add), .number "Inf".toList]
  | .finite negative rank => signTokens negative ++ [.number (magnitudeParts rank.val).text]

/-- A magnitude with three decimal places, as parts. -/
def Double.placesParts (rank : Nat) : NumberParts :=
  let thousandths := roundHalfEven (unitsOfRank rank * 1000) unitsPerOne
  ⟨decimal (thousandths / 1000), some (decimalPadded 3 (thousandths % 1000)), none⟩

/-- The tokens of a number with three decimal places. -/
def Double.placesTokens : Double → List Token
  | .nan => [.number "NaN".toList]
  | .infinite negative => signTokens negative ++ [.number "inf".toList]
  | .finite negative rank => signTokens negative ++ [.number (placesParts rank.val).text]

/-- The token of a duration, if there is anything to write. -/
def Duration.tokens (d : Duration) : List Token := if d.text = [] then [] else [.duration d.text]

/-! ### Modifiers of selectors -/

/-- A time as a number of seconds. -/
def Instant.seconds (nanoseconds : Int) : Double :=
  let magnitude := Duration.toSeconds ⟨nanoseconds.natAbs⟩
  if nanoseconds < 0 then magnitude.negate else magnitude

/-- The tokens of a time. -/
def Instant.tokens : Instant → List Token
  | .queryStart => [.atSign, .keyword .queryStart "start".toList, .leftParen, .rightParen]
  | .queryEnd => [.atSign, .keyword .queryEnd "end".toList, .leftParen, .rightParen]
  | .epoch t => .atSign :: (seconds t).placesTokens

/-- The tokens of an offset. -/
def Offset.tokens (o : Offset) : List Token :=
  .keyword .offset "offset".toList :: signTokens o.negative ++ o.duration.tokens

/-- The tokens of the modifiers. -/
def Modifiers.tokens (m : Modifiers) : List Token :=
  (m.time.map Instant.tokens).getD [] ++ (m.offset.map Offset.tokens).getD []

/-! ### Selectors -/

/-- The tokens of a matcher. -/
def Matcher.tokens (m : Matcher) : List Token :=
  [if isBareLabel m.name then .identifier m.name else quotedToken m.name, .matchOp m.op,
    quotedToken m.value]

/-- The tokens of a group of matchers. -/
def Matchers.groupTokens (group : List Matcher) : List Token :=
  [Token.comma].intercalate (group.map Matcher.tokens)

/-- The tokens between the braces. -/
def Matchers.inside (ms : Matchers) : List Token :=
  [Token.orWord].intercalate (ms.groups.map groupTokens)

/-- The tokens of the matchers, none if there is no group. -/
def Matchers.tokens (ms : Matchers) : List Token :=
  if ms.groups = [] then [] else .leftBrace :: ms.inside ++ [.rightBrace]

/-- The tokens of a selector without its modifiers. -/
def Selector.tokens (s : Selector) : List Token :=
  (s.name.map fun name => [Lexeme.ofWord name]).getD [] ++ s.matchers.tokens

/-! ### Clauses -/

/-- The token of a label. -/
def labelToken (name : Text) : Token :=
  if isBareLabel name then Lexeme.ofWord name else quotedToken name

/-- The tokens of labels in parentheses. -/
def labelsTokens (names : List Text) : List Token :=
  .leftParen :: [Token.comma].intercalate (names.map fun name => [labelToken name]) ++
    [.rightParen]

/-- The tokens of a grouping clause. -/
def LabelChoice.groupingTokens : LabelChoice → List Token
  | .only labels => .keyword (.grouping false) "by".toList :: labelsTokens labels
  | .allBut labels => .keyword (.grouping true) "without".toList :: labelsTokens labels

/-- The tokens of a matching clause. -/
def LabelChoice.matchingTokens : LabelChoice → List Token
  | .only labels => .keyword (.matching false) "on".toList :: labelsTokens labels
  | .allBut labels => .keyword (.matching true) "ignoring".toList :: labelsTokens labels

/-- The tokens of a group modifier, without parentheses if there are no labels. -/
def Grouping.tokens (g : Grouping) : List Token :=
  .keyword (.group g.many) g.many.text.toList :: if g.labels = [] then [] else labelsTokens g.labels

/-- The token of a binary operator. -/
def BinaryOp.token : BinaryOp → Token
  | .or => .keyword (.operator .or) BinaryOp.or.text
  | .and => .keyword (.operator .and) BinaryOp.and.text
  | .exclude => .keyword (.operator .exclude) BinaryOp.exclude.text
  | .atan2 => .keyword (.operator .atan2) BinaryOp.atan2.text
  | op => .operator op

/-- The tokens of the modifiers of a binary operator. -/
def BinaryModifiers.tokens (m : BinaryModifiers) : List Token :=
  (if m.returnBool then [.keyword .bool "bool".toList] else []) ++
    ((m.matching.map LabelChoice.matchingTokens).getD [] ++
      (m.grouping.map Grouping.tokens).getD [])

/-! ### Expressions -/

namespace Expr

mutual

/-- The tokens of an expression. -/
def tokens : Expr → List Token
  | number value => value.tokens
  | string value => [quotedToken value]
  | vector s => s.tokens ++ s.modifiers.tokens
  | matrix s range =>
    s.tokens ++ .leftBracket :: (range.tokens ++ .rightBracket :: s.modifiers.tokens)
  | subquery inner range step modifiers =>
    inner.tokens ++ .leftBracket :: (range.tokens ++ .colon ::
      ((step.map Duration.tokens).getD [] ++ .rightBracket :: modifiers.tokens))
  | paren inner => .leftParen :: (inner.tokens ++ [.rightParen])
  | negate inner => .operator .sub :: inner.tokens
  | call function arguments =>
    Lexeme.ofWord function :: .leftParen ::
      ([Token.comma].intercalate (tokensOf arguments) ++ [.rightParen])
  | aggregate op grouping parameter inner =>
    .keyword (.aggregate op) op.text :: ((grouping.map LabelChoice.groupingTokens).getD [] ++
      .leftParen :: (parameterTokens parameter ++ (inner.tokens ++ [.rightParen])))
  | binary op modifiers left right =>
    left.tokens ++ op.token :: (modifiers.tokens ++ right.tokens)
  | extension _ => []

/-- The tokens of several expressions, each on its own. -/
def tokensOf : List Expr → List (List Token)
  | [] => []
  | e :: es => e.tokens :: tokensOf es

/-- The tokens of a parameter and the comma behind it, if there is one. -/
def parameterTokens : Option Expr → List Token
  | none => []
  | some e => e.tokens ++ [.comma]

end

theorem tokensOf_eq_map (es : List Expr) : tokensOf es = es.map tokens := by
  induction es with
  | nil => rfl
  | cons e es ih => rw [tokensOf, ih, List.map_cons]

/-- The arguments of an aggregation are its parameter, if there is one, and what it aggregates. -/
theorem intercalate_parameter (parameter : Option Expr) (inner : Expr) :
    [Token.comma].intercalate ((parameter.toList ++ [inner]).map tokens) =
      parameterTokens parameter ++ inner.tokens := by
  cases parameter <;> simp [parameterTokens, List.intercalate_cons_cons]

end Expr

end PromQL

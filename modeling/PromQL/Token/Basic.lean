import PromQL.Expr.Operator
import PromQL.Expr.Basic

/-!
# Tokens

The words and signs that a query is made of. A word that has a meaning of its own is a keyword in
any case of letters, but keeps its spelling, since some keywords may also be names.
-/

namespace PromQL

/-- A word with a meaning of its own. -/
inductive Keyword where
  | operator (op : BinaryOp)
  | aggregate (op : AggregateOp)
  /-- The word of a grouping clause, for some labels or for all but some. -/
  | grouping (allBut : Bool)
  /-- The word of a matching clause, for some labels or for all but some. -/
  | matching (allBut : Bool)
  | group (many : Side)
  | bool
  | offset
  | queryStart
  | queryEnd
  /-- A word that no query may use. -/
  | reserved
  deriving DecidableEq, Repr

namespace Keyword

/-- The words that are not operators of aggregations, in lower case. -/
def table : List (String × Keyword) :=
  [("and", .operator .and), ("or", .operator .or), ("unless", .operator .exclude),
    ("atan2", .operator .atan2), ("by", .grouping false), ("without", .grouping true),
    ("on", .matching false), ("ignoring", .matching true), ("group_left", .group .left),
    ("group_right", .group .right), ("bool", .bool), ("offset", .offset), ("start", .queryStart),
    ("end", .queryEnd), ("smoothed", .reserved), ("anchored", .reserved)]

/-- The keyword that a lower-case word is. -/
def ofText? (word : Text) : Option Keyword :=
  match AggregateOp.all.find? fun op => op.text == word with
  | some op => some (.aggregate op)
  | none => (table.find? fun entry => entry.1.toList == word).map Prod.snd

/-- The keywords that may be names of metrics. -/
def isMetric : Keyword → Bool
  | operator op => op.isSetOp
  | aggregate op => !op.reserved
  | grouping _ | offset | queryStart | queryEnd => true
  | matching _ | group _ | bool | reserved => false

/-- The keywords that may be names of labels. -/
def isLabel : Keyword → Bool
  | aggregate op => !op.reserved
  | reserved => false
  | _ => true

end Keyword

/-- A word or sign of a query. -/
inductive Token where
  | number (spelling : Text)
  | duration (spelling : Text)
  /-- A string by its mark and what stands between the marks. -/
  | string (mark : Char) (body : Text)
  | identifier (name : Text)
  /-- A name with a colon. -/
  | metric (name : Text)
  | keyword (word : Keyword) (spelling : Text)
  | operator (op : BinaryOp)
  | matchOp (op : MatchOp)
  /-- The word between the alternatives of a selector. -/
  | orWord
  | leftParen | rightParen | leftBrace | rightBrace | leftBracket | rightBracket
  | comma | colon | atSign
  deriving DecidableEq, Repr

namespace Token

/-- The binary operator that a token is. -/
def binaryOp? : Token → Option BinaryOp
  | operator op => some op
  | keyword (.operator op) _ => some op
  | _ => none

/-- The name of a metric that a token may be. -/
def metricName? : Token → Option Text
  | identifier name | metric name => some name
  | keyword word spelling => if word.isMetric then some spelling else none
  | _ => none

end Token

end PromQL

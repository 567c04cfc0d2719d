import PromQL.Text.Basic

/-!
# Operators

The operators of aggregations and of binary expressions, as they are written and in the classes
that grammar, checks and layout tell apart.
-/

namespace PromQL

/-- The operator of an aggregation. -/
inductive AggregateOp where
  | sum | avg | count | min | max | group | stddev | stdvar | topk | bottomk | countValues
  | quantile | limitk | limitRatio
  deriving DecidableEq, Repr

namespace AggregateOp

/-- All operators. -/
def all : List AggregateOp :=
  [sum, avg, count, min, max, group, stddev, stdvar, topk, bottomk, countValues, quantile, limitk,
    limitRatio]

/-- The operator as it is written. -/
def text : AggregateOp → Text
  | sum => "sum".toList
  | avg => "avg".toList
  | count => "count".toList
  | min => "min".toList
  | max => "max".toList
  | group => "group".toList
  | stddev => "stddev".toList
  | stdvar => "stdvar".toList
  | topk => "topk".toList
  | bottomk => "bottomk".toList
  | countValues => "count_values".toList
  | quantile => "quantile".toList
  | limitk => "limitk".toList
  | limitRatio => "limit_ratio".toList

/-- The operators that have a parameter in front of the aggregated expression. -/
def hasParameter : AggregateOp → Bool
  | topk | bottomk | countValues | quantile => true
  | _ => false

/-- The operators that the lexer knows but no query may use. -/
def reserved : AggregateOp → Bool
  | limitk | limitRatio => true
  | _ => false

theorem mem_all (op : AggregateOp) : op ∈ all := by cases op <;> decide

end AggregateOp

/-- The operator between two operands. -/
inductive BinaryOp where
  | or | and | exclude
  | equal | notEqual | greater | less | greaterEqual | lessEqual
  | add | sub | mul | div | mod | atan2 | pow
  deriving DecidableEq, Repr

namespace BinaryOp

/-- The operator as it is written. -/
def text : BinaryOp → Text
  | or => "or".toList
  | and => "and".toList
  | exclude => "unless".toList
  | equal => "==".toList
  | notEqual => "!=".toList
  | greater => ">".toList
  | less => "<".toList
  | greaterEqual => ">=".toList
  | lessEqual => "<=".toList
  | add => "+".toList
  | sub => "-".toList
  | mul => "*".toList
  | div => "/".toList
  | mod => "%".toList
  | atan2 => "atan2".toList
  | pow => "^".toList

/-- The operators that compare. -/
def isComparison : BinaryOp → Bool
  | equal | notEqual | greater | less | greaterEqual | lessEqual => true
  | _ => false

/-- The operators on sets of series. -/
def isSetOp : BinaryOp → Bool
  | or | and | exclude => true
  | _ => false

/-- How tightly an operator binds. -/
def precedence : BinaryOp → Nat
  | or => 1
  | and | exclude => 2
  | equal | notEqual | greater | less | greaterEqual | lessEqual => 3
  | add | sub => 4
  | mul | div | mod | atan2 => 5
  | pow => 6

/-- The least precedence of an operator in the right operand; only powers associate to the
right. -/
def rightPrecedence : BinaryOp → Nat
  | pow => 6
  | op => op.precedence + 1

end BinaryOp

end PromQL

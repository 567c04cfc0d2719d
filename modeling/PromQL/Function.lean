import PromQL.Text.Basic

/-!
# Functions

The functions of the query language with the types of their arguments and results. The last
argument of a function may be left out, or given any number of times.
-/

namespace PromQL

/-- The type of the value of an expression. -/
inductive ValueType where
  | scalar | string | vector | matrix
  deriving DecidableEq, Repr

/-- How often the last argument of a function is given. -/
inductive Arity where
  | exact
  | lastOptional
  | lastRepeated
  deriving DecidableEq, Repr

/-- The types of the arguments and the result of a function. -/
structure Signature where
  arguments : List ValueType
  arity : Arity
  result : ValueType
  deriving DecidableEq, Repr

namespace Signature

/-- Whether a function can be called with so many arguments. -/
def takes (s : Signature) (count : Nat) : Bool :=
  let n := s.arguments.length
  match s.arity with
  | .exact => count == n
  | .lastOptional => count == n || count + 1 == n
  | .lastRepeated => n ≤ count + 1

/-- Whether the types of arguments are the ones that a function expects; an argument beyond the
last one is expected to be like the last one. -/
def admits (s : Signature) (types : List ValueType) : Bool :=
  types.zipIdx.all fun (type, i) => s.arguments[min i (s.arguments.length - 1)]? == some type

open ValueType

/-- The functions, those of one signature together. -/
def table : List (List String × Signature) :=
  [(["abs", "absent", "acos", "acosh", "asin", "asinh", "atan", "atanh", "ceil", "cos", "cosh",
      "deg", "exp", "floor", "histogram_count", "histogram_sum", "histogram_avg",
      "histogram_stddev", "histogram_stdvar", "ln", "log10", "log2", "rad", "sgn", "sin", "sinh",
      "sort", "sort_desc", "sqrt", "tan", "tanh", "timestamp"], ⟨[vector], .exact, vector⟩),
    (["scalar"], ⟨[vector], .exact, scalar⟩),
    (["days_in_month", "day_of_month", "day_of_week", "day_of_year", "hour", "minute", "month",
      "year"], ⟨[vector], .lastOptional, vector⟩),
    (["round"], ⟨[vector, scalar], .lastOptional, vector⟩),
    (["absent_over_time", "avg_over_time", "changes", "count_over_time", "delta", "deriv",
      "idelta", "increase", "irate", "last_over_time", "max_over_time", "min_over_time",
      "present_over_time", "rate", "resets", "stddev_over_time", "stdvar_over_time",
      "sum_over_time"], ⟨[matrix], .exact, vector⟩),
    (["clamp"], ⟨[vector, scalar, scalar], .exact, vector⟩),
    (["clamp_max", "clamp_min"], ⟨[vector, scalar], .exact, vector⟩),
    (["histogram_fraction"], ⟨[scalar, scalar, vector], .exact, vector⟩),
    (["histogram_quantile"], ⟨[scalar, vector], .exact, vector⟩),
    (["double_exponential_smoothing", "holt_winters"], ⟨[matrix, scalar, scalar], .exact, vector⟩),
    (["predict_linear"], ⟨[matrix, scalar], .exact, vector⟩),
    (["quantile_over_time"], ⟨[scalar, matrix], .exact, vector⟩),
    (["label_replace"], ⟨[vector, string, string, string, string], .exact, vector⟩),
    (["vector"], ⟨[scalar], .exact, vector⟩),
    (["label_join"], ⟨[vector, string, string, string], .lastRepeated, vector⟩),
    (["sort_by_label", "sort_by_label_desc"], ⟨[vector, string, string], .lastRepeated, vector⟩),
    (["pi", "time"], ⟨[], .exact, scalar⟩)]

/-- The signature of a function. -/
def ofName? (name : Text) : Option Signature :=
  table.findSome? fun (names, s) => if names.any (·.toList == name) then some s else none

end Signature

end PromQL

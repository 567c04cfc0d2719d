import PromQL.Expr.Layout
import PromQL.Expr.Reading
import PromQL.Offset.Repair
import PromQL.Options
import PromQL.Template.Placeholder

/-!
# The formatter

A query is formatted in steps: misplaced offsets are repaired, template variables give way to
placeholders, the text is parsed and laid out, and the variables are put back. The result is
checked once more by a validator, which sees it with placeholders of its own. A query that does not
parse is not touched at all, since queries that are templated or not finished are to be expected.
-/

namespace PromQL

/-! ### Validation -/

/-- What a check of a query finds. -/
inductive Verdict where
  | accepted
  | rejected (reason : Text)
  /-- A number in the query is too large for a duration, which ends the call. -/
  | outOfRange
  deriving DecidableEq, Repr

/-- A check of queries. -/
abbrev Validator := Text → Verdict

/-- Accepts the queries that can be parsed. -/
def parseable : Validator := fun query =>
  match Expr.ofText query with
  | .ok _ => .accepted
  | .error .malformed => .rejected "the query does not parse".toList
  | .error .outOfRange => .outOfRange

/-- Why a query has not been formatted. -/
inductive FormatError where
  /-- The validator has rejected the formatted text. -/
  | invalid (formatted reason : Text)
  /-- A number in the query is too large for a duration. -/
  | outOfRange
  deriving DecidableEq, Repr

/-- The error as a text for people. -/
def FormatError.message : FormatError → Text
  | .invalid _ reason => "formatted query is invalid: ".toList ++ reason
  | .outOfRange => "a duration in the query is out of range".toList

/-! ### Events -/

/-- How much an event matters. -/
inductive Level where
  | debug | warn
  deriving DecidableEq, Repr

/-- What is worth a note while a query is formatted. -/
inductive Event where
  | moved (query repositioned : Text)
  | unparsed (query : Text)
  | failed (formatted : Text)
  deriving DecidableEq, Repr

namespace Event

/-- The level of an event. -/
def level : Event → Level
  | moved .. | unparsed _ => .debug
  | failed _ => .warn

/-- The event as a text for people. -/
def message : Event → Text
  | moved .. => "moved offset into range selector".toList
  | unparsed _ => "query does not parse, passing it through".toList
  | failed _ => "formatted query failed validation".toList

/-- The texts that belong to an event, by name. -/
def fields : Event → List (String × Text)
  | moved query repositioned => [("query", query), ("repositioned", repositioned)]
  | unparsed query => [("query", query)]
  | failed formatted => [("formatted", formatted)]

end Event

/-! ### Formatting -/

/-- How a call ended: its result, the events in their order, and the queries that the validator has
been asked about. -/
structure Report where
  result : Except FormatError Text
  events : List Event
  shown : List Text

/-- Checks a formatted text with its variables replaced by placeholders. -/
def Validator.check (validator : Validator) (formatted : Text) : Report :=
  let query := Placeholders.mask formatted
  match validator query with
  | .accepted => ⟨.ok formatted, [], [query]⟩
  | .rejected reason => ⟨.error (.invalid formatted reason), [.failed formatted], [query]⟩
  | .outOfRange => ⟨.error .outOfRange, [], [query]⟩

/-- The settings of a formatter and the check of its output. -/
structure Formatter where
  options : Options
  validator : Validator

namespace Formatter

/-- The formatter with the given settings that accepts what can be parsed. -/
def ofOptions (options : Options) : Formatter := ⟨options, parseable⟩

/-- The formatter as a text for people; the validator is left out. -/
def describe (f : Formatter) : Text :=
  "Formatter \x7b options: ".toList ++ f.options.describe ++ ", .. \x7d".toList

/-- The text of an expression, with the variables of the query that it was read from put back. -/
def textOf (f : Formatter) (query : Text) (e : Expr) : Text :=
  (Placeholders.ofText query).unmask (e.format f.options.indent)

/-- Formats a query. -/
def format (f : Formatter) (raw : Text) : Report :=
  let repaired := Offset.repair raw
  let moved := if repaired = raw then [] else [Event.moved raw repaired]
  match Expr.ofText (Placeholders.mask repaired) with
  | .error .malformed => ⟨.ok raw, moved ++ [.unparsed raw], []⟩
  | .error .outOfRange => ⟨.error .outOfRange, moved, []⟩
  | .ok e =>
    let report := f.validator.check (f.textOf repaired e)
    ⟨report.result, moved ++ report.events, report.shown⟩

end Formatter

end PromQL

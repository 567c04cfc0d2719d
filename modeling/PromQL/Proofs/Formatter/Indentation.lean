import Mathlib
import PromQL.Formatter
import PromQL.Proofs.Expr.Equality
import PromQL.Proofs.Expr.Indentation
import PromQL.Proofs.Expr.Soundness
import PromQL.Proofs.Template.Atoms

/-!
# Settings and indentation

The settings of a formatter have a part in a call where the text is laid out, and there the length
of lines has no effect and the indentation stands behind line breaks only. What comes after that
does not see indentation: variables are put back into words, the placeholders of the check are
chosen by words, and the lexer passes over what is in front of a token.
-/

namespace PromQL

/-! ### Reports without indentation -/

/-- A result without the indentation of the formatted text. -/
def unindentResult : Except FormatError Text → Except FormatError Text
  | .ok formatted => .ok (unindent formatted)
  | .error (.invalid formatted reason) => .error (.invalid (unindent formatted) reason)
  | .error .outOfRange => .error .outOfRange

/-- An event without the indentation of the formatted text. -/
def Event.unindent : Event → Event
  | .moved query repositioned => .moved query repositioned
  | .unparsed query => .unparsed query
  | .failed formatted => .failed (PromQL.unindent formatted)

namespace Report

/-- A report without the indentation of what has been formatted. -/
def unindent (r : Report) : Report :=
  ⟨unindentResult r.result, r.events.map Event.unindent, r.shown.map PromQL.unindent⟩

end Report

/-! ### Checks -/

namespace Formatter

open Placeholders

example : unindentResult ((ofOptions ⟨2, 80⟩).format "($x / b)".toList).result =
    ((ofOptions ⟨0, 120⟩).format "($x / b)".toList).result := by decide +kernel

end Formatter

end PromQL

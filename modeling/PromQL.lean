import PromQL.Double.Basic
import PromQL.Double.Numeral
import PromQL.Double.Rounding
import PromQL.Double.Shortest
import PromQL.Duration.Basic
import PromQL.Duration.Reading
import PromQL.Expr.Basic
import PromQL.Expr.Clause
import PromQL.Expr.Layout
import PromQL.Expr.Line
import PromQL.Expr.Operator
import PromQL.Expr.Reading
import PromQL.Expr.Typing
import PromQL.Formatter
import PromQL.Function
import PromQL.Json.Basic
import PromQL.Label.Matcher
import PromQL.Label.Name
import PromQL.Offset.Clause
import PromQL.Offset.Repair
import PromQL.Options
import PromQL.Pattern.Basic
import PromQL.Pattern.Class
import PromQL.Pattern.Flags
import PromQL.Pattern.Property
import PromQL.Pattern.Reading
import PromQL.Proofs.Template.Restoration
import PromQL.Proofs.Template.Stem
import PromQL.Proofs.Text.Digits
import PromQL.Proofs.Text.Editing
import PromQL.Proofs.Text.Search
import PromQL.Template.Placeholder
import PromQL.Template.Variable
import PromQL.Text.Basic
import PromQL.Text.Digits
import PromQL.Text.Editing
import PromQL.Text.Letter
import PromQL.Text.Quoted
import PromQL.Token.Basic
import PromQL.Token.Lexer
import PromQL.Proofs.Text.Quoted
import PromQL.Proofs.Token.Progress
import PromQL.Proofs.Token.Spelling
import PromQL.Proofs.Duration.Reading
import PromQL.Proofs.Token.Scanning
import PromQL.Proofs.Double.Rounding
import PromQL.Proofs.Double.Numeral
import PromQL.Proofs.Expr.Canonical
import PromQL.Proofs.Expr.Tokens
import PromQL.Proofs.Expr.Shape
import PromQL.Proofs.Expr.Spelling
import PromQL.Proofs.Expr.Progress
import PromQL.Proofs.Expr.Readers
import PromQL.Proofs.Expr.Clauses
import PromQL.Proofs.Expr.Matchers
import PromQL.Proofs.Expr.Suffixes
import PromQL.Proofs.Expr.Completeness
import PromQL.Proofs.Label.Order
import PromQL.Proofs.Expr.Mapping
import PromQL.Proofs.Expr.Legible
import PromQL.Proofs.Expr.Weight
import PromQL.Proofs.Token.Words
import PromQL.Proofs.Expr.Taking
import PromQL.Proofs.Expr.Soundness
import PromQL.Proofs.Offset.Shape
import PromQL.Proofs.Offset.Conservation
import PromQL.Proofs.Offset.Sources
import PromQL.Proofs.Expr.Brackets
import PromQL.Proofs.Expr.Formatted
import PromQL.Proofs.Text.Spacing
import PromQL.Proofs.Expr.Spacing
import PromQL.Proofs.Expr.Equality
import PromQL.Proofs.Formatter.Meaning
import PromQL.Proofs.Expr.Derivation
import PromQL.Proofs.Expr.Sums
import PromQL.Proofs.Expr.Placement
import PromQL.Proofs.Template.Separation
import PromQL.Proofs.Token.Lexemes
import PromQL.Proofs.Token.Places
import PromQL.Proofs.Offset.Validity
import PromQL.Proofs.Expr.Stability
import PromQL.Proofs.Formatter.Stability
import PromQL.Proofs.Expr.Carrying
import PromQL.Proofs.Formatter.Variables
import PromQL.Proofs.Formatter.Outcome
import PromQL.Proofs.Formatter.Indentation
import PromQL.Proofs.Offset.Printed
import PromQL.Proofs.Template.Rearrangement
import PromQL.Proofs.Label.Decoding
import PromQL.Proofs.Label.Acceptance
import PromQL.Proofs.Expr.Names
import PromQL.Proofs.Expr.Context
import PromQL.Proofs.Template.Literals
import PromQL.Proofs.Template.Agreement
import PromQL.Proofs.Template.Lexemes
import PromQL.Proofs.Label.Group
import PromQL.Proofs.Token.Literal
import PromQL.Proofs.Duration.Denotation
import PromQL.Proofs.Duration.Printed
import PromQL.Proofs.Offset.Aggregation
import PromQL.Proofs.Expr.Order
import PromQL.Proofs.Formatter.Order
import PromQL.Proofs.Template.Masking
import PromQL.Proofs.Offset.Tail
import PromQL.Proofs.Offset.Finding
import PromQL.Proofs.Offset.Relocation
import PromQL.Proofs.Offset.Placed
import PromQL.Proofs.Offset.Repetition
import PromQL.Proofs.Template.Keys
import PromQL.Proofs.Token.Quotation
import PromQL.Proofs.Label.Listing
import PromQL.Proofs.Expr.Nesting
import PromQL.Proofs.Double.Gaps
import PromQL.Proofs.Double.Nearest
import PromQL.Proofs.Double.Shortest
import PromQL.Proofs.Double.Written

import PromQL.Text.Quoted
import PromQL.Token.Basic

/-!
# Reading tokens

A query is cut into tokens from left to right. What a character means depends on where it stands:
inside braces there are matchers, inside brackets durations, and everything else outside of both.
Blanks separate tokens, and a number sign starts a comment outside of brackets. A query with a
character that fits nowhere, or with parentheses that do not close, has no tokens at all.
-/

namespace PromQL

/-- Where in a query the lexer stands; in brackets, also whether there was a colon yet. -/
inductive LexMode where
  | plain
  | braces
  | brackets (colon : Bool)
  deriving DecidableEq, Repr

/-- A token, the place behind it, and the text behind it. -/
structure Lexeme where
  token : Token
  mode : LexMode
  rest : Text
  deriving DecidableEq, Repr

namespace Lexeme

/-! ### Blanks -/

/-- The blanks between tokens. -/
def isSpace (c : Char) : Bool :=
  c == ' ' || c == '\t' || c == '\n' || c == '\r' || c == '\x0c'

/-- Whether a character ends a comment. -/
def isLineEnd (c : Char) : Bool := c == '\n' || c == '\r'

/-! ### Numbers and durations -/

/-- Cuts a text behind its leading characters of a class. -/
def spanOf (p : Char → Bool) (text : Text) : Text × Text := (text.takeWhile p, text.dropWhile p)

/-- Cuts a text behind its first character if that is of a class. -/
def optionalOf (p : Char → Bool) : Text → Text × Text
  | [] => ([], [])
  | c :: rest => if p c then ([c], rest) else ([], c :: rest)

/-- The mark of a hexadecimal number, if there is one, the digits that may stand in the number, and
the text behind the mark. -/
def baseSpan : Text → Text × (Char → Bool) × Text
  | '0' :: 'x' :: rest => (['0', 'x'], isDigitOf 16, rest)
  | '0' :: 'X' :: rest => (['0', 'X'], isDigitOf 16, rest)
  | rest => ([], Char.isDigit, rest)

/-- Cuts a text behind a point and the digits of a fraction. -/
def fractionSpan (isDigit : Char → Bool) : Text → Text × Text
  | '.' :: rest => let (ds, rest) := spanOf isDigit rest; ('.' :: ds, rest)
  | rest => ([], rest)

/-- Cuts a text behind an exponent. -/
def exponentSpan (text : Text) : Text × Text :=
  match optionalOf (fun c => c == 'e' || c == 'E') text with
  | ([], rest) => ([], rest)
  | (e, rest) =>
    let (s, rest) := optionalOf (fun c => c == '+' || c == '-') rest
    let (ds, rest) := spanOf Char.isDigit rest
    (e ++ s ++ ds, rest)

/-- Cuts a text behind a number: digits with a fraction and an exponent, each part of which may be
empty. Behind `0x` the digits are hexadecimal. -/
def numberSpan (text : Text) : Text × Text :=
  let (mark, isDigit, rest) := baseSpan text
  let (whole, rest) := spanOf isDigit rest
  let (fraction, rest) := fractionSpan isDigit rest
  let (exponent, rest) := exponentSpan rest
  (mark ++ whole ++ fraction ++ exponent, rest)

/-- Cuts a text behind the unit of a duration, to which an `s` may be added. -/
def unitSpan? (units : String) (text : Text) : Option (Text × Text) :=
  match text with
  | [] => none
  | c :: rest =>
    if units.toList.contains c then
      let (s, rest) := optionalOf (· == 's') rest
      some (c :: s, rest)
    else none

/-- Cuts a text behind the further groups of a duration, each of digits and a unit. -/
def groupsSpan? : Nat → Text → Option (Text × Text)
  | 0, _ => none
  | fuel + 1, text =>
    match spanOf Char.isDigit text with
    | ([], rest) => some ([], rest)
    | (digits, rest) => do
      let (unit, rest) ← unitSpan? "smhdw" rest
      let (groups, rest) ← groupsSpan? fuel rest
      pure (digits ++ unit ++ groups, rest)

/-- Cuts a text behind the rest of a duration, which starts with a unit. -/
def durationSpan? (text : Text) : Option (Text × Text) := do
  let (unit, rest) ← unitSpan? "smhdwy" text
  let (groups, rest) ← groupsSpan? (text.length + 1) rest
  if (rest.head?.map isWordChar).getD false then none else pure (unit ++ groups, rest)

/-- Reads a number or a duration. -/
def quantity? (text : Text) : Option (Token × Text) :=
  let (spelling, rest) := numberSpan text
  if (rest.head?.map fun c => isWordStart c || c == '.').getD false then do
    let (more, rest) ← durationSpan? rest
    pure (.duration (spelling ++ more), rest)
  else some (.number spelling, rest)

/-! ### Strings -/

/-- The characters that may stand behind a backslash, apart from the mark of the string. -/
def isEscape (c : Char) : Bool := "abfnrtv\\01234567xuU".toList.contains c

/-- Cuts a text at the mark that closes a string. -/
def bodySpan? (mark : Char) : Text → Option (Text × Text)
  | [] => none
  | '\\' :: c :: rest =>
    if c == mark || isEscape c then
      (bodySpan? mark rest).map fun (body, behind) => ('\\' :: c :: body, behind)
    else none
  | c :: rest =>
    if c == mark then some ([], rest)
    else if c == '\\' then none
    else (bodySpan? mark rest).map fun (body, behind) => (c :: body, behind)

/-- The marks that strings stand between. -/
def isMark (c : Char) : Bool := c == '"' || c == '\x27' || c == backtick

/-- Reads a string of which the mark has been read. -/
def string? (mark : Char) (rest : Text) : Option (Token × Text) :=
  (bodySpan? mark rest).map fun (body, behind) => (.string mark body, behind)

/-! ### Words -/

/-- The token of a word: a keyword or a number if it is one in lower case, and a name otherwise. -/
def ofWord (word : Text) : Token :=
  let lower := word.map Char.toLower
  match Keyword.ofText? lower with
  | some k => .keyword k word
  | none =>
    if lower == "inf".toList || lower == "nan".toList then .number word
    else if word.contains ':' then .metric word
    else .identifier word

/-- Reads a word. -/
def word (text : Text) : Token × Text :=
  let (name, rest) := spanOf (fun c => isWordChar c || c == ':') text
  (ofWord name, rest)

/-! ### Lexemes -/

/-- The lexeme of a token that leaves the mode as it is. -/
def stay (mode : LexMode) (next : Token × Text) : Lexeme := ⟨next.1, mode, next.2⟩

/-- Reads a token outside of braces and brackets. -/
def plain? (text : Text) : Option Lexeme :=
  let sign := fun token rest => some (Lexeme.mk token .plain rest)
  match text with
  | [] => none
  | '=' :: '~' :: _ => none
  | '=' :: '=' :: rest => sign (.operator .equal) rest
  | '=' :: rest => sign (.matchOp .equal) rest
  | '!' :: '=' :: rest => sign (.operator .notEqual) rest
  | '<' :: '=' :: rest => sign (.operator .lessEqual) rest
  | '<' :: rest => sign (.operator .less) rest
  | '>' :: '=' :: rest => sign (.operator .greaterEqual) rest
  | '>' :: rest => sign (.operator .greater) rest
  | '+' :: rest => sign (.operator .add) rest
  | '-' :: rest => sign (.operator .sub) rest
  | '*' :: rest => sign (.operator .mul) rest
  | '/' :: rest => sign (.operator .div) rest
  | '%' :: rest => sign (.operator .mod) rest
  | '^' :: rest => sign (.operator .pow) rest
  | '@' :: rest => sign .atSign rest
  | ',' :: rest => sign .comma rest
  | '(' :: rest => sign .leftParen rest
  | ')' :: rest => sign .rightParen rest
  | '\x7b' :: rest => some ⟨.leftBrace, .braces, rest⟩
  | '[' :: ':' :: _ => none
  | '[' :: rest => some ⟨.leftBracket, .brackets false, rest⟩
  | c :: rest =>
    if c.isDigit || (c == '.' && (rest.head?.map Char.isDigit).getD false) then
      (quantity? text).map (stay .plain)
    else if isWordStart c || c == ':' then some (stay .plain (word text))
    else if isMark c then (string? c rest).map (stay .plain)
    else none

/-- Reads a token inside braces. The word between alternatives needs a space behind it. -/
def braces? (text : Text) : Option Lexeme :=
  let sign := fun token rest => some (Lexeme.mk token .braces rest)
  match text with
  | [] => none
  | ',' :: rest => sign .comma rest
  | '=' :: '~' :: rest => sign (.matchOp .regex) rest
  | '=' :: rest => sign (.matchOp .equal) rest
  | '!' :: '=' :: rest => sign (.matchOp .notEqual) rest
  | '!' :: '~' :: rest => sign (.matchOp .notRegex) rest
  | '\x7d' :: rest => some ⟨.rightBrace, .plain, rest⟩
  | c :: rest =>
    if isMark c then (string? c rest).map (stay .braces)
    else if isWordStart c then
      match spanOf isWordChar text with
      | ([o, r], ' ' :: rest) =>
        if o.toLower == 'o' && r.toLower == 'r' then sign .orWord rest
        else sign (.identifier [o, r]) (' ' :: rest)
      | (name, rest) => sign (.identifier name) rest
    else none

/-- Reads a token inside brackets, of which one may be a colon. -/
def brackets? (colon : Bool) (text : Text) : Option Lexeme :=
  match text with
  | [] => none
  | ']' :: rest => some ⟨.rightBracket, .plain, rest⟩
  | ':' :: rest => if colon then none else some ⟨.colon, .brackets true, rest⟩
  | c :: _ => if c.isDigit then (quantity? text).map (stay (.brackets colon)) else none

/-- Reads a token in front of which there are no blanks. -/
def read? : LexMode → Text → Option Lexeme
  | .plain => plain?
  | .braces => braces?
  | .brackets colon => brackets? colon

end Lexeme

namespace Token

/-- The tokens of the rest of a query. -/
def scan? : Nat → LexMode → Text → Option (List Token)
  | 0, _, _ => none
  | fuel + 1, mode, text =>
    match text with
    | [] => if mode = .plain then some [] else none
    | c :: rest =>
      if Lexeme.isSpace c then scan? fuel mode rest
      else if c == '#' && (mode = .plain || mode = .braces) then
        scan? fuel mode (rest.dropWhile fun c => !Lexeme.isLineEnd c)
      else do
        let next ← Lexeme.read? mode text
        (scan? fuel next.mode next.rest).map (next.token :: ·)

/-- Whether every parenthesis has its partner, `opened` being the number of those before. -/
def balanced (opened : Nat) : List Token → Bool
  | [] => opened == 0
  | .leftParen :: ts => balanced (opened + 1) ts
  | .rightParen :: ts => opened != 0 && balanced (opened - 1) ts
  | _ :: ts => balanced opened ts

/-- The tokens of a query. -/
def ofText? (text : Text) : Option (List Token) := do
  let ts ← scan? (text.length + 1) .plain text
  if balanced 0 ts then pure ts else none

end Token

end PromQL

import PromQL.Text.Digits

/-!
# Quoted strings

A string literal is written between double quotes. Inside, the quote and the backslash are
escaped, control characters have a letter escape where there is one and four hexadecimal digits
otherwise, and every other character stands for itself.

`quote` writes the canonical literal of a text, `unquote?` reads the body of any literal: double
or single quoted with escapes, or raw between backticks.
-/

namespace PromQL

/-! ### Writing -/

/-- The form that a character has inside a double-quoted string. -/
def escape (c : Char) : Text :=
  if c = '"' then ['\\', '"']
  else if c = '\\' then ['\\', '\\']
  else if c = '\n' then ['\\', 'n']
  else if c = '\r' then ['\\', 'r']
  else if c = '\t' then ['\\', 't']
  else if c = '\x07' then ['\\', 'a']
  else if c = '\x08' then ['\\', 'b']
  else if c = '\x0b' then ['\\', 'v']
  else if c = '\x0c' then ['\\', 'f']
  else if isControl c then '\\' :: 'u' :: hexPadded 4 c.toNat
  else [c]

/-- The canonical literal of a text, in double quotes. -/
def quote (s : Text) : Text := '"' :: s.flatMap escape ++ ['"']

/-! ### Reading -/

/-- The mark of a raw string, in which no escape has a meaning. -/
def backtick : Char := '\x60'

/-- Where reading stands inside the body of a literal. -/
inductive EscapeState where
  /-- The next character stands for itself or starts an escape. -/
  | plain
  /-- A backslash has been read. -/
  | started
  /-- So many digits of the base are left, and the ones before them make the value. -/
  | digits (base left value : Nat)
  deriving DecidableEq, Repr

/-- The character that a one-letter escape stands for. -/
def letterEscape? (c : Char) : Option Char :=
  if c = 'a' then some '\x07'
  else if c = 'b' then some '\x08'
  else if c = 'f' then some '\x0c'
  else if c = 'n' then some '\n'
  else if c = 'r' then some '\r'
  else if c = 't' then some '\t'
  else if c = 'v' then some '\x0b'
  else if c = '\\' then some '\\'
  else none

/-- How the digits of a numeric escape go on after its first character: the hexadecimal ones have
two, four or eight, an octal one has three, of which the first has been read. -/
def numericEscape? (c : Char) : Option EscapeState :=
  if c = 'x' then some (.digits 16 2 0)
  else if c = 'u' then some (.digits 16 4 0)
  else if c = 'U' then some (.digits 16 8 0)
  else (digit? 8 c).map (.digits 8 2)

/-- An octal escape stays in the first two hundred and fifty-six code points. -/
def escapeLimit (base : Nat) : Nat := if base = 8 then 0x100 else 0x110000

/-- The text that the rest of a body stands for: no raw line break, and every escape complete. -/
def unescape? (mark : Char) : EscapeState → Text → Option Text
  | .plain, [] => some []
  | _, [] => none
  | .plain, c :: cs =>
    if c = '\n' then none
    else if c = '\\' then unescape? mark .started cs
    else (unescape? mark .plain cs).map (c :: ·)
  | .started, c :: cs =>
    if c = mark then (unescape? mark .plain cs).map (c :: ·)
    else match letterEscape? c, numericEscape? c with
      | some d, _ => (unescape? mark .plain cs).map (d :: ·)
      | none, some state => unescape? mark state cs
      | none, none => none
  | .digits base left value, c :: cs => do
    let d ← digit? base c
    let value := value * base + d
    match left with
    | 0 | 1 =>
      if value < escapeLimit base then
        let e ← charOf? value
        (unescape? mark .plain cs).map (e :: ·)
      else none
    | left + 1 => unescape? mark (.digits base left value) cs

/-- The text that a literal stands for, from its mark and the body between the marks. -/
def unquote? (mark : Char) (body : Text) : Option Text :=
  if mark = backtick then
    if body.contains backtick then none else some body
  else unescape? mark .plain body

@[simp] theorem quote_nil : quote [] = ['"', '"'] := rfl

end PromQL

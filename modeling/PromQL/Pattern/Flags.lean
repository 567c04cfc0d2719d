import PromQL.Text.Basic

/-!
# Flags

The flags of patterns that bear on how a pattern is read or how large it is. In a verbose pattern
blanks count for nothing, and neither do comments, which go from a number sign to the end of the
line.
-/

namespace PromQL.Pattern

/-- The flags in force at a place of a pattern: whether it is verbose, whether it speaks of the
characters of Unicode or of bytes, and whether letters stand for both of their cases. -/
structure Flags where
  verbose : Bool
  unicode : Bool
  foldCase : Bool
  deriving DecidableEq, Repr

/-- The flags at the start of a pattern. -/
def Flags.initial : Flags := ⟨false, true, false⟩

/-! ### Setting flags -/

/-- Whether a flag is on behind the given letters, of which those behind a minus sign turn their
flags off. -/
def isOnAfter (flag : Char) (before : Bool) (letters : Text) : Bool :=
  if letters.contains flag then !(letters.takeWhile (· != flag)).contains '-' else before

/-- The flags behind the given letters. -/
def Flags.after (flags : Flags) (letters : Text) : Flags :=
  ⟨isOnAfter 'x' flags.verbose letters, isOnAfter 'u' flags.unicode letters,
    isOnAfter 'i' flags.foldCase letters⟩

/-- The letters of flags up to a colon or a closing parenthesis, each at most once, with one minus
sign at most and a letter behind it; and the text behind them. -/
def flagLetters? (text : Text) : Option (Text × Text) :=
  let letters := text.takeWhile fun c => c != ':' && c != ')'
  let known := letters.all ("-imsUuxR".toList.contains ·)
  if known && decide letters.Nodup && letters.getLast? != some '-' then
    some (letters, text.dropWhile fun c => c != ':' && c != ')')
  else none

/-! ### Blanks and comments -/

/-- The text behind blanks and comments; a comment may have begun before it. -/
def skipBlanks (inComment : Bool) : Text → Text
  | [] => []
  | c :: cs =>
    if inComment then skipBlanks (c != '\n') cs
    else if isBlank c then skipBlanks false cs
    else if c == '#' then skipBlanks true cs
    else c :: cs

/-- The text behind what counts for nothing. -/
def Flags.skip (flags : Flags) (text : Text) : Text :=
  if flags.verbose then skipBlanks false text else text

/-- The characters of a verbose text that count, each with the text behind it. -/
def countingIn (inComment : Bool) : Text → List (Char × Text)
  | [] => []
  | c :: cs =>
    if inComment then countingIn (c != '\n') cs
    else if isBlank c then countingIn false cs
    else if c == '#' then countingIn true cs
    else (c, cs) :: countingIn false cs

/-- All characters of a text, each with the text behind it. -/
def allIn : Text → List (Char × Text)
  | [] => []
  | c :: cs => (c, cs) :: allIn cs

/-- The characters that count, each with the text behind it. -/
def Flags.counting (flags : Flags) (text : Text) : List (Char × Text) :=
  if flags.verbose then countingIn false text else allIn text

/-- The characters of a class at the start of what counts, and the text behind them. -/
def Flags.run (flags : Flags) (p : Char → Bool) (text : Text) : Text × Text :=
  let run := (flags.counting text).takeWhile fun (c, _) => p c
  (run.map Prod.fst, flags.skip ((run.getLast?.map Prod.snd).getD text))

/-- The text up to the closing brace, and the text behind it. -/
def Flags.braced? (flags : Flags) (text : Text) : Option (Text × Text) := do
  let (inner, rest) := flags.run (· != '\x7d') text
  let behind ← ['\x7d'].isPrefixOf? rest
  pure (inner, behind)

/-- The given number of characters that count, and the text behind them. -/
def Flags.take? (flags : Flags) (n : Nat) (text : Text) : Option (Text × Text) :=
  let taken := (flags.counting text).take n
  if taken.length < n then none
  else some (taken.map Prod.fst, (taken.getLast?.map Prod.snd).getD text)

/-- The next character that counts. The number sign of a comment is skipped, but not the comment. -/
def Flags.peek? (flags : Flags) (text : Text) : Option Char :=
  if flags.verbose then
    match text.dropWhile isBlank with
    | '#' :: rest => (rest.dropWhile isBlank).head?
    | rest => rest.head?
  else text.head?

end PromQL.Pattern

import PromQL.Pattern.Class
import PromQL.Text.Letter

/-!
# Reading patterns

The syntax of regular expressions: alternatives of sequences of repeated items, an item being a
character, an escape, a class, an assertion or a group. Groups may have names, which must differ,
and flags for their inside or for the rest of the group around them.

The pattern of a matcher has to match a whole value, so it is read between anchors. Braces that do
not count repetitions are tried as plain characters if the pattern cannot be read otherwise.
-/

namespace PromQL.Pattern

/-! ### Repetition -/

/-- The blanks in front of a number, the number, and the text behind it and more blanks. -/
def count? (flags : Flags) (text : Text) : Option (Nat × Text) := do
  let (digits, rest) := flags.run Char.isDigit (text.dropWhile isBlank)
  let n ← natural? 10 digits
  if n < halfWordCount then pure (n, rest.dropWhile isBlank) else none

/-- The least and the greatest count of a repetition in braces, whose opening brace has been read,
and the text behind the braces. -/
def counts? (flags : Flags) (text : Text) : Option (Nat × Option Nat × Text) := do
  let (least, rest) ← count? flags (flags.skip text)
  match rest with
  | '\x7d' :: behind => pure (least, some least, behind)
  | ',' :: rest =>
    match flags.skip rest with
    | '\x7d' :: behind => pure (least, none, behind)
    | rest =>
      let (most, rest) ← count? flags rest
      let behind ← ['\x7d'].isPrefixOf? rest
      if least ≤ most then pure (least, some most, behind) else none
  | _ => none

/-- Leaves out a mark of laziness. -/
def skipLazy (text : Text) : Text := (['?'].isPrefixOf? text).getD text

/-- Whether a character starts a repetition. -/
def startsRepetition (c : Char) : Bool := c == '*' || c == '?' || c == '+' || c == '\x7b'

/-- The least and the greatest count of the repetition that a text starts with, and the text behind
it. Blanks may stand before the mark of laziness only if the counts are in braces. -/
def repetition? (flags : Flags) : Text → Option (Nat × Option Nat × Text)
  | '*' :: rest => some (0, none, skipLazy rest)
  | '?' :: rest => some (0, some 1, skipLazy rest)
  | '+' :: rest => some (1, none, skipLazy rest)
  | '\x7b' :: rest => do
    let (least, most, behind) ← counts? flags rest
    pure (least, most, skipLazy (flags.skip behind))
  | _ => none

/-! ### Groups -/

/-- What an opening parenthesis starts: a group with flags for its inside, or no group but flags for
the rest of the group around it. -/
inductive GroupStart where
  | group (kind : GroupKind) (letters : Text)
  | setting (letters : Text)
  deriving DecidableEq, Repr

/-- The name of a group up to its closing angle bracket. -/
def groupName? (text : Text) : Option (GroupStart × Text) := do
  let name := text.takeWhile (· != '>')
  let behind ← ['>'].isPrefixOf? (text.dropWhile (· != '>'))
  let isFirst := fun c : Char => c == '_' || isLetter c
  let isRest := fun c : Char => "_.[]".toList.contains c || isLetterOrNumber c
  if isName isFirst isRest name then pure (.group (.capturing (some name)) [], behind) else none

/-- Reads the start of a group behind its parenthesis; there are no groups that look around. -/
def groupStart? : Text → Option (GroupStart × Text)
  | '?' :: 'P' :: '<' :: rest => groupName? rest
  | '?' :: '<' :: rest => groupName? rest
  | '?' :: rest => do
    let (letters, rest) ← flagLetters? rest
    match rest with
    | ':' :: behind => pure (.group .plain letters, behind)
    | ')' :: behind => if letters.isEmpty then none else pure (.setting letters, behind)
    | _ => none
  | rest => some (.group (.capturing none) [], rest)

/-! ### Sequences -/

/-- The sequence of items that have been read, the last one first. -/
def sequenceOf : List Pattern → Pattern
  | [] => empty
  | last :: before => before.foldl (fun rest item => sequence item rest) last

/-- Adds a sequence to the alternatives before it. -/
def choiceOf (before : Option Pattern) (items : List Pattern) : Pattern :=
  match before with
  | some p => choice p (sequenceOf items)
  | none => sequenceOf items

/-- The pattern of an escape. -/
def ofAtom (flags : Flags) : Atom → Pattern
  | .literal c => single (literalSet flags c)
  | .set weight => single (setOf weight)
  | .assertion inEmpty => assertion inEmpty

/-- The item that a repetition is about, and the items before it; settings are not repeated. -/
def repeatable? : List Pattern → Option (Pattern × List Pattern)
  | [] | .setting :: _ => none
  | item :: items => some (item, items)

/-- Reads on up to a closing parenthesis or the end. The alternatives before, and the items of the
current sequence, are what has been read. -/
def read? : Nat → Flags → Option Pattern → List Pattern → Text → Option (Pattern × Text)
  | 0, _, _, _, _ => none
  | fuel + 1, flags, before, items, text =>
    match flags.skip text with
    | [] => some (choiceOf before items, [])
    | ')' :: rest => some (choiceOf before items, ')' :: rest)
    | '|' :: rest => read? fuel flags (some (choiceOf before items)) [] rest
    | '(' :: rest => do
      let (start, rest) ← groupStart? (flags.skip rest)
      match start with
      | .setting letters => read? fuel (flags.after letters) before (.setting :: items) rest
      | .group kind letters =>
        let (inner, rest) ← read? fuel (flags.after letters) none [] rest
        read? fuel flags before (group kind inner :: items) (← [')'].isPrefixOf? rest)
    | '[' :: rest => do
      let (set, behind) ← class? flags rest
      read? fuel flags before (single set :: items) behind
    | '\\' :: rest => do
      let (atom, behind) ← escape? flags rest
      read? fuel flags before (ofAtom flags atom :: items) behind
    | '^' :: rest | '$' :: rest => read? fuel flags before (assertion true :: items) rest
    | '.' :: rest =>
      if flags.unicode then read? fuel flags before (single (setOf complementWeight) :: items) rest
      else none
    | c :: rest =>
      if startsRepetition c then do
        let (item, items) ← repeatable? items
        let (least, most, behind) ← repetition? flags (c :: rest)
        read? fuel flags before (repeated least most item :: items) behind
      else read? fuel flags before (single (literalSet flags c) :: items) rest

/-- The pattern that a whole text spells. Its groups have different names, and it keeps to the
limits. -/
def ofText? (text : Text) : Option Pattern :=
  match read? (text.length + 1) .initial none [] text with
  | some (p, []) => if p.names.Nodup && p.withinLimits then some p else none
  | _ => none

/-! ### Patterns of matchers -/

/-- Puts a backslash before each brace that does not start a count: a number, perhaps a comma and
perhaps another number, and a closing brace. The text is read in one pass. It may be inside a brace,
and then `inside` holds what stands behind the brace, the last character first; the character that
shows that this is no count is a plain one, even if it is another brace or a backslash. -/
def escapeBraces (inside : Option Text) : Text → Text
  | [] =>
    match inside with
    | some held => '\\' :: '\x7b' :: held.reverse
    | none => []
  | c :: cs =>
    match inside with
    | some held =>
      let written := '\x7b' :: (c :: held).reverse
      if c.isDigit || c == ',' && !held.isEmpty && !held.contains ',' then
        escapeBraces (some (c :: held)) cs
      else if c == '\x7d' && !held.isEmpty then written ++ escapeBraces none cs
      else '\\' :: (written ++ escapeBraces none cs)
    | none =>
      match c, cs with
      | '\x7b', cs => escapeBraces (some []) cs
      | '\\', d :: ds => '\\' :: d :: escapeBraces none ds
      | c, cs => c :: escapeBraces none cs

/-- The text of a pattern that has to match a whole value. -/
def anchored (value : Text) : Text := "^(?:".toList ++ value ++ ")$".toList

/-- The pattern of a matcher with the given value. -/
def ofValue? (value : Text) : Option Pattern :=
  ofText? (anchored value) <|> ofText? (escapeBraces none (anchored value))

end PromQL.Pattern

import PromQL.Pattern.Basic
import PromQL.Pattern.Flags
import PromQL.Pattern.Property
import PromQL.Text.Digits

/-!
# Escapes and classes

The smallest parts of a regular expression: escapes, and classes in brackets, which may be nested
and combined. Reading one gives the measures of what it stands for and the text behind it.

A pattern of bytes must not match a part of a character. So there are no properties in it, nor sets
that hold all characters but some, and the members of its classes are ASCII.
-/

namespace PromQL.Pattern

/-- What an escape, or a plain character in a class, stands for. -/
inductive Atom where
  | literal (c : Char)
  | set (weight : Nat)
  | assertion (inEmpty : Bool)
  deriving DecidableEq, Repr

/-! ### Weights -/

/-- The weight of a set of one range of ASCII characters, beyond the weight of an empty set. -/
def rangeWeight : Nat := 8

/-- The weight of the set of all characters but some, beyond the weight of an empty set. -/
def complementWeight : Nat := 936

/-- The weights of the sets that are escapes of one letter, beyond the weight of an empty set. -/
def shortSets : List (Char × Nat) :=
  [('d', 5120), ('s', 616), ('w', 50300), ('D', 12800), ('S', 1860), ('W', 46900)]

/-- The weights of the same sets in patterns of bytes. -/
def shortByteSets : List (Char × Nat) :=
  [('d', rangeWeight), ('s', 2 * rangeWeight), ('w', 4 * rangeWeight)]

/-- A set of the given weight beyond that of an empty set. -/
def setOf (weight : Nat) : CharSet := ⟨0, 2 * stateWeight + weight⟩

/-- The set of a character and, if cases are folded, its other case; the letters `k` and `s` have
another case beyond ASCII. -/
def literalSet (flags : Flags) (c : Char) : CharSet :=
  if flags.foldCase && c.isAlpha then
    if flags.unicode && "kKsS".toList.contains c then setOf (4 * stateWeight)
    else setOf (2 * rangeWeight)
  else ⟨0, c.utf8Size * stateWeight⟩

/-- The set of the characters from one to another as a member of a class. -/
def rangeSet (flags : Flags) (first last : Char) : CharSet :=
  if last.utf8Size = 1 then
    ⟨0, if flags.foldCase && (first.isAlpha || last.isAlpha) then 2 * rangeWeight else rangeWeight⟩
  else if first.utf8Size = last.utf8Size then ⟨0, last.utf8Size * stateWeight + branchWeight⟩
  else ⟨0, complementWeight⟩

/-! ### Escapes -/

/-- The character behind `\x`, `\u` or `\U`, by its code point: so many hexadecimal digits, or any
number of them in braces. -/
def codePoint? (flags : Flags) (width : Nat) (text : Text) : Option (Char × Text) := do
  let (digits, behind) ←
    match flags.skip text with
    | '\x7b' :: rest => flags.braced? rest
    | rest => flags.take? width rest
  pure (← charOf? (← natural? 16 digits), behind)

/-- The character behind `\x`. Two digits without braces stand for a byte in a pattern of bytes, and
that must be ASCII. -/
def byte? (flags : Flags) (text : Text) : Option (Char × Text) := do
  let (c, behind) ← codePoint? flags 2 text
  let inBraces := (flags.skip text).head? == some '\x7b'
  if flags.unicode || inBraces || c.toNat < 128 then pure (c, behind) else none

/-- The property behind `\p`: a letter, or a text in braces. -/
def property? (flags : Flags) (text : Text) : Option (Atom × Text) :=
  match flags.skip text with
  | '\x7b' :: rest => do
    let (name, behind) ← flags.braced? rest
    pure (.set (← propertyWeight? name), behind)
  | c :: rest => do pure (.set (← propertyWeight? [c]), rest)
  | [] => none

/-- The sides of a word at which the empty text can be: at the half borders, but at no full one. -/
def borders : List (String × Bool) :=
  [("start", false), ("end", false), ("start-half", true), ("end-half", true)]

/-- The kind of border that may stand in braces behind `\b`; braces that do not start with a letter
or a dash are left for a repetition. -/
def border? (flags : Flags) (text : Text) : Option (Atom × Text) :=
  match text with
  | '\x7b' :: rest => do
    let first ← (flags.skip rest).head?
    if first.isAlpha || first == '-' then
      let (name, behind) ← flags.braced? rest
      let (_, inEmpty) ← borders.find? fun (word, _) => word.toList == name
      pure (.assertion inEmpty, behind)
    else pure (.assertion false, text)
  | _ => some (.assertion false, text)

/-- Whether an escaped character stands for itself: any ASCII character but letters, digits and
angle brackets. -/
def escapesToItself (c : Char) : Bool :=
  c.toNat < 128 && !c.isAlphanum && c != '<' && c != '>'

/-- The set that a letter stands for behind a backslash. -/
def shortSet? (flags : Flags) (c : Char) : Option Atom :=
  ((if flags.unicode then shortSets else shortByteSets).lookup c).map .set

/-- Reads an escape behind its backslash. -/
def escape? (flags : Flags) : Text → Option (Atom × Text)
  | [] => none
  | c :: rest =>
    if escapesToItself c then some (.literal c, rest)
    else match c with
      | 'x' => (byte? flags rest).map literal
      | 'u' => (codePoint? flags 4 rest).map literal
      | 'U' => (codePoint? flags 8 rest).map literal
      | 'p' | 'P' => if flags.unicode then property? flags rest else none
      | 'a' => some (.literal '\x07', rest)
      | 'f' => some (.literal '\x0c', rest)
      | 't' => some (.literal '\t', rest)
      | 'n' => some (.literal '\n', rest)
      | 'r' => some (.literal '\r', rest)
      | 'v' => some (.literal '\x0b', rest)
      | 'A' | 'z' | 'B' => some (.assertion true, rest)
      | 'b' => border? flags rest
      | '<' | '>' => some (.assertion false, rest)
      | _ => do pure (← shortSet? flags c, rest)
where
  /-- A character that stands for itself. -/
  literal : Char × Text → Atom × Text
    | (c, behind) => (.literal c, behind)

/-! ### Members of classes -/

/-- The names of the classes that stand between `[:` and `:]`, and how many ranges they have. -/
def namedClasses : List (String × Nat) :=
  [("alnum", 3), ("alpha", 2), ("ascii", 1), ("blank", 2), ("cntrl", 2), ("digit", 1),
    ("graph", 1), ("lower", 1), ("print", 1), ("punct", 4), ("space", 2), ("upper", 1),
    ("word", 4), ("xdigit", 3)]

/-- Whether a named class, whose opening bracket has been read, is negated, how many ranges it has,
and the text behind it. -/
def namedClass? (text : Text) : Option (Bool × Nat × Text) := do
  let rest ← [':'].isPrefixOf? text
  let negated := rest.head? == some '^'
  let rest := if negated then rest.drop 1 else rest
  namedClasses.findSome? fun (name, ranges) =>
    (((name ++ ":]").toList).isPrefixOf? rest).map fun behind => (negated, ranges, behind)

/-- One end of a range, or a single member of a class. -/
def member? (flags : Flags) : Text → Option (Atom × Text)
  | [] => none
  | '\\' :: rest => escape? flags rest
  | c :: rest => some (.literal c, rest)

/-- A member of a class or a range of members, whose ends must be characters in order. A dash before
the closing bracket or another dash makes no range. -/
def members? (flags : Flags) (text : Text) : Option (CharSet × Text) := do
  let admits := fun c : Char => flags.unicode || c.toNat < 128
  let (first, rest) ← member? flags text
  let rest := flags.skip rest
  let next := flags.peek? (rest.drop 1)
  if rest.head? == some '-' && next != some ']' && next != some '-' then
    match first, ← member? flags (flags.skip (rest.drop 1)) with
    | .literal a, (.literal b, behind) =>
      if a ≤ b && admits a && admits b then pure (rangeSet flags a b, behind) else none
    | _, _ => none
  else
    match first with
    | .literal c => if admits c then pure (rangeSet flags c c, rest) else none
    | .set weight => pure (⟨0, weight⟩, rest)
    | .assertion _ => none

/-! ### Classes -/

/-- The union of the members of a class, which nests if there are several. -/
def unionOf (members : List CharSet) : CharSet :=
  let depth := members.foldl (fun depth set => max depth set.depth) 0
  let weight := members.foldl (fun weight set => weight + set.weight) 0
  ⟨if members.length < 2 then depth else depth + 1, weight⟩

/-- The members of a class, combined with what stands before the last operator. -/
def combine (left : Option CharSet) (members : List CharSet) : CharSet :=
  let right := unionOf members
  match left with
  | some left => ⟨max left.depth right.depth + 1, left.weight + right.weight⟩
  | none => right

/-- A set in brackets. -/
def bracketed (negated : Bool) (set : CharSet) : CharSet :=
  ⟨set.depth + 1, if negated then set.weight + complementWeight else set.weight⟩

/-- Whether a class, whose opening bracket has been read, is negated, and the text behind the caret.
There are no negated classes of bytes. -/
def classStart? (flags : Flags) (text : Text) : Option (Bool × Text) :=
  match flags.skip text with
  | '^' :: rest => if flags.unicode then some (true, rest) else none
  | rest => some (false, rest)

/-- Reads a class of which the caret has been read. What stands before the last operator and the
members behind it have been read too; a class is opening as long as these are dashes only. There a
dash stands for itself, and so does a closing bracket that comes first. -/
def classRest? (flags : Flags) :
    Nat → Bool → Option CharSet → List CharSet → Text → Option (CharSet × Text)
  | 0, _, _, _, _ => none
  | fuel + 1, opening, left, members, text =>
    match flags.skip text with
    | [] => none
    | c :: rest =>
      if opening && (c == '-' || c == ']' && members.isEmpty) then
        classRest? flags fuel (c == '-') left (⟨0, rangeWeight⟩ :: members) rest
      else if c == ']' then some (combine left members, rest)
      else if c == '[' then
        match namedClass? rest with
        | some (negated, ranges, behind) =>
          let weight := ranges * rangeWeight + if negated then complementWeight else 0
          if negated && !flags.unicode then none
          else classRest? flags fuel false left (⟨0, weight⟩ :: members) behind
        | none => do
          let (negated, rest) ← classStart? flags rest
          let (inner, behind) ← classRest? flags fuel true none [] rest
          classRest? flags fuel false left (bracketed negated inner :: members) behind
      else if (c == '&' || c == '-' || c == '~') && rest.head? == some c then
        classRest? flags fuel false (some (combine left members)) [] (rest.drop 1)
      else do
        let (set, behind) ← members? flags (c :: rest)
        classRest? flags fuel false left (set :: members) behind

/-- Reads a class behind its opening bracket. -/
def class? (flags : Flags) (text : Text) : Option (CharSet × Text) := do
  let (negated, rest) ← classStart? flags text
  let (inner, behind) ← classRest? flags (rest.length + 1) true none [] rest
  let set := bracketed negated inner
  pure (⟨set.depth, 2 * stateWeight + set.weight⟩, behind)

end PromQL.Pattern

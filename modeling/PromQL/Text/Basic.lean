/-!
# Texts

A text is the list of its characters. This module holds the character classes that names and blanks
are made of, the parts that a text may start with, and the search for one text inside another.
-/

namespace PromQL

/-- A text, as the list of its characters. -/
abbrev Text := List Char

/-! ### Names -/

/-- A letter or the underscore: what a label name starts with. -/
def isWordStart (c : Char) : Bool := c.isAlpha || c == '_'

/-- A letter, a digit or the underscore: what a label name goes on with. -/
def isWordChar (c : Char) : Bool := c.isAlphanum || c == '_'

/-- A text of the class `first rest*`: not empty, and each character in its class. -/
def isName (first rest : Char → Bool) : Text → Bool
  | [] => false
  | c :: cs => first c && cs.all rest

@[simp] theorem isName_nil (first rest : Char → Bool) : isName first rest [] = false := rfl

@[simp] theorem isName_cons (first rest : Char → Bool) (c : Char) (cs : Text) :
    isName first rest (c :: cs) = (first c && cs.all rest) := rfl

theorem isWordChar_of_isWordStart {c : Char} (h : isWordStart c) : isWordChar c := by
  simp only [isWordStart, isWordChar, Char.isAlphanum, Bool.or_eq_true] at h ⊢
  exact h.imp_left Or.inl

/-! ### Blanks and controls -/

/-- The white space of Unicode: the characters that have the property `White_Space`. -/
def isBlank (c : Char) : Bool :=
  let n := c.toNat
  (0x09 ≤ n && n ≤ 0x0d) || n == 0x20 || n == 0x85 || n == 0xa0 || n == 0x1680 ||
    (0x2000 ≤ n && n ≤ 0x200a) || n == 0x2028 || n == 0x2029 || n == 0x202f || n == 0x205f ||
    n == 0x3000

/-- The control characters of Unicode: the general category `Cc`. -/
def isControl (c : Char) : Bool :=
  let n := c.toNat
  n ≤ 0x1f || (0x7f ≤ n && n ≤ 0x9f)

/-! ### Starts of texts -/

/-- A nonempty run of characters of a class, and the text behind it. -/
def run? (p : Char → Bool) (text : Text) : Option (Text × Text) :=
  match text.takeWhile p with
  | [] => none
  | c :: cs => some (c :: cs, text.dropWhile p)

/-- The text behind a given word. -/
def after? (word : String) (text : Text) : Option Text := word.toList.isPrefixOf? text

theorem append_of_run? {p : Char → Bool} {text run rest : Text}
    (h : run? p text = some (run, rest)) : run ++ rest = text := by
  unfold run? at h
  split at h
  · simp at h
  · next c cs hc =>
    simp only [Option.some.injEq, Prod.mk.injEq] at h
    rw [← h.1, ← h.2, ← hc]
    exact List.takeWhile_append_dropWhile

/-! ### Search -/

/-- Whether `needle` occurs in a text; the empty text occurs in every text. -/
def occursIn (needle : Text) : Text → Bool
  | [] => needle.isEmpty
  | c :: cs => needle.isPrefixOf (c :: cs) || occursIn needle cs

@[simp] theorem occursIn_nil (needle : Text) : occursIn needle [] = needle.isEmpty := rfl

theorem occursIn_cons (needle : Text) (c : Char) (cs : Text) :
    occursIn needle (c :: cs) = (needle.isPrefixOf (c :: cs) || occursIn needle cs) := rfl

end PromQL

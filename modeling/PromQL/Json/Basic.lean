import PromQL.Text.Digits

/-!
# JSON documents

The values of JSON, read strictly. Numbers and strings are kept as they are spelled: the reader
checks their form, and a number or a string is decoded only where its value is needed.
-/

namespace PromQL

/-- A JSON value; strings, and the keys of objects, by what stands between their quotes. -/
inductive Json where
  | null
  | bool (value : Bool)
  | number (spelling : Text)
  | string (body : Text)
  | array (elements : List Json)
  | object (members : List (Text × Json))
  deriving Repr

namespace Json

/-! ### Strings -/

/-- Reads up to the closing quote. Control characters must be escaped. -/
def body? : Text → Option (Text × Text)
  | [] => none
  | '"' :: rest => some ([], rest)
  | '\\' :: 'u' :: a :: b :: c :: d :: rest =>
    if [a, b, c, d].all (isDigitOf 16) then
      (body? rest).map fun (body, behind) => ('\\' :: 'u' :: a :: b :: c :: d :: body, behind)
    else none
  | '\\' :: c :: rest =>
    if "\"\\/bfnrt".toList.contains c then
      (body? rest).map fun (body, behind) => ('\\' :: c :: body, behind)
    else none
  | c :: rest =>
    if c.toNat < 0x20 || c == '\\' then none
    else (body? rest).map fun (body, behind) => (c :: body, behind)

/-- The character that a one-letter escape stands for. -/
def letterEscape? (c : Char) : Option Char :=
  if c = 'b' then some '\x08'
  else if c = 'f' then some '\x0c'
  else if c = 'n' then some '\n'
  else if c = 'r' then some '\r'
  else if c = 't' then some '\t'
  else if c = '"' ∨ c = '\\' ∨ c = '/' then some c
  else none

/-- The text that the body of a string stands for; surrogates must come in pairs. -/
def decode? : Text → Option Text
  | [] => some []
  | '\\' :: 'u' :: a :: b :: c :: d :: rest => do
    let n ← natural? 16 [a, b, c, d]
    if 0xd800 ≤ n ∧ n < 0xdc00 then
      match rest with
      | '\\' :: 'u' :: e :: f :: g :: h :: rest =>
        let m ← natural? 16 [e, f, g, h]
        if 0xdc00 ≤ m ∧ m < 0xe000 then
          let x ← charOf? (0x10000 + (n - 0xd800) * 0x400 + (m - 0xdc00))
          (decode? rest).map (x :: ·)
        else none
      | _ => none
    else
      let x ← charOf? n
      (decode? rest).map (x :: ·)
  | '\\' :: c :: rest => do
    let x ← letterEscape? c
    (decode? rest).map (x :: ·)
  | c :: rest => (decode? rest).map (c :: ·)

/-! ### Numbers -/

/-- Digits, at least one, and the text behind them. -/
def digits? (text : Text) : Option (Text × Text) := run? Char.isDigit text

/-- The integral part of a number, which has no needless zeros. -/
def whole? (text : Text) : Option (Text × Text) :=
  match text with
  | '0' :: rest => some (['0'], rest)
  | _ => digits? text

/-- The fraction of a number, if it has one. -/
def fraction? (text : Text) : Option (Text × Text) :=
  match text with
  | '.' :: rest => (digits? rest).map fun (ds, behind) => ('.' :: ds, behind)
  | _ => some ([], text)

/-- The exponent of a number, if it has one. -/
def exponent? (text : Text) : Option (Text × Text) :=
  match text with
  | c :: rest =>
    if c == 'e' || c == 'E' then
      match rest with
      | s :: rest' =>
        if s == '+' || s == '-' then
          (digits? rest').map fun (ds, behind) => (c :: s :: ds, behind)
        else (digits? rest).map fun (ds, behind) => (c :: ds, behind)
      | [] => none
    else some ([], text)
  | [] => some ([], [])

/-- Reads a number. -/
def number? (text : Text) : Option (Text × Text) := do
  let (sign, rest) := match text with
    | '-' :: rest => (['-'], rest)
    | rest => ([], rest)
  let (whole, rest) ← whole? rest
  let (fraction, rest) ← fraction? rest
  let (exponent, rest) ← exponent? rest
  pure (sign ++ whole ++ fraction ++ exponent, rest)

/-! ### Values -/

/-- The blanks of JSON. -/
def isSpace (c : Char) : Bool := c == ' ' || c == '\n' || c == '\t' || c == '\r'

/-- The text behind blanks. -/
def skip (text : Text) : Text := text.dropWhile isSpace

mutual

/-- Reads a value in front of which there are no blanks. -/
def value? : Nat → Text → Option (Json × Text)
  | 0, _ => none
  | fuel + 1, text =>
    match text with
    | 'n' :: 'u' :: 'l' :: 'l' :: rest => some (null, rest)
    | 't' :: 'r' :: 'u' :: 'e' :: rest => some (bool true, rest)
    | 'f' :: 'a' :: 'l' :: 's' :: 'e' :: rest => some (bool false, rest)
    | '"' :: rest => (body? rest).map fun (body, behind) => (string body, behind)
    | '[' :: rest =>
      match skip rest with
      | ']' :: behind => some (array [], behind)
      | rest => (elements? fuel rest).map fun (xs, behind) => (array xs, behind)
    | '\x7b' :: rest =>
      match skip rest with
      | '\x7d' :: behind => some (object [], behind)
      | rest => (members? fuel rest).map fun (ms, behind) => (object ms, behind)
    | _ => (number? text).map fun (spelling, behind) => (number spelling, behind)

/-- Reads the elements of an array, of which there is at least one more, and the closing bracket. -/
def elements? : Nat → Text → Option (List Json × Text)
  | 0, _ => none
  | fuel + 1, text => do
    let (x, rest) ← value? fuel text
    match skip rest with
    | ']' :: behind => pure ([x], behind)
    | ',' :: rest =>
      let (xs, behind) ← elements? fuel (skip rest)
      pure (x :: xs, behind)
    | _ => none

/-- Reads the members of an object, of which there is at least one more, and the closing brace. -/
def members? : Nat → Text → Option (List (Text × Json) × Text)
  | 0, _ => none
  | fuel + 1, text =>
    match text with
    | '"' :: rest => do
      let (key, rest) ← body? rest
      match skip rest with
      | ':' :: rest =>
        let (x, rest) ← value? fuel (skip rest)
        match skip rest with
        | '\x7d' :: behind => pure ([(key, x)], behind)
        | ',' :: rest =>
          let (ms, behind) ← members? fuel (skip rest)
          pure ((key, x) :: ms, behind)
        | _ => none
      | _ => none
    | _ => none

end

/-- The value of a document, which holds nothing else but blanks. -/
def ofText? (text : Text) : Option Json :=
  match value? (2 * text.length + 1) (skip text) with
  | some (x, rest) => if (skip rest).isEmpty then some x else none
  | none => none

/-- The natural number below `2⁶⁴` that a value is, spelled with digits alone. -/
def natural? : Json → Option Nat
  | number spelling => do
    let n ← PromQL.natural? 10 spelling
    if n < wordCount then some n else none
  | _ => none

end Json

end PromQL

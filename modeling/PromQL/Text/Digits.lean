import PromQL.Text.Basic

/-!
# Digits

Reading and writing natural numbers in a base up to sixteen. Written decimals have no leading
zeros, read ones may have any number of them.
-/

namespace PromQL

/-! ### Limits -/

/-- The number of values of a word of thirty-two bits. -/
def halfWordCount : Nat := 0x100000000

/-- The number of values of a word of sixty-four bits. -/
def wordCount : Nat := 0x10000000000000000

/-! ### Digits and numbers -/

/-- The value of a digit of the given base, which is at most sixteen; letters have either case. -/
def digit? (base : Nat) (c : Char) : Option Nat :=
  let n := c.toNat
  let value :=
    if '0'.toNat ≤ n ∧ n ≤ '9'.toNat then n - '0'.toNat
    else if 'a'.toNat ≤ n ∧ n ≤ 'f'.toNat then n - 'a'.toNat + 10
    else if 'A'.toNat ≤ n ∧ n ≤ 'F'.toNat then n - 'A'.toNat + 10
    else base
  if value < base then some value else none

/-- Whether `c` is a digit of the given base. -/
def isDigitOf (base : Nat) (c : Char) : Bool := (digit? base c).isSome

/-- Continues a number that has `value` so far with the digits of a text, all of which must be
digits. -/
def naturalFrom? (base value : Nat) : Text → Option Nat
  | [] => some value
  | c :: cs => do
    let d ← digit? base c
    naturalFrom? base (value * base + d) cs

/-- The number that a nonempty text of digits stands for. -/
def natural? (base : Nat) : Text → Option Nat
  | [] => none
  | cs => naturalFrom? base 0 cs

/-- The character with the given code point, which is neither a surrogate nor too large. -/
def charOf? (n : Nat) : Option Char :=
  if h : n.isValidChar then some (Char.ofNatAux n h) else none

/-- The decimal digits of a number, without leading zeros. -/
def decimal (n : Nat) : Text := Nat.toDigits 10 n

/-- The decimal digits of a number, filled up with zeros on the left to a least width. -/
def decimalPadded (width n : Nat) : Text :=
  List.replicate (width - (decimal n).length) '0' ++ decimal n

/-- The lower-case hexadecimal digits of a number, filled up with zeros to a least width. -/
def hexPadded (width n : Nat) : Text :=
  List.replicate (width - (Nat.toDigits 16 n).length) '0' ++ Nat.toDigits 16 n

@[simp] theorem naturalFrom?_nil (base value : Nat) : naturalFrom? base value [] = some value := rfl

@[simp] theorem natural?_nil (base : Nat) : natural? base [] = none := rfl

end PromQL

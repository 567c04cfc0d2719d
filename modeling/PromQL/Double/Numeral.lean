import PromQL.Double.Shortest

/-!
# Numerals

How a number literal is written: with the shortest digits that read back, positionally from
`10⁻⁴` up to `10²¹` and with an exponent outside of it. Zero keeps its sign, infinities and NaN
have names. A time is written with three decimal places instead.

A literal is read as a hexadecimal or octal integer if it is spelled as one, and otherwise as a
decimal with an optional fraction and exponent, rounded to the nearest double.
-/

namespace PromQL.Double

/-! ### Writing -/

/-- The sign in front of a magnitude. -/
def signText (negative : Bool) : Text := if negative then ['-'] else []

/-- The digits of a number `0.d₁d₂… * 10 ^ point` and the place of its point. -/
structure Digits where
  digits : Text
  point : Int
  deriving DecidableEq, Repr

/-- The significant digits of a decimal, without zeros at the end. -/
def Digits.ofDecimal (d : Decimal) : Digits :=
  let digits := decimal d.coefficient
  ⟨(digits.reverse.dropWhile (· == '0')).reverse, digits.length + d.exponent⟩

/-- The digits with the point in its place, and no fraction if all of it would be zero. -/
def Digits.positional (d : Digits) : Text :=
  if d.point ≤ 0 then '0' :: '.' :: List.replicate (-d.point).toNat '0' ++ d.digits
  else
    let whole := d.point.toNat
    if d.digits.length ≤ whole then
      d.digits ++ List.replicate (whole - d.digits.length) '0'
    else d.digits.take whole ++ '.' :: d.digits.drop whole

/-- One digit before the point, the others after it, and the exponent. -/
def Digits.scientific (d : Digits) : Text :=
  let exponent := d.point - 1
  d.digits.take 1 ++ (if d.digits.length ≤ 1 then [] else '.' :: d.digits.drop 1) ++
    'e' :: signText (exponent < 0) ++ decimal exponent.natAbs

/-- Whether a magnitude is written with an exponent: below `10⁻⁴`, zero apart, or from `10²¹`. -/
def needsExponent (units : Nat) : Bool :=
  units != 0 && (units * 10000 < unitsPerOne || Nat.pow 10 21 * unitsPerOne ≤ units)

/-- The literal of a number. -/
def numeral : Double → Text
  | .nan => "NaN".toList
  | .infinite false => "+Inf".toList
  | .infinite true => "-Inf".toList
  | .finite negative rank =>
    let units := unitsOfRank rank
    if units = 0 then signText negative ++ ['0']
    else
      let digits := Digits.ofDecimal (shortest rank)
      signText negative ++
        if needsExponent units then digits.scientific else digits.positional

/-- A number with three decimal places, rounded half to even. -/
def threePlaces : Double → Text
  | .nan => "NaN".toList
  | .infinite negative => signText negative ++ "inf".toList
  | .finite negative rank =>
    let thousandths := roundHalfEven (unitsOfRank rank * 1000) unitsPerOne
    signText negative ++ decimal (thousandths / 1000) ++ '.' :: decimalPadded 3 (thousandths % 1000)

/-! ### Reading -/

/-- The exponent that stands after the letter `e`: an optional sign and at least one digit. -/
def exponentOf? : Text → Option Int
  | '-' :: cs => (natural? 10 cs).map fun n => -(n : Int)
  | '+' :: cs => (natural? 10 cs).map fun n => (n : Int)
  | cs => (natural? 10 cs).map fun n => (n : Int)

/-- The decimal with the given digits before and after the point, at least one in all. -/
def decimalOf? (whole fraction : Text) (exponent : Int) : Option Decimal := do
  let coefficient ← natural? 10 (whole ++ fraction)
  pure ⟨coefficient, exponent - fraction.length⟩

/-- Reads `digits[.digits][e[sign]digits]`, with a lower-case `e`. -/
def readDecimal? (text : Text) : Option Decimal :=
  let mantissa := text.takeWhile (· != 'e')
  let whole := mantissa.takeWhile (· != '.')
  let fraction := (mantissa.dropWhile (· != '.')).drop 1
  match text.dropWhile (· != 'e') with
  | [] => decimalOf? whole fraction 0
  | _ :: rest => do decimalOf? whole fraction (← exponentOf? rest)

/-- The double nearest to an integer that fits sixty-three bits; a larger one is refused. -/
def ofInteger? (n : Option Nat) : Option Double := do
  let n ← n
  if n < signBit then some (ofNat n) else none

/-- Whether a lower-case literal is spelled as an octal integer: a zero in front, more after it,
and nothing that only a decimal has. -/
def isOctal (text : Text) : Bool :=
  text.head? == some '0' && text != ['0'] && text.all fun c => c != '.' && c != '8' && c != '9'

/-- The number that a literal stands for. -/
def ofNumeral? (text : Text) : Option Double :=
  let text := text.map Char.toLower
  if text.contains 'x' then ofInteger? (natural? 16 (text.drop 2))
  else if isOctal text then ofInteger? (natural? 8 (text.drop 1))
  else if text = "inf".toList then some (.infinite false)
  else if text = "nan".toList then some .nan
  else (readDecimal? text).map (ofDecimal false)

end PromQL.Double

import PromQL.Double.Numeral

/-!
# Durations

A duration is a number of nanoseconds. It is written in units from years down to milliseconds, a
year having 365 days and a week seven; what is below a millisecond is not written. Years and weeks
are used only if they take up all that is left, as `90d` reads better than `12w6d`.
-/

namespace PromQL

/-- A length of time in nanoseconds. -/
structure Duration where
  nanoseconds : Nat
  deriving DecidableEq, Repr

/-- The number of nanoseconds in a second. -/
def nanosecondsPerSecond : Nat := 1000000000

/-- The units of a written duration. -/
inductive TimeUnit where
  | year | week | day | hour | minute | second | millisecond
  deriving DecidableEq, Repr

namespace TimeUnit

/-- All units, the longest first. -/
def all : List TimeUnit := [year, week, day, hour, minute, second, millisecond]

/-- The letters of a unit. -/
def symbol : TimeUnit → Text
  | year => "y".toList
  | week => "w".toList
  | day => "d".toList
  | hour => "h".toList
  | minute => "m".toList
  | second => "s".toList
  | millisecond => "ms".toList

/-- The length of a unit. -/
def milliseconds : TimeUnit → Nat
  | year => 365 * 24 * 60 * 60 * 1000
  | week => 7 * 24 * 60 * 60 * 1000
  | day => 24 * 60 * 60 * 1000
  | hour => 60 * 60 * 1000
  | minute => 60 * 1000
  | second => 1000
  | millisecond => 1

/-- The units that are written only if they divide what is left. -/
def onlyExact : TimeUnit → Bool
  | year | week => true
  | _ => false

/-- The place of a unit in `all`. -/
def rank : TimeUnit → Nat
  | year => 0
  | week => 1
  | day => 2
  | hour => 3
  | minute => 4
  | second => 5
  | millisecond => 6

theorem milliseconds_pos (u : TimeUnit) : 0 < u.milliseconds := by cases u <;> decide

end TimeUnit

namespace Duration

/-! ### Writing -/

/-- How often a unit is written when so many milliseconds are left. -/
def count (unit : TimeUnit) (left : Nat) : Nat :=
  if unit.onlyExact && left % unit.milliseconds != 0 then 0 else left / unit.milliseconds

/-- The groups of a count and a unit that make up so many milliseconds, in the order of the given
units; a unit that is not needed has no group. -/
def groups : List TimeUnit → Nat → List (Nat × TimeUnit)
  | [], _ => []
  | unit :: units, left =>
    let n := count unit left
    let rest := groups units (left - n * unit.milliseconds)
    if n = 0 then rest else (n, unit) :: rest

/-- The text of one group. -/
def groupText (group : Nat × TimeUnit) : Text := decimal group.1 ++ group.2.symbol

/-- The text of a duration: zero is `0s`, and any other one its groups down to milliseconds. -/
def text (d : Duration) : Text :=
  if d.nanoseconds = 0 then "0s".toList
  else (groups TimeUnit.all (d.nanoseconds / 1000000)).flatMap groupText

@[simp] theorem text_zero : text ⟨0⟩ = "0s".toList := rfl

@[simp] theorem groups_nil (left : Nat) : groups [] left = [] := rfl

/-! ### Seconds -/

/-- A duration as a number of seconds: the whole seconds and the fraction are rounded to doubles
first, then their sum. -/
def toSeconds (d : Duration) : Double :=
  let whole :=
    Double.nearestRank (d.nanoseconds / nanosecondsPerSecond * Double.unitsPerOne) 1
  let fraction :=
    Double.nearestRank (d.nanoseconds % nanosecondsPerSecond * Double.unitsPerOne)
      nanosecondsPerSecond
  Double.ofUnits false (Double.unitsOfRank whole + Double.unitsOfRank fraction) 1

/-- The duration of a nonnegative number of seconds, to the nearest nanosecond and half to even.
There is none from `2⁶⁴` seconds on. -/
def ofSeconds? : Double → Option Duration
  | .finite _ rank =>
    let units := Double.unitsOfRank rank
    if units < wordCount * Double.unitsPerOne then
      some ⟨roundHalfEven (units * nanosecondsPerSecond) Double.unitsPerOne⟩
    else none
  | _ => none

end Duration

end PromQL

import PromQL.Duration.Basic

/-!
# Reading durations

A written duration is a sequence of groups, each a count and a unit, with the units going down.
A count that does not fit thirty-two bits counts for nothing, and a duration of no length at all
is refused.
-/

namespace PromQL.Duration

/-- The groups that the rest of a text spells, `count` being the digits just before it. -/
def readGroups? : Option Nat → Text → Option (List (Nat × TimeUnit))
  | none, [] => some []
  | some _, [] => none
  | some n, 'm' :: 's' :: cs => (readGroups? none cs).map ((n, .millisecond) :: ·)
  | count, c :: cs =>
    match digit? 10 c, count with
    | some d, _ => readGroups? (some (count.getD 0 * 10 + d)) cs
    | none, some n => do
      let unit ← unitOf? c
      (readGroups? none cs).map ((n, unit) :: ·)
    | none, none => none
where
  /-- The unit with a one-letter symbol. -/
  unitOf? (c : Char) : Option TimeUnit :=
    [.year, .week, .day, .hour, .minute, .second].find? fun u => u.symbol == [c]

/-- Whether each unit is shorter than the one before it. -/
def descending (groups : List (Nat × TimeUnit)) : Bool :=
  decide ((groups.map fun g => g.2.rank).Pairwise (· < ·))

/-- The milliseconds of a group; a count beyond thirty-two bits is dropped. -/
def groupMilliseconds (group : Nat × TimeUnit) : Nat :=
  if group.1 < halfWordCount then group.1 * group.2.milliseconds else 0

/-- The milliseconds of all groups together. -/
def totalMilliseconds (groups : List (Nat × TimeUnit)) : Nat :=
  groups.foldr (fun group total => groupMilliseconds group + total) 0

@[simp] theorem totalMilliseconds_nil : totalMilliseconds [] = 0 := rfl

@[simp] theorem totalMilliseconds_cons (group : Nat × TimeUnit)
    (groups : List (Nat × TimeUnit)) :
    totalMilliseconds (group :: groups) = groupMilliseconds group + totalMilliseconds groups := rfl

/-- The duration that a text spells. -/
def ofText? (text : Text) : Option Duration := do
  let groups ← readGroups? none text
  let total := totalMilliseconds groups
  if descending groups && total != 0 then some ⟨total * 1000000⟩ else none

end PromQL.Duration

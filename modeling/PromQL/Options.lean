import PromQL.Json.Basic

/-!
# Options

The settings of the formatter: how far a level is indented, and how long a line may be. The layout
breaks lines by operator, so the length is carried along but has no effect.

Options are read from a JSON object with the keys `indent` and `maxLineLength`, or from an array
with the two values. What is missing has its default; other keys count for nothing.
-/

namespace PromQL

/-- The settings of the formatter. -/
structure Options where
  indent : Nat
  maxLineLength : Nat
  deriving DecidableEq, Repr

namespace Options

/-- Four blanks a level and eighty columns. -/
def default : Options := ⟨4, 80⟩

/-- The settings as a text for people. -/
def describe (o : Options) : Text :=
  "FormatOptions \x7b indent: ".toList ++ decimal o.indent ++ ", max_line_length: ".toList ++
    decimal o.maxLineLength ++ " \x7d".toList

/-- The value of a member of an object: its default if the key is missing, and none if the key is
there twice or its value is no natural number. -/
def member? (key : String) (members : List (Text × Json)) (default : Nat) : Option Nat :=
  match members.filter fun m => m.1 == key.toList with
  | [] => some default
  | [(_, x)] => x.natural?
  | _ => none

/-- The value in some place of an array: its default if the array is too short. -/
def element? (elements : List Json) (index default : Nat) : Option Nat :=
  match elements[index]? with
  | none => some default
  | some x => x.natural?

/-- The settings that a JSON value holds. -/
def ofJson? : Json → Option Options
  | .object members => do
    let members ← members.mapM fun (key, x) => do pure (← Json.decode? key, x)
    pure ⟨← member? "indent" members default.indent,
      ← member? "maxLineLength" members default.maxLineLength⟩
  | .array elements =>
    if elements.length ≤ 2 then do
      pure ⟨← element? elements 0 default.indent, ← element? elements 1 default.maxLineLength⟩
    else none
  | _ => none

/-- The settings that a JSON document holds. -/
def ofText? (text : Text) : Option Options := (Json.ofText? text).bind ofJson?

end Options

end PromQL

import PromQL.Text.Quoted

/-!
# Names

Label names and metric names are written bare if they are plain identifiers, and as quoted
strings otherwise. A metric name may also have colons.
-/

namespace PromQL

/-- A label name that is a plain identifier. -/
def isBareLabel (name : Text) : Bool := isName isWordStart isWordChar name

/-- A label name as it is written. -/
def labelText (name : Text) : Text := if isBareLabel name then name else quote name

/-- A list of label names as it is written inside the parentheses of a clause. -/
def labelsText (names : List Text) : Text := ", ".toList.intercalate (names.map labelText)

/-- A metric name that is a plain identifier, colons allowed. -/
def isBareMetric (name : Text) : Bool :=
  isName (fun c => isWordStart c || c == ':') (fun c => isWordChar c || c == ':') name

theorem labelText_of_bare {name : Text} (h : isBareLabel name) : labelText name = name :=
  if_pos h

@[simp] theorem labelsText_nil : labelsText [] = [] := rfl

@[simp] theorem labelsText_singleton (name : Text) : labelsText [name] = labelText name := by
  simp [labelsText, List.intercalate]

end PromQL

import PromQL.Offset.Clause
import PromQL.Text.Editing

/-!
# Repairing misplaced offsets

An offset belongs to a selector, but is often written behind the call or aggregation around it,
where the grammar does not allow it. The repair moves such a clause into the range selector that
it is meant for. It looks at the text only, and goes over it twice: first for aggregations whose
grouping clause stands between the call and the offset, then for any other range that is closed by
parentheses and followed by an offset.
-/

namespace PromQL

/-! ### Offsets behind a grouping clause -/

/-- An aggregation of one call, `op(fn(selector[range])) by (labels) offset duration`. The argument
is the call up to the end of its range, `closing` the parentheses but the last. -/
structure GroupedOffset where
  op : Text
  argument : Text
  blanks : Text
  closing : Text
  grouping : GroupingClause
  offset : OffsetClause
  deriving DecidableEq, Repr

namespace GroupedOffset

/-- The aggregation as it stands in the text. -/
def source (g : GroupedOffset) : Text :=
  g.op ++ '(' :: g.argument ++ g.blanks ++ g.closing ++ ')' :: g.grouping.source ++ g.offset.source

/-- The aggregation with its grouping in front and the offset behind the range. -/
def repaired (g : GroupedOffset) : Text :=
  g.op ++ ' ' :: g.grouping.word ++ " (".toList ++ g.grouping.labels ++ ") (".toList ++
    g.argument ++ g.offset.text ++ g.closing ++ [')']

/-- What may stand between parentheses. -/
def isInner (c : Char) : Bool := c != '(' && c != ')'

/-- The ways to cut a text in front of a bracket that is not its first character, the last
bracket first. -/
def cuts : Text → List (Text × Text)
  | [] => []
  | c :: cs =>
    (cuts cs).map (fun (before, behind) => (c :: before, behind)) ++
      if cs.head? == some '[' then [([c], cs)] else []

/-- Goes on behind the selector of the call, with the range. -/
def readFrom? (op argument text : Text) : Option GroupedOffset := do
  let (range, rest) ← Offset.range? text
  let blanks := rest.takeWhile isBlank
  match ← run? (· == ')') (rest.dropWhile isBlank) with
  | (_ :: closing, rest) =>
    if closing.isEmpty then none
    else
      let (grouping, rest) ← GroupingClause.read? rest
      let (offset, _) ← OffsetClause.read? rest
      pure ⟨op, argument ++ range, blanks, closing, grouping, offset⟩
  | ([], _) => none

/-- Reads an aggregation with a misplaced offset; of several brackets in the selector the last one
with which the rest can be read starts the range. -/
def read? (text : Text) : Option GroupedOffset := do
  let (op, rest) ← Offset.opening? text
  let (name, rest) ← run? isInner rest
  let rest ← after? "(" rest
  (cuts (rest.takeWhile isInner)).findSome? fun (selector, behind) =>
    readFrom? op (name ++ '(' :: selector) (behind ++ rest.dropWhile isInner)

/-- The rule that moves a grouping clause to the front and the offset behind the range. -/
def edit? (text : Text) : Option Edit := (read? text).map fun g => ⟨g.source, g.repaired⟩

end GroupedOffset

/-! ### Offsets behind parentheses -/

/-- A range that is closed by parentheses and followed by an offset, perhaps with a grouping clause
in between. The lead is the name and the matchers in front of the range. -/
structure ClosedOffset where
  lead : Text
  range : Text
  closing : Text
  grouping : Option GroupingClause
  offset : OffsetClause
  deriving DecidableEq, Repr

namespace ClosedOffset

/-- The grouping clause as it stands in the text. -/
def groupingSource (c : ClosedOffset) : Text := (c.grouping.map GroupingClause.source).getD []

/-- The selector and its closing as they stand in the text. -/
def source (c : ClosedOffset) : Text :=
  c.lead ++ c.range ++ c.closing ++ c.groupingSource ++ c.offset.source

/-- The same with the offset behind the range. -/
def repaired (c : ClosedOffset) : Text :=
  c.lead ++ c.range ++ c.offset.text ++ c.closing ++ c.groupingSource

/-- Braces and what is in front of them up to the next parenthesis or brace. -/
def braces? (text : Text) : Option (Text × Text) :=
  let before := text.takeWhile fun c => c != '{' && c != '('
  match text.dropWhile fun c => c != '{' && c != '(' with
  | '{' :: rest =>
    match rest.dropWhile (· != '}') with
    | '}' :: behind => some (before ++ '{' :: rest.takeWhile (· != '}') ++ ['}'], behind)
    | _ => none
  | _ => none

/-- The leads that go on from one, with braces or without. -/
def withBraces (lead text : Text) : List (Text × Text) :=
  match braces? text with
  | some (matchers, rest) => [(lead ++ matchers, rest), (lead, text)]
  | none => [(lead, text)]

/-- All leads in the order of preference: a name and a parenthesis if there are, and then braces if
there are. -/
def leads (text : Text) : List (Text × Text) :=
  match Offset.opening? text with
  | some (name, rest) => withBraces (name ++ ['(']) rest ++ withBraces [] text
  | none => withBraces [] text

/-- Goes on behind the lead, with the range. -/
def readFrom? (lead text : Text) : Option ClosedOffset := do
  let (range, rest) ← Offset.range? text
  let (closing, rest) ← run? (· == ')') rest
  match GroupingClause.read? rest with
  | some (grouping, rest) =>
    let (offset, _) ← OffsetClause.read? rest
    pure ⟨lead, range, closing, some grouping, offset⟩
  | none =>
    let (offset, _) ← OffsetClause.read? rest
    pure ⟨lead, range, closing, none, offset⟩

/-- Reads a closed range with a misplaced offset. -/
def read? (text : Text) : Option ClosedOffset :=
  (leads text).findSome? fun (lead, rest) => readFrom? lead rest

/-- The rule that moves an offset behind the range. -/
def edit? (text : Text) : Option Edit := (read? text).map fun c => ⟨c.source, c.repaired⟩

end ClosedOffset

/-- Moves every misplaced offset into its range selector. -/
def Offset.repair (query : Text) : Text :=
  editAll ClosedOffset.edit? (editAll GroupedOffset.edit? query)

end PromQL

import Mathlib
import PromQL.Proofs.Expr.Formatted

/-!
# Formatted text stays as it is

Two expressions that differ only in parts of which the same is written are formatted to the same
text. An expression differs so from its canonical form, and that from what is read of its text if it
is legible, down to whole milliseconds. So what a formatted text stands for is formatted to the same
text again.
-/

namespace PromQL

namespace Expr

/-! ### Changes that are not written -/

/-- The parts that a change gives are written as the ones that it gets. -/
structure Change.KeepsText (f : Change) : Prop where
  body : ∀ s : Selector, (f.selector s).body = s.body
  selector : ∀ s : Selector, (f.selector s).modifiers.text = s.modifiers.text
  duration : ∀ d : Duration, (f.duration d).text = d.text
  step : ∀ step : Option Duration,
    ((f.step step).map Duration.text).getD [] = (step.map Duration.text).getD []
  modifiers : ∀ m : Modifiers, (f.modifiers m).text = m.text
  operator : ∀ (m : BinaryModifiers) (op : BinaryOp) (matching : Bool),
    (f.operator m).operatorText op matching = m.operatorText op matching
  matching : ∀ m : BinaryModifiers, (f.operator m).matchingText? = m.matchingText?

variable {f : Change}

mutual

theorem line_map (hf : f.KeepsText) (e : Expr) : (e.map f).line = e.line := by
  match e with
  | number _ | string _ | extension _ => rfl
  | vector s => simp only [map, line, hf.body, hf.selector]
  | matrix s range => simp only [map, line, hf.body, hf.selector, hf.duration]
  | subquery inner range step modifiers =>
    simp only [map, line, subqueryText, line_map hf inner, hf.duration, hf.step, hf.modifiers]
  | paren inner => simp only [map, line, line_map hf inner]
  | negate inner => simp only [map, line, line_map hf inner]
  | call function arguments => simp only [map, line, lines_mapAll hf arguments]
  | aggregate op grouping none inner => simp only [map, mapOption, line, line_map hf inner]
  | aggregate op grouping (some p) inner =>
    simp only [map, mapOption, line, optionLine, line_map hf inner, line_map hf p]
  | binary op modifiers left right =>
    simp only [map, line, line_map hf left, line_map hf right, hf.operator]

theorem lines_mapAll (hf : f.KeepsText) (es : List Expr) : lines (mapAll f es) = lines es := by
  match es with
  | [] => rfl
  | e :: es => simp only [mapAll, lines, line_map hf e, lines_mapAll hf es]

end

theorem binaryLayout_operator (hf : f.KeepsText) (m : BinaryModifiers) (op : BinaryOp)
    (margin left right : Text) :
    (f.operator m).layout op margin left right = m.layout op margin left right := by
  cases op <;> simp only [BinaryModifiers.layout, hf.operator, hf.matching]

mutual

theorem layout_map (hf : f.KeepsText) (indent depth : Nat) (e : Expr) :
    (e.map f).layout indent depth = e.layout indent depth := by
  match e with
  | number _ | string _ | extension _ => rfl
  | vector s => exact line_map hf (vector s)
  | matrix s range => exact line_map hf (matrix s range)
  | subquery inner range step modifiers => exact line_map hf (subquery inner range step modifiers)
  | paren inner => simp only [map, layout, layout_map hf indent _ inner]
  | negate inner => exact line_map hf (negate inner)
  | call function arguments => simp only [map, layout, layouts_mapAll hf indent _ arguments]
  | aggregate op grouping none inner =>
    simp only [map, mapOption, layout, layout_map hf indent _ inner]
  | aggregate op grouping (some p) inner =>
    simp only [map, mapOption, layout, Option.map_some, line_map hf p, layout_map hf indent _ inner]
  | binary op modifiers left right =>
    simp only [map, layout, layout_map hf indent _ left, layout_map hf indent _ right,
      binaryLayout_operator hf]

theorem layouts_mapAll (hf : f.KeepsText) (indent depth : Nat) (es : List Expr) :
    layouts indent depth (mapAll f es) = layouts indent depth es := by
  match es with
  | [] => rfl
  | e :: es =>
    simp only [mapAll, layouts, layout_map hf indent _ e, layouts_mapAll hf indent _ es]

end

end Expr

/-! ### Canonical forms -/

namespace Duration

/-- A duration cut to whole milliseconds, unless it cannot be read so. -/
def settled (d : Duration) : Duration := if d.Readable then d.cut else d

theorem text_settled (d : Duration) : d.settled.text = d.text := by
  unfold settled
  split
  · next h =>
    have hne : d.nanoseconds ≠ 0 := fun hzero => h.1 (by simp [milliseconds, hzero])
    have hcut : d.cut.nanoseconds ≠ 0 := Nat.mul_ne_zero h.1 (by decide)
    have hms : d.cut.nanoseconds / 1000000 = d.nanoseconds / 1000000 := by
      simp [cut, milliseconds]
    rw [text, text, if_neg hne, if_neg hcut, hms]
  · rfl

theorem asRead_of_readable {d : Duration} (h : d.Readable) : d.asRead = d.settled := by
  rw [asRead, reread, (ofText?_text_eq_cut_iff d).mpr h, settled, if_pos h, Option.getD_some]

theorem stepAsRead_of_readable {step : Option Duration} (h : ∀ s ∈ step, s.Readable) :
    stepAsRead step = step.map settled := by
  cases step with
  | none => rfl
  | some s =>
    have hs := h s rfl
    have hsettled : s.settled = s.cut := if_pos hs
    rw [stepAsRead, rereadStep, if_neg (text_ne_nil_of_readable hs), reread,
      (ofText?_text_eq_cut_iff s).mpr hs]
    exact congrArg some hsettled.symm

end Duration

/-- An offset with a settled duration. -/
def Offset.settled (o : Offset) : Offset := { o with duration := o.duration.settled }

theorem Offset.text_settled (o : Offset) : o.settled.text = o.text := by
  unfold settled text
  rw [o.duration.text_settled]

/-- Modifiers with a settled offset. -/
def Modifiers.settled (m : Modifiers) : Modifiers :=
  { m with offset := m.offset.map Offset.settled }

theorem Modifiers.text_settled (m : Modifiers) : m.settled.text = m.text := by
  obtain ⟨t, o⟩ := m
  cases o with
  | none => rfl
  | some o =>
    unfold settled text
    simp only [Option.map_some, Option.getD_some]
    rw [o.text_settled]

theorem Modifiers.asRead_of_legible {m : Modifiers} (h : m.Legible .faithful) :
    m.asRead = m.settled := by
  obtain ⟨t, o⟩ := m
  have htime : t.map Instant.asRead = t := by
    cases t with
    | none => rfl
    | some t =>
      have ht : t.reread = some t := h.time t rfl
      rw [Option.map_some, Instant.asRead, ht, Option.getD_some]
  have hoffset : o.map Offset.asRead = o.map Offset.settled := by
    cases o with
    | none => rfl
    | some o =>
      rw [Option.map_some, Option.map_some, Offset.asRead, Offset.settled,
        Duration.asRead_of_readable (h.offset o rfl)]
  rw [asRead, settled, htime, hoffset]

namespace Expr

/-- The change of durations and times into what is read of them, where they can be read. -/
def settling : Change :=
  ⟨fun s => { s with modifiers := s.modifiers.settled }, Duration.settled,
    Option.map Duration.settled, Modifiers.settled, id⟩

mutual

theorem asRead_of_legible (e : Expr) (h : e.Legible .faithful) : e.asRead = e.map settling := by
  match e with
  | number _ | string _ | extension _ => rfl
  | vector s => simp only [asRead, map, settling, Modifiers.asRead_of_legible h]
  | matrix s range =>
    simp only [asRead, map, settling, Modifiers.asRead_of_legible h.1,
      Duration.asRead_of_readable h.2]
  | subquery inner range step modifiers =>
    have hinner := asRead_of_legible inner h.1
    simp only [asRead] at hinner
    simp only [asRead, map, hinner, Duration.asRead_of_readable h.2.1,
      Duration.stepAsRead_of_readable h.2.2.1, Modifiers.asRead_of_legible h.2.2.2]
    rfl
  | paren inner => exact congrArg paren (asRead_of_legible inner h)
  | negate inner => exact congrArg negate (asRead_of_legible inner h)
  | call function arguments => exact congrArg (call function) (allAsRead_of_legible arguments h)
  | aggregate op grouping none inner =>
    exact congrArg (aggregate op grouping none) (asRead_of_legible inner h.2.2)
  | aggregate op grouping (some p) inner =>
    exact congrArg₂ (fun p inner => aggregate op grouping (some p) inner)
      (asRead_of_legible p h.2.1) (asRead_of_legible inner h.2.2)
  | binary op modifiers left right =>
    exact congrArg₂ (binary op modifiers) (asRead_of_legible left h.1)
      (asRead_of_legible right h.2.1)

theorem allAsRead_of_legible (es : List Expr) (h : AllLegible .faithful es) :
    mapAll ⟨fun s => { s with modifiers := s.modifiers.asRead }, Duration.asRead,
      Duration.stepAsRead, Modifiers.asRead, id⟩ es = mapAll settling es := by
  match es with
  | [] => rfl
  | e :: es =>
    exact congrArg₂ List.cons (asRead_of_legible e h.1) (allAsRead_of_legible es h.2)

end

end Expr

end PromQL

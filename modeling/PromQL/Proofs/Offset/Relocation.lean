import Mathlib
import PromQL.Proofs.Offset.Finding
import PromQL.Proofs.Offset.Trailing

/-!
# What is moved and what is left alone

The repair does nothing to a text in which no closed range stands in front of an offset, however
close it comes to one. Where the only range of a text stands there, its offset is moved into it: over any
number of parentheses, and whatever is in front of the range.
-/

namespace PromQL

namespace Offset

/-! ### Texts without a misplaced offset -/

/-- Behind the bracket and blanks, a reader tells whether an offset is trailing. -/
theorem trailing_cons_iff {c : Char} {rest : Text} : Trailing (c :: rest) ↔
    c = ']' ∧ (tailReader .closed).run? .bracket (rest.dropWhile isBlank) = some .found := by
  constructor
  · rintro ⟨blanks, rest, grouping, hblanks, hclosing, hgrouping, hoffset⟩
    rename_i closing offset
    refine ⟨rfl, ?_⟩
    obtain ⟨others, rfl, hothers⟩ := hclosing.exists_cons
    have hclauses := TailState.run?_clauses (p := .closed) hothers hgrouping hoffset nofun rest
    rw [List.dropWhile_append_of_pos hblanks]
    exact hclauses
  · rintro ⟨rfl, hread⟩
    obtain ⟨t, ht, htext⟩ := Tail.exists_of_run? hread
    have hrest : rest = rest.takeWhile isBlank ++ (t.closing ++
        ((t.grouping.map GroupingClause.source).getD [] ++ (t.offset.source ++ t.rest))) := by
      conv_lhs => rw [← List.takeWhile_append_dropWhile (p := isBlank) (l := rest), ← htext]
      rw [Tail.text, ht.blanks_eq_nil rfl]
      rfl
    rw [hrest]
    exact .intro _ _ _ (fun c hc => List.mem_takeWhile_imp hc) ht.closing ht.grouping ht.offset

instance : DecidablePred Trailing
  | [] => isFalse nofun
  | _ :: _ => decidable_of_iff _ trailing_cons_iff.symm

/-- The repair leaves a text as it is if none of its ends is a closing bracket with an offset behind
the parentheses that follow. -/
theorem repair_eq_self_of_forall_tails {text : Text} (h : ∀ s ∈ text.tails, ¬ Trailing s) :
    repair text = text :=
  repair_of_not_trailing fun s hs => h s ((List.mem_tails s text).mpr hs)

/-- A query with an offset in its place, one without blanks in front of it, one behind a grouping
clause without labels, one behind the range alone and one without a duration. -/
def nearMisses : Text :=
  ("sum(rate(m[5m] offset 1h)) by (x) - rate(m[5m])offset 1h - " ++
    "sum(rate(m[5m])) by () offset 1h - m[5m] offset 1h - rate(m[5m]) offset (1h)").toList

theorem repair_nearMisses : (∀ s ∈ nearMisses.tails, ¬ Trailing s) ∧
    repair nearMisses = nearMisses := by
  have h : ∀ s ∈ nearMisses.tails, ¬ Trailing s := by decide +kernel
  exact ⟨h, repair_eq_self_of_forall_tails h⟩

/-! ### Texts with one range -/

/-- The first pass needs a grouping clause in front of an offset. -/
theorem run?_grouped_offset {closing : Text} (hclosing : IsClosing closing) {o : OffsetClause}
    (ho : o.Formed) (rest : Text) :
    (tailReader .grouped).run? .bracket (closing ++ (o.source ++ rest)) = none := by
  obtain ⟨b, blanks, hb⟩ := List.exists_cons_of_ne_nil ho.before.1
  have hblank : isBlank b := ho.before.2 b (by simp [hb])
  have hsource : o.source ++ rest =
      o.before ++ ("offset".toList ++ (o.between ++ (o.duration ++ rest))) := by
    simp only [OffsetClause.source, List.append_assoc]
  have hgap : (tailReader .grouped).run? .closed (o.source ++ rest) = none := by
    have hbefore : (tailReader .grouped).run? .closed o.before = some (.gap false) :=
      TailState.run?_blanks (fun _ => TailState.tailReader_closed_blank)
        (fun _ => TailState.tailReader_gap_blank) ho.before
    rw [hsource, Reader.run?_append_of_some hbefore]
    rfl
  obtain ⟨others, rfl, hothers⟩ := hclosing.exists_cons
  cases others with
  | nil =>
    have hsingle : tailReader .grouped .single b = none := by
      simp [tailReader, TailState.ne_paren_of_isBlank hblank]
    have hstep : ∀ behind : Text,
        (tailReader .grouped).run? .bracket (')' :: b :: behind) = none := by
      intro behind
      have hopen : tailReader .grouped .bracket ')' = some .single := rfl
      rw [Reader.run?_cons, hopen, Option.bind_some, Reader.run?_cons, hsingle, Option.bind_none]
    rw [hsource, hb]
    exact hstep _
  | cons d ds =>
    obtain ⟨rfl, hds⟩ := List.forall_mem_cons.mp hothers
    have hread := TailState.run?_closing (p := .grouped) hds
    exact (Reader.run?_append_of_some hread _).trans hgap

/-- A text with one range, which is closed by parentheses in front of an offset. -/
structure LoneRange where
  before : Text
  range : Text
  closing : ℕ
  offset : OffsetClause
  leftBracket_not_mem : '[' ∉ before
  range_ne_nil : range ≠ []
  rightBracket_not_mem : ']' ∉ range
  closing_pos : 1 ≤ closing
  offset_formed : offset.Formed

namespace LoneRange

/-- The text with its offset behind the parentheses. -/
def trailing (r : LoneRange) : Text :=
  r.before ++ '[' :: r.range ++ ']' :: List.replicate r.closing ')' ++ r.offset.before ++
    "offset".toList ++ r.offset.between ++ r.offset.duration

/-- The text with its offset behind the range. -/
def placed (r : LoneRange) : Text :=
  r.before ++ '[' :: r.range ++ "] offset ".toList ++ r.offset.duration ++
    List.replicate r.closing ')'

/-- What stands behind the range. -/
def tail (r : LoneRange) : Tail := ⟨[], List.replicate r.closing ')', none, r.offset, []⟩

theorem tail_formed (r : LoneRange) : r.tail.Formed .closed := by
  have hne : List.replicate r.closing ')' ≠ [] := by
    rw [Ne, List.replicate_eq_nil_iff]
    exact Nat.one_le_iff_ne_zero.mp r.closing_pos
  have hclosing : IsClosing (List.replicate r.closing ')') :=
    ⟨hne, fun c hc => List.eq_of_mem_replicate hc⟩
  exact Tail.formed_closed hclosing (by simp) r.offset_formed (by simp)

theorem text_tail (r : LoneRange) :
    r.tail.text = List.replicate r.closing ')' ++ r.offset.source := by
  simp [tail, Tail.text, GroupingClause.sourceOf]

theorem trailing_eq (r : LoneRange) :
    r.trailing = r.before ++ '[' :: (r.range ++ ']' :: r.tail.text) := by
  rw [text_tail, OffsetClause.source]
  simp only [trailing, List.append_assoc, List.cons_append]

theorem placed_eq (r : LoneRange) : r.placed =
    r.before ++ '[' :: (r.range ++ ']' :: (r.offset.text ++ List.replicate r.closing ')')) := by
  have hword : "] offset ".toList = ']' :: " offset ".toList := rfl
  unfold placed OffsetClause.text
  rw [hword]
  simp only [List.append_assoc, List.cons_append]

theorem leftBracket_not_mem_tail (r : LoneRange) : '[' ∉ r.tail.text := by
  have hclosing : '[' ∉ List.replicate r.closing ')' := r.tail_formed.closing.not_mem (by decide)
  have hduration : '[' ∉ r.offset.duration :=
    fun hmem => absurd (r.offset_formed.duration '[' hmem) (by decide)
  have hword : '[' ∉ "offset".toList := by decide
  simp only [text_tail, OffsetClause.source, List.mem_append, not_or]
  exact ⟨hclosing, ⟨⟨r.offset_formed.before.not_mem (by decide), hword⟩,
    r.offset_formed.between.not_mem (by decide)⟩, hduration⟩

/-- Whatever a pass finds in the text stands in front of the range. -/
theorem exists_inner_of_found (r : LoneRange) {p : Pass} {front lead text : Text}
    (h : Found p front text) (htext : lead ++ text = r.trailing) :
    ∃ inner : Text, inner ≠ [] ∧ ']' ∉ inner ∧
      r.before ++ '[' :: r.range = lead ++ front ++ '[' :: inner ∧
        (tailReader p).run? .bracket r.tail.text = some .found := by
  have hfound : Found p (lead ++ front) ((r.before ++ '[' :: r.range) ++ ']' :: r.tail.text) := by
    have hsplit : (r.before ++ '[' :: r.range) ++ ']' :: r.tail.text = r.trailing := by
      rw [trailing_eq]
      simp
    rw [hsplit, ← htext]
    exact (found_append_iff lead).mpr h
  rcases hfound.cases_bracket with hsame | ⟨rest, -, hrest⟩ | ⟨inner, between, -, -, hcut, -⟩
  · exact hsame
  · exact absurd hrest.mem_bracket r.leftBracket_not_mem_tail
  · have hcut : r.before ++ '[' :: r.range = (lead ++ front ++ '[' :: inner) ++ ']' :: between := by
      rw [hcut]
      simp
    rcases exists_of_append_eq_append_cons hcut with ⟨k, hbefore, -⟩ | ⟨k, -, hrange⟩
    · exact absurd r.leftBracket_not_mem (by simp [hbefore])
    · have hmem : ']' ∈ '[' :: r.range := by
        rw [hrange]
        simp
      exact absurd hmem (by simpa using r.rightBracket_not_mem)

/-- The first pass finds nothing in the text. -/
theorem editAll_grouped (r : LoneRange) : editAll GroupedOffset.edit? r.trailing = r.trailing := by
  refine editAll_of_read?_eq_none fun s ⟨lead, hs⟩ => ?_
  rw [Option.eq_none_iff_forall_ne_some]
  intro g hread
  obtain ⟨front, -, hfound⟩ := GroupedOffset.exists_found_of_read? hread
  obtain ⟨-, -, -, -, hrun⟩ := r.exists_inner_of_found hfound hs
  have hnone := run?_grouped_offset r.tail_formed.closing r.offset_formed []
  rw [List.append_nil] at hnone
  rw [text_tail] at hrun
  cases hnone.symm.trans hrun

/-- What the second pass finds ends where the text ends, and its offset goes behind the range. -/
theorem replaced_of_read? (r : LoneRange) {front text : Text} {c : ClosedOffset}
    (h : ClosedOffset.read? text = some c) (htext : front ++ text = r.trailing) :
    c.source = text ∧ front ++ c.repaired = r.placed := by
  obtain ⟨⟨lead, s⟩, hmem, hread⟩ := List.exists_of_findSome?_eq_some h
  have hlead := ClosedOffset.append_of_mem_leads hmem
  have hs : (front ++ lead) ++ s = r.trailing := by
    rw [List.append_assoc, hlead, htext]
  obtain ⟨inner, hne, hinner, hcut, -⟩ :=
    r.exists_inner_of_found (ClosedOffset.found_of_readFrom? hread) hs
  have hcut : r.before ++ '[' :: r.range = front ++ lead ++ '[' :: inner := by
    rw [hcut, List.append_nil]
  have hsource : s = ('[' :: inner ++ [']']) ++ r.tail.text := by
    have hsplit : (r.before ++ '[' :: r.range) ++ ']' :: r.tail.text = r.trailing := by
      rw [trailing_eq]
      simp
    rw [hcut, ← hs, List.append_assoc (front ++ lead), List.append_cancel_left_eq] at hsplit
    rw [← hsplit]
    simp
  have hfound := ClosedOffset.readFrom?_append ⟨inner, hne, hinner, rfl⟩ r.tail_formed lead
  rw [← hsource] at hfound
  have hread := Option.some.inj (hfound.symm.trans hread)
  rw [← hread]
  constructor
  · rw [← hlead, hsource, text_tail]
    simp [ClosedOffset.source, ClosedOffset.groupingSource, tail]
  · have hplaced : r.placed = (r.before ++ '[' :: r.range) ++
        ']' :: (r.offset.text ++ List.replicate r.closing ')') := by
      rw [placed_eq]
      simp
    rw [hplaced, hcut]
    simp [ClosedOffset.repaired, ClosedOffset.groupingSource, tail]

/-- The second pass puts the offset in its place. -/
theorem editAll_closed (r : LoneRange) : editAll ClosedOffset.edit? r.trailing = r.placed := by
  rcases ClosedOffset.exists_first r.trailing with hnone | ⟨front, rest, c, htext, hread, hall⟩
  · have hfound : Found .closed [] ('[' :: (r.range ++ ']' :: r.tail.text)) :=
      ⟨r.range, r.tail.text, r.range_ne_nil, r.rightBracket_not_mem, rfl, r.tail_formed.run?⟩
    have hread := ClosedOffset.isSome_read?_of_found hfound
    have hsuffix : '[' :: (r.range ++ ']' :: r.tail.text) <:+ r.trailing := by
      rw [trailing_eq]
      exact List.suffix_append _ _
    rw [hnone _ hsuffix] at hread
    cases hread
  · obtain ⟨hsource, hrepaired⟩ := r.replaced_of_read? hread htext.symm
    obtain rfl : rest = [] := List.self_eq_append_right.mp hsource
    rw [hall, editAll_nil, List.append_nil, hrepaired]

end LoneRange

/-- The offset behind a range and any number of parentheses is moved into the range, whatever stands
in front of the range. -/
theorem repair_loneRange (r : LoneRange) : repair r.trailing = r.placed := by
  rw [repair, r.editAll_grouped, r.editAll_closed]

/-- A range in two calls, behind braces with parentheses and quotes in them. -/
def clampedRate : LoneRange where
  before := "clamp_max(rate(m\x7ba=\"x)]\x7d(\"\x7d".toList
  range := "5m".toList
  closing := 2
  offset := ⟨" \t".toList, ['\n'], "$shift".toList⟩
  leftBracket_not_mem := by decide
  range_ne_nil := by decide
  rightBracket_not_mem := by decide
  closing_pos := by decide
  offset_formed := by
    constructor
    case before => exact ⟨by simp, List.all_eq_true.mp (by decide)⟩
    case between => exact ⟨by simp, List.all_eq_true.mp (by decide)⟩
    case duration_ne_nil => simp
    case duration => exact List.all_eq_true.mp (by decide)

theorem repair_clampedRate :
    clampedRate.trailing = "clamp_max(rate(m\x7ba=\"x)]\x7d(\"\x7d[5m])) \toffset\n$shift".toList ∧
      repair clampedRate.trailing =
        "clamp_max(rate(m\x7ba=\"x)]\x7d(\"\x7d[5m] offset $shift))".toList := by
  refine ⟨by decide +kernel, ?_⟩
  rw [repair_loneRange]
  decide +kernel

end Offset

end PromQL

import Mathlib
import PromQL.Proofs.Offset.Placed
import PromQL.Proofs.Offset.Trailing

/-!
# Repairing twice

The repair leaves a text alone exactly if no rule finds anything anywhere in it. After a repair
there is nothing for a rule outside of what the second pass has written; but an edit of the second
pass goes over a name, braces and labels without looking for offsets in them. A second repair finds
what was left there, and nothing else.
-/

namespace PromQL

open Offset (Found)

/-! ### Texts that the repair leaves alone -/

/-- The first character that the first pass changes is the parenthesis behind a name. -/
theorem GroupedOffset.exists_difference (t : Text) : (∀ s, s <:+ t → read? s = none) ∨
    ∃ front behind behind' : Text, t = front ++ '(' :: behind ∧
      editAll edit? t = front ++ ' ' :: behind' := by
  rcases exists_first t with hnone | ⟨before, rest, g, rfl, -, -, -, hall⟩
  · exact .inl hnone
  · refine .inr ⟨before ++ g.op, ?_⟩
    rw [hall]
    simp only [source, repaired, List.append_assoc, List.cons_append]
    exact ⟨_, _, rfl, rfl⟩

/-- The first character that the second pass changes is the parenthesis behind a range. -/
theorem ClosedOffset.exists_difference (t : Text) : (∀ s, s <:+ t → read? s = none) ∨
    ∃ front behind behind' : Text, t = front ++ ')' :: behind ∧
      editAll edit? t = front ++ ' ' :: behind' := by
  rcases exists_first t with hnone | ⟨before, rest, c, rfl, hread, hall⟩
  · exact .inl hnone
  · obtain ⟨hc, -⟩ := formed_of_read? hread
    obtain ⟨closing, hclosing, -⟩ := hc.closing.exists_cons
    have hword : " offset ".toList = ' ' :: "offset ".toList := rfl
    refine .inr ⟨before ++ (c.lead ++ c.range), ?_⟩
    rw [hall]
    unfold source repaired OffsetClause.text
    rw [hclosing, hword]
    simp only [List.append_assoc, List.cons_append]
    exact ⟨_, _, rfl, rfl⟩

namespace Offset

/-- Neither pass finds anything at the start of a text. -/
def Quiet (text : Text) : Prop :=
  GroupedOffset.read? text = none ∧ ClosedOffset.read? text = none

instance : DecidablePred Quiet := fun _ => inferInstanceAs (Decidable (_ ∧ _))

/-- The repair leaves a text alone exactly if no rule finds anything in it. The second pass does not
undo what the first one does: they change parentheses of two kinds into blanks. -/
theorem repair_eq_self_iff_quiet (t : Text) : repair t = t ↔ ∀ s, s <:+ t → Quiet s := by
  constructor
  · intro h
    have hgrouped : ∀ s, s <:+ t → GroupedOffset.read? s = none := by
      rcases GroupedOffset.exists_difference t with hnone | ⟨front, behind, behind', ht, hfirst⟩
      · exact hnone
      · exfalso
        rcases ClosedOffset.exists_difference (editAll GroupedOffset.edit? t) with hnone |
          ⟨front', before, before', hmiddle, hsecond⟩
        · have hsame : repair t = editAll GroupedOffset.edit? t := editAll_of_read?_eq_none hnone
          rw [h, hfirst, ht, List.append_cancel_left_eq] at hsame
          exact absurd (List.head_eq_of_cons_eq hsame) (by decide)
        · have hlast : front ++ '(' :: behind = front' ++ ' ' :: before' := by
            rw [← ht, ← hsecond]
            exact h.symm
          rw [hfirst] at hmiddle
          obtain rfl : front = front' :=
            eq_of_first_differences hmiddle hlast (by decide) (by decide)
          rw [List.append_cancel_left_eq] at hmiddle
          exact absurd (List.head_eq_of_cons_eq hmiddle) (by decide)
    have hfirst : editAll GroupedOffset.edit? t = t := editAll_of_read?_eq_none hgrouped
    have hclosed : ∀ s, s <:+ t → ClosedOffset.read? s = none := by
      rcases ClosedOffset.exists_difference t with hnone | ⟨front, behind, behind', ht, hsecond⟩
      · exact hnone
      · exfalso
        rw [repair, hfirst, hsecond, ht, List.append_cancel_left_eq] at h
        exact absurd (List.head_eq_of_cons_eq h) (by decide)
    exact fun s hs => ⟨hgrouped s hs, hclosed s hs⟩
  · intro h
    exact repair_of_read?_eq_none (fun s hs => (h s hs).1) fun s hs => (h s hs).2

end Offset

/-! ### What the passes leave -/

/-- The first pass leaves nothing for itself, if no aggregation is named like an offset. -/
theorem GroupedOffset.read?_eq_none_of_editAll {t : Text}
    (hname : ∀ e ∈ edits edit? t, ¬ "offset(".toList <+: e.1.source) :
    ∀ s, s <:+ editAll edit? t → read? s = none := by
  induction t using editAll_induction isAnchored_edit? with
  | nil =>
    intro s hs
    rw [List.suffix_nil.mp hs]
    rfl
  | skip c cs hedit ih =>
    intro s hs
    rw [edits_cons_of_none hedit] at hname
    rw [editAll_cons_of_none hedit] at hs
    rw [edit?, Option.map_eq_none_iff] at hedit
    rcases List.suffix_cons_iff.mp hs with rfl | hs
    · rw [Option.eq_none_iff_forall_ne_some]
      intro g hread
      have hop := (formed_of_read? hread).1.op
      obtain ⟨front, hfront, hfound⟩ := exists_found_of_read? hread
      have hx : ∀ s, s <:+ [c] → s ≠ [] → read? (s ++ cs) = none := by
        intro s hs hne
        rcases List.suffix_cons_iff.mp hs with rfl | hs
        · exact hedit
        · exact absurd (List.suffix_nil.mp hs) hne
      have hfound := found_of_editAll hx hname (hfront.rightParen_not_mem hop) hfound
      have hsome := isSome_read?_of_found hop hfront hfound
      rw [List.singleton_append, hedit] at hsome
      cases hsome
    · exact ih hname s hs
  | edited edit rest hne hedit ih =>
    intro s hs
    rw [edits_append_of_some hne hedit] at hname
    rw [editAll_append_of_some hne hedit] at hs
    have ih := ih fun e he => hname e (List.mem_cons_of_mem _ he)
    rcases suffix_append_cases hs with hs | ⟨written, hwritten_ne, hwritten, rfl⟩
    · exact ih s hs
    · obtain ⟨g, hread, rfl⟩ := Option.map_eq_some_iff.mp hedit
      exact read?_of_suffix_repaired hread hwritten_ne hwritten _

namespace Offset

/-- Behind the first pass, the second one leaves nothing outside of what it writes. -/
theorem quiet_of_editAll {t : Text} (hgrouped : ∀ s, s <:+ t → GroupedOffset.read? s = none)
    (hwritten : ∀ e ∈ edits ClosedOffset.edit? t,
      (∀ s, s <:+ editAll ClosedOffset.edit? e.2 → Quiet s) →
        ∀ s ∈ e.1.replacement.tails, s ≠ [] → Quiet (s ++ editAll ClosedOffset.edit? e.2)) :
    ∀ s, s <:+ editAll ClosedOffset.edit? t → Quiet s := by
  induction t using editAll_induction ClosedOffset.isAnchored_edit? with
  | nil =>
    intro s hs
    rw [List.suffix_nil.mp hs]
    exact ⟨rfl, rfl⟩
  | skip c cs hedit ih =>
    intro s hs
    rw [edits_cons_of_none hedit] at hwritten
    rw [editAll_cons_of_none hedit] at hs
    rw [ClosedOffset.edit?, Option.map_eq_none_iff] at hedit
    have ih := ih (fun s hs => hgrouped s (hs.trans (List.suffix_cons c cs))) hwritten
    rcases List.suffix_cons_iff.mp hs with rfl | hs
    · constructor <;> rw [Option.eq_none_iff_forall_ne_some]
      · intro g hread
        have hop := (GroupedOffset.formed_of_read? hread).1.op
        obtain ⟨front, hfront, hfound⟩ := GroupedOffset.exists_found_of_read? hread
        have hfound := ClosedOffset.found_of_editAll (x := [c])
          (hfront.rightParen_not_mem hop) hfound
        have hsome := GroupedOffset.isSome_read?_of_found hop hfront hfound
        rw [List.singleton_append, hgrouped _ List.suffix_rfl] at hsome
        cases hsome
      · intro r hread
        obtain ⟨u, hu, hfound⟩ := ClosedOffset.exists_found_of_read? hread
        rcases List.suffix_cons_iff.mp hu with rfl | hu
        · have hfound := ClosedOffset.found_of_editAll (x := [c]) List.not_mem_nil hfound
          have hsome := ClosedOffset.isSome_read?_of_found hfound
          rw [List.singleton_append, hedit] at hsome
          cases hsome
        · have hsome := ClosedOffset.isSome_read?_of_found hfound
          rw [(ih u hu).2] at hsome
          cases hsome
    · exact ih s hs
  | edited edit rest hne hedit ih =>
    intro s hs
    rw [edits_append_of_some hne hedit] at hwritten
    rw [editAll_append_of_some hne hedit] at hs
    obtain ⟨hfirst, hothers⟩ := List.forall_mem_cons.mp hwritten
    have ih := ih (fun s hs => hgrouped s (hs.trans (List.suffix_append _ _))) hothers
    rcases suffix_append_cases hs with hs | ⟨written, hwritten_ne, hwritten, rfl⟩
    · exact ih s hs
    · exact hfirst ih written ((List.mem_tails _ _).mpr hwritten) hwritten_ne

/-- A second repair changes nothing exactly if no rule finds anything that starts in what an edit of
the second pass has written. Nothing needs to be looked at in front of these edits, between them or
in what the first pass has written. -/
theorem repair_repair_eq_iff {query : Text}
    (hname : ∀ e ∈ edits GroupedOffset.edit? query, ¬ "offset(".toList <+: e.1.source) :
    repair (repair query) = repair query ↔
      ∀ e ∈ edits ClosedOffset.edit? (editAll GroupedOffset.edit? query),
        ∀ s ∈ e.1.replacement.tails, s ≠ [] → Quiet (s ++ editAll ClosedOffset.edit? e.2) := by
  rw [repair_eq_self_iff_quiet]
  constructor
  · intro h e he s hs _
    have hsuffix : s ++ editAll ClosedOffset.edit? e.2 <:+
        e.1.replacement ++ editAll ClosedOffset.edit? e.2 := by
      obtain ⟨front, hfront⟩ := (List.mem_tails _ _).mp hs
      exact ⟨front, by rw [← List.append_assoc, hfront]⟩
    exact h _ (hsuffix.trans (suffix_editAll_of_mem_edits ClosedOffset.isAnchored_edit? he))
  · intro h
    exact quiet_of_editAll (GroupedOffset.read?_eq_none_of_editAll hname) fun e he _ => h e he

/-- A sum with labels behind it over an average with braces and without labels. -/
def shiftedQuotient : Text :=
  "sum(rate(m[1m])) by (x) offset $a / avg(rate(n\x7bb=\"c\"\x7d[5m])) offset 1d".toList

theorem repair_repair_shiftedQuotient :
    (∀ e ∈ edits GroupedOffset.edit? shiftedQuotient, ¬ "offset(".toList <+: e.1.source) ∧
      repair (repair shiftedQuotient) = repair shiftedQuotient := by
  have hname : ∀ e ∈ edits GroupedOffset.edit? shiftedQuotient,
      ¬ "offset(".toList <+: e.1.source := by decide +kernel
  exact ⟨hname, (repair_repair_eq_iff hname).mpr (by decide +kernel)⟩

/-- A second repair changes nothing if no edit of the second pass goes over brackets but those of its
range. -/
theorem repair_repair_of_not_mem {query : Text}
    (hname : ∀ e ∈ edits GroupedOffset.edit? query, ¬ "offset(".toList <+: e.1.source)
    (hclosed : ∀ s c, s <:+ editAll GroupedOffset.edit? query → ClosedOffset.read? s = some c →
      ']' ∉ c.lead ∧ '[' ∉ c.groupingSource) :
    repair (repair query) = repair query := by
  rw [repair_eq_self_iff_quiet]
  refine quiet_of_editAll (GroupedOffset.read?_eq_none_of_editAll hname) ?_
  intro e he hbehind s hs hne
  obtain ⟨c, hedit, hsuffix, hread⟩ := exists_read_of_mem_edits ClosedOffset.isAnchored_edit? he
  obtain ⟨hlead, hgrouping⟩ := hclosed _ c hsuffix hread
  obtain ⟨hc, -⟩ := ClosedOffset.formed_of_read? hread
  rw [List.mem_tails, hedit] at hs
  constructor <;> rw [Option.eq_none_iff_forall_ne_some]
  · intro g hread
    obtain ⟨front, hfront, hfound⟩ := GroupedOffset.exists_found_of_read? hread
    have hparen := hfront.rightParen_not_mem (GroupedOffset.formed_of_read? hread).1.op
    exact ClosedOffset.not_found_of_suffix_repaired hc hlead hgrouping hne hs hparen hfound
  · intro r hread
    obtain ⟨u, hu, hfound⟩ := ClosedOffset.exists_found_of_read? hread
    rcases suffix_append_cases hu with hu | ⟨written, hwritten_ne, hwritten, rfl⟩
    · have hsome := ClosedOffset.isSome_read?_of_found hfound
      rw [(hbehind u hu).2] at hsome
      cases hsome
    · exact ClosedOffset.not_found_of_suffix_repaired hc hlead hgrouping hwritten_ne
        (hwritten.trans hs) List.not_mem_nil hfound

/-- A call with two ranges. The braces of the second one are read together with all that is in front
of them up to a parenthesis, and so with the offset behind the first one. -/
def offsetInLead : Text :=
  "quantile_over_time(scalar(rate(m[5m]) offset 1h), n\x7ba=\"b\"\x7d[5m]) offset 2h".toList

theorem repair_repair_offsetInLead_ne : repair (repair offsetInLead) ≠ repair offsetInLead := by
  have honce : repair offsetInLead = ("quantile_over_time(scalar(rate(m[5m]) offset 1h), " ++
      "n\x7ba=\"b\"\x7d[5m] offset 2h)").toList := by decide +kernel
  have htwice : repair (repair offsetInLead) =
      ("quantile_over_time(scalar(rate(m[5m] offset 1h)), " ++
        "n\x7ba=\"b\"\x7d[5m] offset 2h)").toList := by
    rw [honce]
    decide +kernel
  rw [htwice, honce]
  decide +kernel

end Offset

end PromQL

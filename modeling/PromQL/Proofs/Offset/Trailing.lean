import Mathlib
import PromQL.Proofs.Offset.Shape

/-!
# Offsets behind closed ranges

Both passes of the repair look for the same thing in a text: a bracket that closes a range,
parentheses that close what is around it, and an offset behind them, perhaps with a grouping clause
in between. A text without that is left as it is.
-/

namespace PromQL

namespace Offset

/-- A closed range at the end of its brackets, with parentheses and an offset behind it. -/
inductive Trailing : Text → Prop where
  | intro {closing : Text} {offset : OffsetClause} (blanks rest : Text)
      (grouping : Option GroupingClause) (hblanks : ∀ c ∈ blanks, isBlank c)
      (hclosing : IsClosing closing) (hgrouping : ∀ g ∈ grouping, g.Formed)
      (hoffset : offset.Formed) :
      Trailing (']' :: (blanks ++ (closing ++
        ((grouping.map GroupingClause.source).getD [] ++ (offset.source ++ rest)))))

/-- A text in which no rule finds anything is not repaired. -/
theorem repair_of_read?_eq_none {text : Text}
    (hgrouped : ∀ s, s <:+ text → GroupedOffset.read? s = none)
    (hclosed : ∀ s, s <:+ text → ClosedOffset.read? s = none) : repair text = text := by
  have hfirst : editAll GroupedOffset.edit? text = text := by
    refine editAll_of_none fun a b hab _ => ?_
    rw [GroupedOffset.edit?, hgrouped b ⟨a, hab.symm⟩, Option.map_none]
  have hsecond : editAll ClosedOffset.edit? text = text := by
    refine editAll_of_none fun a b hab _ => ?_
    rw [ClosedOffset.edit?, hclosed b ⟨a, hab.symm⟩, Option.map_none]
  rw [repair, hfirst, hsecond]

/-- A text is not repaired if it has no end of a kind that everything the rules find has. -/
theorem repair_of_not_suffix {p : Text → Prop} {text : Text}
    (hgrouped : ∀ s g, GroupedOffset.read? s = some g → ∃ t, t <:+ s ∧ p t)
    (hclosed : ∀ s c, ClosedOffset.read? s = some c → ∃ t, t <:+ s ∧ p t)
    (h : ∀ s, s <:+ text → ¬ p s) : repair text = text := by
  refine repair_of_read?_eq_none (fun s hs => ?_) fun s hs => ?_
  · rw [Option.eq_none_iff_forall_ne_some]
    intro g hread
    obtain ⟨t, ht, hp⟩ := hgrouped s g hread
    exact h t (ht.trans hs) hp
  · rw [Option.eq_none_iff_forall_ne_some]
    intro c hread
    obtain ⟨t, ht, hp⟩ := hclosed s c hread
    exact h t (ht.trans hs) hp

end Offset

open Offset (Trailing)

/-- What the first pass finds is behind a closed range. -/
theorem GroupedOffset.trailing_of_read? {text : Text} {g : GroupedOffset}
    (h : read? text = some g) : ∃ s, s <:+ text ∧ Trailing s := by
  obtain ⟨hformed, rest, rfl, -⟩ := formed_of_read? h
  obtain ⟨lead, range, ⟨inner, -, -, rfl⟩, hargument⟩ := hformed.argument
  refine ⟨_, ?_, .intro _ rest (some g.grouping) hformed.blanks hformed.closing.append_paren
    (by simpa using hformed.grouping) hformed.offset⟩
  exact ⟨g.op ++ '(' :: (lead ++ '[' :: inner), by simp [source, hargument]⟩

/-- What the second pass finds is behind a closed range. -/
theorem ClosedOffset.trailing_of_read? {text : Text} {c : ClosedOffset}
    (h : read? text = some c) : ∃ s, s <:+ text ∧ Trailing s := by
  obtain ⟨hformed, rest, rfl, -⟩ := formed_of_read? h
  obtain ⟨inner, -, -, hrange⟩ := hformed.range
  refine ⟨_, ?_, .intro [] rest _ nofun hformed.closing hformed.grouping
    hformed.offset⟩
  exact ⟨c.lead ++ '[' :: inner, by simp [source, groupingSource, hrange]⟩

/-- A text with no offset behind a closed range is not repaired. -/
theorem Offset.repair_of_not_trailing {text : Text} (h : ∀ s, s <:+ text → ¬ Trailing s) :
    repair text = text :=
  repair_of_not_suffix (fun _ _ => GroupedOffset.trailing_of_read?)
    (fun _ _ => ClosedOffset.trailing_of_read?) h

end PromQL

import Mathlib.Data.List.Sort
import PromQL.Label.Matcher

/-!
# The canonical order of matchers

The order is total and tells different matchers apart, so the canonical form of a group depends
only on which matchers it holds, and sorting it once more changes nothing.
-/

namespace PromQL.Matcher

/-- The canonical order as a relation. -/
abbrev le (a b : Matcher) : Prop := (compare a b).isLE

instance : Std.TransCmp compare :=
  inferInstanceAs (Std.TransCmp (compareLex (compareOn name)
    (compareLex (compareOn fun m => m.op.rank) (compareOn value))))

theorem rank_injective {a b : MatchOp} (h : a.rank = b.rank) : a = b := by
  cases a <;> cases b <;> first | rfl | cases h

theorem eq_of_compare {a b : Matcher} (h : compare a b = .eq) : a = b := by
  obtain ⟨hname, hrest⟩ := Ordering.then_eq_eq.mp h
  obtain ⟨hop, hvalue⟩ := Ordering.then_eq_eq.mp hrest
  obtain ⟨name, op, value⟩ := a
  obtain ⟨name', op', value'⟩ := b
  have hname : name = name' := Std.LawfulEqCmp.eq_of_compare hname
  have hop : op = op' := rank_injective (Std.LawfulEqCmp.eq_of_compare hop)
  have hvalue : value = value' := Std.LawfulEqCmp.eq_of_compare hvalue
  rw [hname, hop, hvalue]

instance : IsTrans Matcher le := ⟨fun _ _ _ => Std.TransCmp.isLE_trans⟩

instance : Std.Total le where
  total a b := by
    by_cases h : le a b
    · exact .inl h
    · apply Or.inr
      rw [le, Ordering.isLE_iff_eq_lt_or_eq_eq]
      exact .inl (Std.OrientedCmp.lt_of_not_isLE h)

instance : Std.Antisymm le where
  antisymm _ _ hab hba := eq_of_compare (Std.OrientedCmp.isLE_antisymm hab hba)

theorem insert_eq_orderedInsert (m : Matcher) (group : List Matcher) :
    insert m group = group.orderedInsert le m := by
  induction group with
  | nil => rfl
  | cons n ns ih => rw [insert, List.orderedInsert, ih]

theorem sort_eq_insertionSort (group : List Matcher) : sort group = group.insertionSort le := by
  induction group with
  | nil => rfl
  | cons m group ih => rw [sort_cons, ih, insert_eq_orderedInsert, List.insertionSort_cons]

theorem pairwise_sort (group : List Matcher) : (sort group).Pairwise le := by
  rw [sort_eq_insertionSort]
  exact List.pairwise_insertionSort le group

/-- Sorting what has been sorted changes nothing. -/
theorem sort_of_pairwise {group : List Matcher} (h : group.Pairwise le) : sort group = group := by
  rw [sort_eq_insertionSort]
  exact h.insertionSort_eq

/-- Groups have the same canonical form if and only if they hold the same matchers. -/
theorem sort_eq_sort_iff (a b : List Matcher) : sort a = sort b ↔ a.Perm b := by
  constructor
  · intro h
    exact (sort_perm a).symm.trans (h ▸ sort_perm b)
  · intro h
    apply List.Perm.eq_of_pairwise' (pairwise_sort a) (pairwise_sort b)
    exact (sort_perm a).trans (h.trans (sort_perm b).symm)

end PromQL.Matcher

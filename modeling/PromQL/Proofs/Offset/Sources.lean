import PromQL.Proofs.Offset.Shape

/-!
# What a repair is made of

A repair writes the parts of the text that it has found in another order, with a few words and signs
of its own. So a repaired text has no other characters than these.
-/

namespace PromQL

/-- The characters that a repair may write on its own. -/
def Offset.ownChars : Text := " offset ()".toList

/-- A text has no characters that do not come from another one or from the repair itself. -/
def Offset.MadeOf (text repaired : Text) : Prop := ∀ c ∈ repaired, c ∈ text ∨ c ∈ ownChars

theorem Offset.MadeOf.append {text a b : Text} (ha : MadeOf text a) (hb : MadeOf text b) :
    MadeOf text (a ++ b) := by
  intro c hc
  rcases List.mem_append.mp hc with hc | hc
  · exact ha c hc
  · exact hb c hc

theorem Offset.MadeOf.part {text a : Text} (h : a ⊆ text) : MadeOf text a :=
  fun _ hc => .inl (h hc)

theorem Offset.MadeOf.own {text a : Text} (h : a ⊆ ownChars) : MadeOf text a :=
  fun _ hc => .inr (h hc)

theorem Offset.madeOf_editAll {rule : Text → Option Edit}
    (hrule : ∀ text edit, rule text = some edit → MadeOf text edit.replacement) (text : Text) :
    MadeOf text (editAll rule text) := by
  induction hn : text.length using Nat.strongRecOn generalizing text with
  | ind n ih =>
    subst hn
    intro d hd
    cases text with
    | nil => cases hd
    | cons c cs =>
      cases hr : rule (c :: cs) with
      | none =>
        rw [editAll_cons_of_none hr] at hd
        rcases List.mem_cons.mp hd with rfl | hd
        · exact .inl List.mem_cons_self
        · exact (ih _ (Nat.lt_succ_self _) cs rfl d hd).imp_left (List.mem_cons_of_mem c)
      | some edit =>
        rw [editAll, editFrom_zero_cons_of_some hr, editFrom_eq_drop] at hd
        rcases List.mem_append.mp hd with hd | hd
        · exact hrule _ edit hr d hd
        · have hlength : (cs.drop (edit.source.length - 1)).length < (c :: cs).length := by
            rw [List.length_drop, List.length_cons]
            omega
          refine (ih _ hlength _ rfl d hd).imp_left fun hmem => ?_
          exact List.mem_cons_of_mem c (List.mem_of_mem_drop hmem)

theorem OffsetClause.madeOf_text {text : Text} {c : OffsetClause} (h : c.duration ⊆ text) :
    Offset.MadeOf text c.text :=
  .append (.own (by decide)) (.part h)

theorem GroupedOffset.madeOf_repaired (g : GroupedOffset) :
    Offset.MadeOf g.source g.repaired := by
  have hblank : Offset.MadeOf g.source [' '] := .own (by decide)
  have hopen : Offset.MadeOf g.source " (".toList := .own (by decide)
  have hbetween : Offset.MadeOf g.source ") (".toList := .own (by decide)
  have hclose : Offset.MadeOf g.source [')'] := .own (by decide)
  have hop : g.op ⊆ g.source := by intro c hc; simp [source, hc]
  have hword : g.grouping.word ⊆ g.source := by
    intro c hc
    simp [source, GroupingClause.source, hc]
  have hlabels : g.grouping.labels ⊆ g.source := by
    intro c hc
    simp [source, GroupingClause.source, hc]
  have hargument : g.argument ⊆ g.source := by intro c hc; simp [source, hc]
  have hclosing : g.closing ⊆ g.source := by intro c hc; simp [source, hc]
  have hduration : g.offset.duration ⊆ g.source := by
    intro c hc
    simp [source, OffsetClause.source, hc]
  have htext := OffsetClause.madeOf_text hduration
  have hfront := ((Offset.MadeOf.part hop).append (hblank.append (.part hword))).append hopen
  have hmiddle := ((hfront.append (.part hlabels)).append hbetween).append (.part hargument)
  exact ((hmiddle.append htext).append (.part hclosing)).append hclose

theorem ClosedOffset.madeOf_repaired (c : ClosedOffset) :
    Offset.MadeOf c.source c.repaired := by
  have hlead : c.lead ⊆ c.source := by intro d hd; simp [source, hd]
  have hrange : c.range ⊆ c.source := by intro d hd; simp [source, hd]
  have hclosing : c.closing ⊆ c.source := by intro d hd; simp [source, hd]
  have hgrouping : c.groupingSource ⊆ c.source := by intro d hd; simp [source, hd]
  have hduration : c.offset.duration ⊆ c.source := by
    intro d hd
    simp [source, OffsetClause.source, hd]
  have hfront := (Offset.MadeOf.part hlead).append (.part hrange)
  exact ((hfront.append (OffsetClause.madeOf_text hduration)).append (.part hclosing)).append
    (.part hgrouping)

/-- Repairing a text brings in no characters but those of its own words and signs. -/
theorem Offset.madeOf_repair (text : Text) : MadeOf text (repair text) := by
  have hgrouped : ∀ t edit, GroupedOffset.edit? t = some edit → MadeOf t edit.replacement := by
    intro t edit h c hc
    obtain ⟨g, hg, rfl⟩ := Option.map_eq_some_iff.mp h
    exact (g.madeOf_repaired c hc).imp_left fun hmem =>
      (GroupedOffset.prefix_of_read? hg).subset hmem
  have hclosed : ∀ t edit, ClosedOffset.edit? t = some edit → MadeOf t edit.replacement := by
    intro t edit h c hc
    obtain ⟨r, hr, rfl⟩ := Option.map_eq_some_iff.mp h
    exact (r.madeOf_repaired c hc).imp_left fun hmem =>
      (ClosedOffset.prefix_of_read? hr).subset hmem
  intro c hc
  rcases madeOf_editAll hclosed _ c hc with hc | hc
  · exact madeOf_editAll hgrouped text c hc
  · exact .inr hc

theorem Offset.not_mem_repair_of_not_mem {text : Text} {c : Char} (hown : c ∉ ownChars)
    (h : c ∉ text) : c ∉ repair text :=
  fun hmem => (madeOf_repair text c hmem).elim h hown

end PromQL

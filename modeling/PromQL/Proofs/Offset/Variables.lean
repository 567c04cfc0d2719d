import Mathlib
import PromQL.Proofs.Offset.Conservation
import PromQL.Proofs.Template.Separation

/-!
# Repairing keeps the variables

The parts that a repair moves begin and end at blanks, brackets and parentheses, so no variable is
cut where they are taken away, and none grows where they are put. The variables of the text stay, as
often as they were there, in another order.
-/

namespace PromQL

/-! ### Clauses -/

theorem IsBlanks.isSeparator {text : Text} (h : IsBlanks text) : ∀ c ∈ text, IsSeparator c :=
  fun c hc => .of_isBlank (h.2 c hc)

theorem isSeparator_paren : IsSeparator ')' := ⟨by decide, by decide⟩

theorem Offset.IsClosing.isSeparator {text : Text} (h : IsClosing text) :
    ∀ c ∈ text, IsSeparator c := by
  intro c hc
  rw [h.2 c hc]
  exact isSeparator_paren

/-- The variables of a grouping clause are those of its labels. -/
theorem GroupingClause.Formed.variablesOf_append_source {c : GroupingClause} (h : c.Formed)
    (front rest : Text) : variablesOf (front ++ (c.source ++ rest)) =
      variablesOf front ++ (variablesOf c.labels ++ variablesOf rest) := by
  have hword : '$' ∉ c.word := by
    rcases h.word with hword | hword <;> rw [hword] <;> decide
  have hopening : ∀ d ∈ c.between ++ ['('], IsSeparator d := by
    simp only [List.forall_mem_append, List.forall_mem_singleton]
    exact ⟨h.between.isSeparator, by decide, by decide⟩
  have hsource : c.source ++ rest = c.before ++ (c.word ++ (c.between ++ ['(']) ++
      (c.labels ++ ')' :: rest)) := by
    simp [source]
  have hword : '$' ∉ c.word ++ (c.between ++ ['(']) := by
    rw [List.mem_append, not_or]
    exact ⟨hword, fun hmem => (hopening _ hmem).2 rfl⟩
  rw [hsource, variablesOf_append_separators h.before.1 h.before.isSeparator,
    variablesOf_append_of_not_mem hword, variablesOf_append_cons isSeparator_paren]

/-- The variables of an offset clause are those of its duration, if it ends there. -/
theorem OffsetClause.Formed.variablesOf_append_source {c : OffsetClause} (h : c.Formed)
    (front : Text) {rest : Text} (hrest : ∀ d ∈ rest.head?, ¬ isWordChar d) :
    variablesOf (front ++ (c.source ++ rest)) =
      variablesOf front ++ (variablesOf c.duration ++ variablesOf rest) := by
  have hword : '$' ∉ "offset".toList ++ c.between := by
    rw [List.mem_append, not_or]
    exact ⟨by decide, fun hmem => (h.between.isSeparator _ hmem).2 rfl⟩
  have hsource : c.source ++ rest =
      c.before ++ ("offset".toList ++ c.between ++ (c.duration ++ rest)) := by
    simp only [source, List.append_assoc]
  rw [hsource, variablesOf_append_separators h.before.1 h.before.isSeparator,
    variablesOf_append_of_not_mem hword, variablesOf_append hrest]

/-- The variables of an offset clause that is written in front of closing parentheses. -/
theorem OffsetClause.variablesOf_append_text (c : OffsetClause) (front rest : Text) {closing : Text}
    (h : Offset.IsClosing closing) : variablesOf (front ++ (c.text ++ (closing ++ rest))) =
      variablesOf front ++ (variablesOf c.duration ++ variablesOf rest) := by
  have hword : '$' ∉ "offset ".toList := by decide
  have hspace : " offset ".toList = ' ' :: "offset ".toList := by decide
  have htext : c.text ++ (closing ++ rest) =
      ' ' :: ("offset ".toList ++ (c.duration ++ (closing ++ rest))) := by
    have happend := congrArg (· ++ c.duration ++ (closing ++ rest)) hspace
    refine happend.trans ?_
    simp only [List.append_assoc, List.cons_append]
  rw [htext, variablesOf_append_cons ⟨by decide, by decide⟩, variablesOf_append_of_not_mem hword,
    variablesOf_append_separators h.1 h.isSeparator]

/-! ### What is moved -/

/-- Moving a grouping clause to the front and an offset behind the range keeps the variables of an
aggregation, wherever it stands. -/
theorem GroupedOffset.Formed.variablesOf_repaired_perm {g : GroupedOffset} (h : g.Formed)
    (front : Text) {rest : Text} (hrest : ∀ c ∈ rest.head?, ¬ isWordChar c) :
    (variablesOf (front ++ (g.repaired ++ rest))).Perm
      (variablesOf (front ++ (g.source ++ rest))) := by
  have hspace : IsSeparator ' ' := ⟨by decide, by decide⟩
  have hclosing := h.closing.append_paren
  have hrepaired : variablesOf (front ++ (g.repaired ++ rest)) =
      variablesOf (front ++ g.op) ++ (variablesOf g.grouping.labels ++
        (variablesOf g.argument ++ (variablesOf g.offset.duration ++ variablesOf rest))) := by
    have hword : '$' ∉ g.grouping.word ++ " (".toList := by
      rcases h.grouping.word with hword | hword <;> rw [hword] <;> decide
    have hopen : '$' ∉ " (".toList := by decide
    have htext : front ++ (g.repaired ++ rest) =
        (front ++ g.op) ++ ' ' :: (g.grouping.word ++ " (".toList ++ (g.grouping.labels ++
          ')' :: (" (".toList ++
            (g.argument ++ (g.offset.text ++ (g.closing ++ [')'] ++ rest)))))) := by
      simp [repaired]
    rw [htext, variablesOf_append_cons hspace, variablesOf_append_of_not_mem hword,
      variablesOf_append_cons isSeparator_paren, variablesOf_append_of_not_mem hopen,
      g.offset.variablesOf_append_text _ _ hclosing]
  have hsource : variablesOf (front ++ (g.source ++ rest)) =
      variablesOf (front ++ g.op) ++ (variablesOf g.argument ++
        (variablesOf g.grouping.labels ++
          (variablesOf g.offset.duration ++ variablesOf rest))) := by
    have hend : ∀ c ∈ g.blanks ++ (g.closing ++ [')']), IsSeparator c := by
      rw [List.forall_mem_append]
      exact ⟨fun c hc => .of_isBlank (h.blanks c hc), hclosing.isSeparator⟩
    have htext : front ++ (g.source ++ rest) =
        (front ++ g.op) ++ '(' :: ((g.argument ++ (g.blanks ++ (g.closing ++ [')']) ++ [])) ++
          (g.grouping.source ++ (g.offset.source ++ rest))) := by
      simp [source]
    have hargument : variablesOf (g.argument ++ (g.blanks ++ (g.closing ++ [')']) ++ [])) =
        variablesOf g.argument ++ [] := variablesOf_append_separators (by simp) hend g.argument []
    have hoffset : variablesOf (g.offset.source ++ rest) =
        variablesOf g.offset.duration ++ variablesOf rest :=
      h.offset.variablesOf_append_source [] hrest
    rw [htext, variablesOf_append_cons ⟨by decide, by decide⟩,
      h.grouping.variablesOf_append_source, hargument, hoffset, List.append_nil]
  rw [hrepaired, hsource, List.perm_iff_count]
  intro v
  simp only [List.count_append]
  omega

/-- Moving an offset behind the range keeps the variables of a closed range, wherever it stands. -/
theorem ClosedOffset.Formed.variablesOf_repaired_perm {c : ClosedOffset} (h : c.Formed)
    (front : Text) {rest : Text} (hrest : ∀ d ∈ rest.head?, ¬ isWordChar d) :
    (variablesOf (front ++ (c.repaired ++ rest))).Perm
      (variablesOf (front ++ (c.source ++ rest))) := by
  obtain ⟨labels, hlabels⟩ : ∃ labels, ∀ rest, variablesOf (c.groupingSource ++ rest) =
      labels ++ variablesOf rest := by
    unfold groupingSource
    cases hgrouping : c.grouping with
    | none => exact ⟨[], fun rest => rfl⟩
    | some g =>
      exact ⟨variablesOf g.labels, (h.grouping g hgrouping).variablesOf_append_source []⟩
  have hrepaired : variablesOf (front ++ (c.repaired ++ rest)) =
      variablesOf (front ++ (c.lead ++ c.range)) ++ (variablesOf c.offset.duration ++
        (labels ++ variablesOf rest)) := by
    have htext : front ++ (c.repaired ++ rest) =
        (front ++ (c.lead ++ c.range)) ++ (c.offset.text ++
          (c.closing ++ (c.groupingSource ++ rest))) := by
      simp [repaired]
    rw [htext, c.offset.variablesOf_append_text _ _ h.closing, hlabels]
  have hsource : variablesOf (front ++ (c.source ++ rest)) =
      variablesOf (front ++ (c.lead ++ c.range)) ++ (labels ++
        (variablesOf c.offset.duration ++ variablesOf rest)) := by
    have htext : front ++ (c.source ++ rest) =
        (front ++ (c.lead ++ c.range)) ++ (c.closing ++ (c.groupingSource ++
          (c.offset.source ++ rest))) := by
      simp [source]
    have hoffset : variablesOf (c.offset.source ++ rest) =
        variablesOf c.offset.duration ++ variablesOf rest :=
      h.offset.variablesOf_append_source [] hrest
    rw [htext, variablesOf_append_separators h.closing.1 h.closing.isSeparator, hlabels, hoffset]
  rw [hrepaired, hsource, List.perm_iff_count]
  intro v
  simp only [List.count_append]
  omega

/-! ### Whole texts -/

/-- A rule that keeps the variables of what it finds, wherever that stands, keeps those of the whole
text. -/
theorem variablesOf_editAll_perm {rule : Text → Option Edit} (hrule : IsAnchored rule)
    (hperm : ∀ edit rest, rule (edit.source ++ rest) = some edit →
      ∀ front, (variablesOf (front ++ (edit.replacement ++ rest))).Perm
        (variablesOf (front ++ (edit.source ++ rest)))) (front text : Text) :
    (variablesOf (front ++ editAll rule text)).Perm (variablesOf (front ++ text)) := by
  induction text using editAll_induction hrule generalizing front with
  | nil => exact .refl _
  | skip c cs hr ih =>
    have hrest := ih (front ++ [c])
    rw [editAll_cons_of_none hr]
    rwa [List.append_assoc, List.append_assoc] at hrest
  | edited edit rest hne hr ih =>
    have hbehind := ih (front ++ edit.replacement)
    rw [List.append_assoc, List.append_assoc] at hbehind
    rw [editAll_append_of_some hne hr]
    exact hbehind.trans (hperm edit rest hr front)

theorem OffsetClause.not_isWordChar_of_head {rest : Text}
    (h : ∀ c ∈ rest.head?, ¬ isDurationChar c) : ∀ c ∈ rest.head?, ¬ isWordChar c := by
  intro c hc hword
  exact h c hc (by
    rw [isDurationChar, ← isWordChar, hword, Bool.true_or])

/-- Moving offsets keeps the variables, as often as they are there. -/
theorem Offset.variablesOf_repair_perm (query : Text) :
    (variablesOf (repair query)).Perm (variablesOf query) := by
  refine (variablesOf_editAll_perm ClosedOffset.isAnchored_edit? ?_ [] _).trans
    (variablesOf_editAll_perm GroupedOffset.isAnchored_edit? ?_ [] query)
  · intro edit rest h front
    obtain ⟨c, hread, rfl⟩ := Option.map_eq_some_iff.mp h
    obtain ⟨hformed, rest', htext, hrest⟩ := ClosedOffset.formed_of_read? hread
    obtain rfl : rest = rest' := List.append_cancel_left htext
    exact hformed.variablesOf_repaired_perm front (OffsetClause.not_isWordChar_of_head hrest)
  · intro edit rest h front
    obtain ⟨g, hread, rfl⟩ := Option.map_eq_some_iff.mp h
    obtain ⟨hformed, rest', htext, hrest⟩ := GroupedOffset.formed_of_read? hread
    obtain rfl : rest = rest' := List.append_cancel_left htext
    exact hformed.variablesOf_repaired_perm front (OffsetClause.not_isWordChar_of_head hrest)

end PromQL

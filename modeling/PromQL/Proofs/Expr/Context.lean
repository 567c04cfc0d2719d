import PromQL.Expr.Layout
import PromQL.Proofs.Expr.Exchange
import PromQL.Proofs.Expr.Mapping
import PromQL.Proofs.Expr.Spelling
import PromQL.Proofs.Template.Separation

/-!
# The text around a selector

Expressions that are the same but for one selector are written with the same text around it, on one
line as well as over several. Of a selector with one group of matchers, the group is a part of the
text that can be cut out between separators.
-/

namespace PromQL

/-! ### Pieces of texts -/

/-- Two texts that are the same but for one piece. -/
def SameAround (t t' w w' : Text) : Prop :=
  ∃ front back, w = front ++ t ++ back ∧ w' = front ++ t' ++ back

namespace SameAround

variable {t t' w w' : Text}

theorem prepend (p : Text) (h : SameAround t t' w w') : SameAround t t' (p ++ w) (p ++ w') := by
  obtain ⟨front, back, rfl, rfl⟩ := h
  exact ⟨p ++ front, back, by simp, by simp⟩

theorem append (q : Text) (h : SameAround t t' w w') : SameAround t t' (w ++ q) (w' ++ q) := by
  obtain ⟨front, back, rfl, rfl⟩ := h
  exact ⟨front, back ++ q, by simp, by simp⟩

theorem intercalate (sep : Text) (before behind : List Text) (h : SameAround t t' w w') :
    SameAround t t' (sep.intercalate (before ++ w :: behind))
      (sep.intercalate (before ++ w' :: behind)) := by
  induction before with
  | nil =>
    cases behind with
    | nil => simpa using h
    | cons b behind =>
      simp only [List.nil_append, List.intercalate_cons_cons]
      exact (h.append sep).append _
  | cons a before ih =>
    obtain ⟨b, bs, hbs⟩ := List.exists_cons_of_ne_nil (l := before ++ w :: behind) (by simp)
    obtain ⟨c, cs, hcs⟩ := List.exists_cons_of_ne_nil (l := before ++ w' :: behind) (by simp)
    rw [hbs, hcs] at ih
    rw [List.cons_append, List.cons_append, hbs, hcs, List.intercalate_cons_cons,
      List.intercalate_cons_cons]
    exact ih.prepend _

end SameAround

/-- The operands of a laid out operator stand at its ends. -/
theorem BinaryModifiers.layout_eq (m : BinaryModifiers) (op : BinaryOp) (margin left right : Text) :
    m.layout op margin left right = left ++ m.layout op margin [] [] ++ right := by
  unfold layout
  split <;> simp

namespace Expr

variable {r : Selector → Selector → Prop} {e e' : Expr} {t t' : Text}

/-! ### The selectors that differ -/

/-- The one selector and the other, both of which make sense in expressions that do. -/
theorem Differ.exists_selectors (h : Differ r e e') (he : e.wellTyped) (he' : e'.wellTyped) :
    ∃ s s', r s s' ∧ s.wellFormed ∧ s'.wellFormed ∧ Differ (fun a b => a = s ∧ b = s') e e' := by
  induction h with
  | vector h => exact ⟨_, _, h, he, he', .vector ⟨rfl, rfl⟩⟩
  | matrix h range => exact ⟨_, _, h, he, he', .matrix ⟨rfl, rfl⟩ range⟩
  | subquery _ range step modifiers ih =>
    simp only [wellTyped, Bool.and_eq_true] at he he'
    obtain ⟨s, s', h, hs, hs', hdiffer⟩ := ih he.1 he'.1
    exact ⟨s, s', h, hs, hs', .subquery hdiffer range step modifiers⟩
  | paren _ ih =>
    obtain ⟨s, s', h, hs, hs', hdiffer⟩ := ih he he'
    exact ⟨s, s', h, hs, hs', .paren hdiffer⟩
  | negate _ ih =>
    simp only [wellTyped, Bool.and_eq_true] at he he'
    obtain ⟨s, s', h, hs, hs', hdiffer⟩ := ih he.1 he'.1
    exact ⟨s, s', h, hs, hs', .negate hdiffer⟩
  | call function front back _ ih =>
    simp only [wellTyped, allWellTyped_eq_all, List.all_append, List.all_cons,
      Bool.and_eq_true] at he he'
    obtain ⟨s, s', h, hs, hs', hdiffer⟩ := ih he.1.2.1 he'.1.2.1
    exact ⟨s, s', h, hs, hs', .call function front back hdiffer⟩
  | inner op g parameter _ ih =>
    simp only [wellTyped, Bool.and_eq_true] at he he'
    obtain ⟨s, s', h, hs, hs', hdiffer⟩ := ih he.1.1 he'.1.1
    exact ⟨s, s', h, hs, hs', .inner op g parameter hdiffer⟩
  | parameter op g _ inner ih =>
    simp only [wellTyped, parameterWellTyped, Bool.and_eq_true] at he he'
    obtain ⟨s, s', h, hs, hs', hdiffer⟩ := ih he.2.1.2 he'.2.1.2
    exact ⟨s, s', h, hs, hs', .parameter op g hdiffer inner⟩
  | left op modifiers _ right ih =>
    simp only [wellTyped, Bool.and_eq_true] at he he'
    obtain ⟨s, s', h, hs, hs', hdiffer⟩ := ih he.1.1 he'.1.1
    exact ⟨s, s', h, hs, hs', .left op modifiers hdiffer right⟩
  | right op modifiers left _ ih =>
    simp only [wellTyped, Bool.and_eq_true] at he he'
    obtain ⟨s, s', h, hs, hs', hdiffer⟩ := ih he.1.2 he'.1.2
    exact ⟨s, s', h, hs, hs', .right op modifiers left hdiffer⟩

/-! ### Texts of expressions -/

section Texts

variable (hr : ∀ s s', r s s' → s.modifiers = s'.modifiers ∧ SameAround t t' s.body s'.body)

include hr

theorem Differ.line (h : Differ r e e') : SameAround t t' e.line e'.line := by
  induction h with
  | vector h =>
    obtain ⟨hmodifiers, hbody⟩ := hr _ _ h
    simp only [Expr.line, hmodifiers]
    exact hbody.append _
  | matrix h range =>
    obtain ⟨hmodifiers, hbody⟩ := hr _ _ h
    simp only [Expr.line, hmodifiers]
    exact (hbody.append _).append _
  | subquery _ _ _ _ ih =>
    simp only [Expr.line, subqueryText]
    exact (((ih.append _).append _).append _)
  | paren _ ih => exact (ih.prepend ['(']).append [')']
  | negate _ ih => exact ih.prepend ['-']
  | call function front back _ ih =>
    simp only [Expr.line, lines_eq_map, List.map_append, List.map_cons, callText]
    exact (((ih.intercalate _ _ _).prepend ['(']).prepend function).append [')']
  | inner op g parameter _ ih => exact (ih.prepend _).append [')']
  | parameter op g _ inner ih =>
    simp only [Expr.line, optionLine, aggregateText]
    exact ((((ih.append _).prepend ['(']).prepend _).append _).append [')']
  | left op modifiers _ right ih => exact (ih.append _).append _
  | right op modifiers left _ ih => exact (ih.prepend [' ']).prepend _

theorem Differ.layout (indent : Nat) (h : Differ r e e') (depth : Nat) :
    SameAround t t' (e.layout indent depth) (e'.layout indent depth) := by
  induction h generalizing depth with
  | vector h => exact Differ.line hr (.vector h)
  | matrix h range => exact Differ.line hr (.matrix h range)
  | subquery h range step modifiers => exact Differ.line hr (.subquery h range step modifiers)
  | negate h => exact Differ.line hr (.negate h)
  | paren _ ih => exact (((ih (depth + 1)).prepend _).append _).append [')']
  | call function front back _ ih =>
    simp only [Expr.layout, layouts_eq_map, List.map_append, List.map_cons, callText]
    exact ((((ih (depth + 1)).intercalate _ _ _).prepend ['(']).prepend function).append [')']
  | inner op g parameter _ ih => exact ((ih depth).prepend _).append [')']
  | parameter op g h inner =>
    have hline := Differ.line hr h
    simp only [Expr.layout, Option.map_some, aggregateText]
    exact ((((hline.append _).prepend ['(']).prepend _).append _).append [')']
  | @left op modifiers e e' _ right ih =>
    rw [Expr.layout, Expr.layout, modifiers.layout_eq op _ (e.layout indent depth),
      modifiers.layout_eq op _ (e'.layout indent depth)]
    exact ((ih depth).append _).append _
  | @right op modifiers left e e' _ ih =>
    rw [Expr.layout, Expr.layout, modifiers.layout_eq op _ _ (e.layout indent depth),
      modifiers.layout_eq op _ _ (e'.layout indent depth)]
    exact (ih depth).prepend _

theorem Differ.format (indent : Nat) (h : Differ r e e') :
    SameAround t t' (e.format indent) (e'.format indent) := by
  have hcompact : e.isCompact = e'.isCompact := by cases h <;> rfl
  unfold Expr.format
  rw [← hcompact]
  split
  · exact h.line hr
  · exact h.layout hr indent 0

end Texts

end Expr

/-! ### Selectors with one group -/

/-- What is written of a selector in front of its matchers, if there are any. -/
def selectorOpening : Option Text → Text
  | none => ['{']
  | some name => if isBareMetric name then name ++ ['{'] else '{' :: quote name ++ [',']

theorem exists_selectorOpening (metric : Option Text) :
    ∃ front c, selectorOpening metric = front ++ [c] ∧ IsSeparator c := by
  unfold selectorOpening
  split
  · exact ⟨[], '{', rfl, by decide⟩
  · next name =>
    split
    · exact ⟨name, '{', rfl, by decide⟩
    · exact ⟨'{' :: quote name, ',', rfl, by decide⟩

/-- The text of a selector with one group, no matcher of which repeats the name of the metric. -/
theorem selectorText_group {metric : Option Text} {group : List Matcher} (hne : group ≠ [])
    (h : ∀ m ∈ group, m.repeatsName metric = false) :
    selectorText metric ⟨group, []⟩ = selectorOpening metric ++
      Matchers.written (Matcher.sort group) ++ ['}'] := by
  have hfilter : group.filter (fun m => !m.repeatsName metric) = group :=
    List.filter_eq_self.mpr fun m hm => by rw [h m hm]; rfl
  have hempty : (Matchers.written (Matcher.sort group)).isEmpty = false := by
    rw [List.isEmpty_eq_false_iff, Ne, Matchers.written_eq_nil_iff]
    exact fun hnil => hne (List.perm_nil.mp (hnil ▸ (Matcher.sort_perm group).symm))
  have hgroups : Matchers.groups ⟨group, []⟩ = [group] := by
    rw [Matchers.groups, if_neg (by simpa using hne)]
  have htexts :
      Matchers.groupTexts metric ⟨group, []⟩ = [Matchers.written (Matcher.sort group)] := by
    have htext : Matchers.groupText metric group = Matchers.written (Matcher.sort group) := by
      rw [Matchers.groupText, Matchers.canonicalGroup, hfilter]
      rfl
    rw [Matchers.groupTexts, hgroups, List.map_singleton, htext, List.filter_singleton, hempty]
    rfl
  have htext : Matchers.text metric ⟨group, []⟩ =
      '{' :: Matchers.written (Matcher.sort group) ++ ['}'] := by
    rw [Matchers.text, htexts]
    simp
  cases metric with
  | none => exact htext
  | some name =>
    rw [selectorText, selectorOpening]
    split_ifs
    · simp [htext]
    · have hquote : (quote name).isEmpty = false := rfl
      simp [htexts, hempty, hquote, List.intercalate_cons_cons]

/-- Where the matchers of one selector differ, the text differs in them alone, which stand between
separators. -/
theorem Expr.exists_format_eq {x : Grammar.Exchange} {e e' : Expr} {group group' : List Matcher}
    (hold : x.oldMatchers = ⟨group, []⟩) (hnew : x.newMatchers = ⟨group', []⟩) (hne : group ≠ [])
    (hne' : group' ≠ []) (h : x.Yields e e') (he : e.wellTyped) (he' : e'.wellTyped)
    (indent : Nat) : ∃ front c back, IsSeparator c ∧
      e.format indent =
        front ++ c :: (Matchers.written (Matcher.sort group) ++ '}' :: back) ∧
      e'.format indent =
        front ++ c :: (Matchers.written (Matcher.sort group') ++ '}' :: back) := by
  obtain ⟨_, _, ⟨name, modifiers⟩, hs, hs', hdiffer⟩ := h.exists_selectors he he'
  rw [hold] at hs hdiffer
  rw [hnew] at hs' hdiffer
  have hbody : ∀ {group}, group ≠ [] → Selector.wellFormed ⟨name, ⟨group, []⟩, modifiers⟩ →
      selectorText name ⟨group, []⟩ =
        selectorOpening name ++ Matchers.written (Matcher.sort group) ++ ['}'] :=
    fun hne hs => selectorText_group hne fun m hm =>
      Selector.repeatsName_eq_false hs (List.mem_append_left _ hm)
  obtain ⟨front, c, hopening, hc⟩ := exists_selectorOpening name
  have hbodies : ∀ s s' : Selector, s = ⟨name, ⟨group, []⟩, modifiers⟩ ∧
      s' = ⟨name, ⟨group', []⟩, modifiers⟩ → s.modifiers = s'.modifiers ∧
        SameAround (c :: (Matchers.written (Matcher.sort group) ++ ['}']))
          (c :: (Matchers.written (Matcher.sort group') ++ ['}'])) s.body s'.body := by
    rintro _ _ ⟨rfl, rfl⟩
    refine ⟨rfl, front, [], ?_, ?_⟩
    · simp [Selector.body, hbody hne hs, hopening]
    · simp [Selector.body, hbody hne' hs', hopening]
  obtain ⟨p, q, hp, hq⟩ := hdiffer.format hbodies indent
  exact ⟨p, c, q, hc, by simpa using hp, by simpa using hq⟩

end PromQL

import PromQL.Proofs.Expr.Formatted

/-!
# Names without quotes

A name that looks like an identifier is written without quotes. It is read back as the same name
unless it is one of a few words, in any case of letters, that mean something else to the lexer.
Which words these are depends on the place: a metric has more of them than a label.
-/

namespace PromQL

/-- The words that no metric may be named by without quotes, in any case of letters. -/
def unnamed : List Text :=
  ["inf", "nan", "limitk", "limit_ratio", "smoothed", "anchored", "on", "ignoring", "group_left",
    "group_right", "bool", "atan2"].map String.toList

/-- A word is the name of a metric unless the lexer takes it for something else. -/
theorem metricName?_ofWord (w : Text) :
    (Lexeme.ofWord w).metricName? =
      if unnamed.contains (w.map Char.toLower) then none else some w := by
  unfold Lexeme.ofWord
  simp only
  split
  · next k hk =>
    have hmetric : k.isMetric = !unnamed.contains (w.map Char.toLower) :=
      Keyword.eq_of_ofText? (by decide) (fun op => by cases op <;> decide) hk
    rw [Token.metricName?, hmetric]
    cases unnamed.contains (w.map Char.toLower) <;> rfl
  · next hnone =>
    have hnumber : unnamed.contains (w.map Char.toLower) =
        (w.map Char.toLower == "inf".toList || w.map Char.toLower == "nan".toList) :=
      Keyword.contains_of_ofText?_none (by decide) hnone
    rw [hnumber]
    split_ifs <;> rfl

theorem isMetricWord_iff {name : Text} (hname : isBareMetric name) :
    IsMetricWord name ↔ name.map Char.toLower ∉ unnamed := by
  rw [IsMetricWord, metricName?_ofWord, List.contains_eq_mem]
  by_cases hmem : name.map Char.toLower ∈ unnamed <;> simp [hmem, hname]

namespace Expr

/-- The selector of all series of a metric. -/
def ofMetric (name : Text) : Expr := vector ⟨some name, .empty, .empty⟩

theorem formed_ofMetric_iff (name : Text) : (ofMetric name).Formed ↔ IsMetricWord name := by
  constructor
  · intro h
    exact h.name name rfl
  · intro h
    exact ⟨fun _ heq => Option.some.inj heq ▸ h, .inl rfl, nofun⟩

theorem legible_ofMetric (q : Standard) (name : Text) : (ofMetric name).Legible q :=
  ⟨nofun, nofun⟩

theorem line_ofMetric {name : Text} (hname : isBareMetric name) : (ofMetric name).line = name := by
  have hmatchers : Matchers.empty.text (some name) = [] := rfl
  have hmodifiers : Modifiers.empty.text = [] := rfl
  rw [ofMetric, line, Selector.body, selectorText]
  simp only [if_pos hname, hmatchers, hmodifiers, List.append_nil]

/-- A name without quotes is read as the selector of its metric, unless it is one of the words that
mean something else. -/
theorem ofText_bareMetric_iff {name : Text} (hname : isBareMetric name) :
    ofText name = .ok (ofMetric name) ↔ name.map Char.toLower ∉ unnamed := by
  rw [← isMetricWord_iff hname, ← formed_ofMetric_iff]
  constructor
  · intro h
    exact (ofText_sound h).2
  · intro h
    have hread : ofText (ofMetric name).line = .ok (ofMetric name) :=
      ofText_format 0 rfl h (legible_ofMetric _ name)
    rwa [line_ofMetric hname] at hread

/-- The sum over all labels of a metric but the given ones. -/
def sumBy (labels : List Text) (metric : Text) : Expr :=
  aggregate .sum (some (.only labels)) none (ofMetric metric)

theorem line_sumBy (labels : List Text) {metric : Text} (hmetric : isBareMetric metric) :
    (sumBy labels metric).line =
      "sum by (".toList ++ labelsText labels ++ ") (".toList ++ metric ++ ")".toList := by
  have hword : AggregateOp.sum.text ++ ' ' :: "by (".toList = "sum by (".toList := by decide
  rw [sumBy, line, line_ofMetric hmetric, aggregateText, ← hword]
  simp [LabelChoice.groupingText, clause, optionLine]

/-- Labels behind an aggregation are read as they are, unless one that stands there without quotes
is a word that means something else. -/
theorem ofText_sumBy_iff (labels : List Text) {metric : Text} (hmetric : IsMetricWord metric) :
    ofText ("sum by (".toList ++ labelsText labels ++ ") (".toList ++ metric ++ ")".toList) =
        .ok (sumBy labels metric) ↔ labels.all isLegibleLabel := by
  have hformed : (sumBy labels metric).Formed :=
    ⟨rfl, rfl, trivial, (formed_ofMetric_iff metric).mpr hmetric⟩
  have hcanonical : (sumBy labels metric).canonical = sumBy labels metric := rfl
  have hseparate : (sumBy labels metric).Separate := ⟨trivial, nofun⟩
  rw [← line_sumBy labels hmetric.1]
  constructor
  · intro h
    have hformat : ofText ((sumBy labels metric).format 0) = .ok (sumBy labels metric) := h
    have hread := whole_of_format hformed hformat
    rw [hcanonical, whole_tokens hformed hseparate] at hread
    exact (legible_of_reread _ hseparate hread).1
  · intro h
    have hlegible : (sumBy labels metric).Legible .readable :=
      ⟨h, trivial, legible_ofMetric _ metric⟩
    exact ofText_format 0 rfl hformed hlegible

/-- A name of a metric that is written without quotes is read back, and so are labels, if they are
none of the words that mean something else where they stand. -/
theorem names_read_back {name : Text} (hname : isBareMetric name) (labels : List Text) :
    (ofText name = .ok (ofMetric name) ↔ name.map Char.toLower ∉ unnamed) ∧
      (ofText ("sum by (".toList ++ labelsText labels ++ ") (m)".toList) =
          .ok (sumBy labels "m".toList) ↔
        ∀ label ∈ labels, isBareLabel label → label.map Char.toLower ∉ unlabelled) := by
  refine ⟨ofText_bareMetric_iff hname, ?_⟩
  have hmetric : IsMetricWord "m".toList := ⟨rfl, rfl⟩
  have hlabels := ofText_sumBy_iff labels hmetric
  have hlegible : labels.all isLegibleLabel ↔
      ∀ label ∈ labels, isBareLabel label → label.map Char.toLower ∉ unlabelled := by
    simp [isLegibleLabel, List.all_eq_true, ← Bool.not_eq_true, imp_iff_not_or]
  rw [hlegible] at hlabels
  simpa using hlabels

theorem names_read_back_keywords :
    isBareMetric "job:End".toList ∧
      (ofText "job:End".toList = .ok (ofMetric "job:End".toList) ↔
        "job:End".toList.map Char.toLower ∉ unnamed) ∧
      (ofText ("sum by (".toList ++ labelsText ["Bool".toList, "http.code".toList, "NaN".toList] ++
            ") (m)".toList) =
          .ok (sumBy ["Bool".toList, "http.code".toList, "NaN".toList] "m".toList) ↔
        ∀ label ∈ ["Bool".toList, "http.code".toList, "NaN".toList],
          isBareLabel label → label.map Char.toLower ∉ unlabelled) :=
  ⟨rfl, names_read_back rfl _⟩

/-- A metric and a label may be called infinity, but without quotes that is a number. -/
theorem ofText_inf_ne :
    (isBareMetric "inf".toList ∧ ofText "inf".toList ≠ .ok (ofMetric "inf".toList)) ∧
      ofText ("sum by (".toList ++ labelsText ["inf".toList] ++ ") (m)".toList) ≠
        .ok (sumBy ["inf".toList] "m".toList) := by
  refine ⟨⟨rfl, fun h => ?_⟩, fun h => ?_⟩
  · exact (ofText_bareMetric_iff rfl).mp h (by decide)
  · have hmetric : IsMetricWord "m".toList := ⟨rfl, rfl⟩
    have hlabels := (ofText_sumBy_iff ["inf".toList] hmetric).mp
    rw [List.append_assoc, List.append_assoc] at hlabels
    cases hlabels h

end Expr

end PromQL

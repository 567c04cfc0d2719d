import PromQL.Proofs.Label.Decoding

/-!
# Which series matchers accept

A group accepts a series if all its matchers hold, and matchers accept one if a group does, or if
there is no group. Leaving out a matcher that only repeats the name of the metric does not change
what its group accepts. Leaving out a group of which nothing is left does: it accepts every series
of the metric, and the groups that are written besides it need not.
-/

namespace PromQL

/-- The values of the labels of a series; a label that a series does not have is empty. -/
abbrev Series := Text → Text

/-- How operators other than equality compare the value of a matcher with that of the label. -/
abbrev Comparison := MatchOp → Text → Text → Prop

namespace Matcher

/-- Whether a matcher holds of a series. -/
def Holds (others : Comparison) (series : Series) (m : Matcher) : Prop :=
  match m.op with
  | .equal => series m.name = m.value
  | op => others op m.value (series m.name)

/-- A matcher that repeats the name of the metric holds of all series of the metric. -/
theorem holds_of_repeatsName {others : Comparison} {series : Series} {metric : Text} {m : Matcher}
    (hseries : series metricLabel = metric) (h : m.repeatsName (some metric)) :
    m.Holds others series := by
  obtain ⟨name, op, value⟩ := m
  simp only [repeatsName, Bool.and_eq_true, beq_iff_eq, Option.some.injEq] at h
  obtain ⟨⟨rfl, rfl⟩, rfl⟩ := h
  exact hseries

end Matcher

namespace Matchers

/-- Whether all matchers of a group hold of a series. -/
def GroupHolds (others : Comparison) (series : Series) (group : List Matcher) : Prop :=
  ∀ m ∈ group, m.Holds others series

/-- Whether matchers accept a series: a group of them holds, or there is none. -/
def Accepts (others : Comparison) (series : Series) (ms : Matchers) : Prop :=
  ms.groups = [] ∨ ∃ group ∈ ms.groups, GroupHolds others series group

/-- The matchers that a text in braces is read as. No text at all is no matcher at all. -/
def ofText? (text : Text) : Option Matchers :=
  match Token.scan .plain text with
  | some [] => some .empty
  | some ts =>
    match Grammar.matchers ts with
    | .ok (ms, []) => ms
    | _ => none
  | none => none

/-! ### What is written is read back -/

/-- The groups that are written are read back, in canonical form. -/
theorem ofText?_text (metric : Option Text) (ms : Matchers) :
    ofText? (ms.text metric) = some (.ofGroups (ms.canonical metric).groups) := by
  have hne : ∀ group ∈ (ms.canonical metric).groups, group ≠ [] := fun _ => ne_nil_of_mem_canonical
  have hgroups := groups_ofGroups hne
  have hscan : Token.scan .plain (ms.text metric) = some (ms.canonical metric).tokens :=
    (spells_text metric ms).ofAnything.scan fun _ => ne_leftBracket_of_mem_tokens
  unfold ofText?
  rw [hscan]
  by_cases hnil : (ms.canonical metric).groups = []
  · rw [tokens, if_pos hnil, hnil]
    rfl
  · have hread := Grammar.matchers_tokens (formed_ofGroups hne) (by rwa [hgroups]) []
    have htokens :
        (ofGroups (ms.canonical metric).groups).tokens = (ms.canonical metric).tokens := by
      rw [tokens, tokens, inside, inside, hgroups]
    rw [htokens, List.append_nil, tokens, if_neg hnil, List.cons_append] at hread
    simp only [tokens, if_neg hnil, List.cons_append, hread]

/-! ### What is left out -/

variable {others : Comparison} {series : Series} {metric : Text}

/-- Sorting the matchers of a group does not change what it accepts. -/
theorem groupHolds_sort (group : List Matcher) :
    GroupHolds others series (Matcher.sort group) ↔ GroupHolds others series group :=
  forall_congr' fun _ => imp_congr_left (Matcher.sort_perm group).mem_iff

/-- Leaving out matchers that repeat the name of the metric does not change what a group accepts. -/
theorem groupHolds_filter (hseries : series metricLabel = metric) (group : List Matcher) :
    GroupHolds others series (group.filter fun m => !m.repeatsName (some metric)) ↔
      GroupHolds others series group := by
  constructor
  · intro h m hm
    by_cases hname : m.repeatsName (some metric)
    · exact Matcher.holds_of_repeatsName hseries hname
    · exact h m (List.mem_filter.mpr ⟨hm, by simpa using hname⟩)
  · intro h m hm
    exact h m (List.mem_filter.mp hm).1

/-- A group accepts a series if and only if it is written as one that does, or if it is not written
at all. -/
theorem exists_groupHolds_iff (hseries : series metricLabel = metric) (ms : Matchers) :
    (∃ group ∈ ms.groups, GroupHolds others series group) ↔
      (∃ group ∈ ms.writtenGroups (some metric), GroupHolds others series group) ∨
        ∃ group ∈ ms.groups, ∀ m ∈ group, m.repeatsName (some metric) := by
  constructor
  · rintro ⟨group, hgroup, hholds⟩
    by_cases hname : ∀ m ∈ group, m.repeatsName (some metric)
    · exact .inr ⟨group, hgroup, hname⟩
    · refine .inl ⟨_, List.mem_filter.mpr ⟨List.mem_map_of_mem hgroup, ?_⟩,
        (groupHolds_filter hseries group).mpr hholds⟩
      simpa using hname
  · rintro (⟨written, hwritten, hholds⟩ | ⟨group, hgroup, hname⟩)
    · obtain ⟨group, hgroup, rfl⟩ := List.mem_map.mp (List.mem_filter.mp hwritten).1
      exact ⟨group, hgroup, (groupHolds_filter hseries group).mp hholds⟩
    · exact ⟨group, hgroup, fun m hm => Matcher.holds_of_repeatsName hseries (hname m hm)⟩

/-- Nothing is written only if there is no group, or one that only repeats the name. -/
theorem eq_nil_or_of_writtenGroups_eq_nil {metric : Option Text} {ms : Matchers}
    (h : ms.writtenGroups metric = []) :
    ms.groups = [] ∨ ∃ group ∈ ms.groups, ∀ m ∈ group, m.repeatsName metric := by
  cases hgroups : ms.groups with
  | nil => exact .inl rfl
  | cons group groups =>
    refine .inr ⟨group, List.mem_cons_self, ?_⟩
    simp only [writtenGroups, hgroups, List.map_cons, List.filter_eq_nil_iff, List.mem_cons] at h
    simpa using h _ (.inl rfl)

/-- What is written is read back as matchers that accept the same series of the metric, except for
the ones that are accepted by a group that only repeats the name: such a group accepts every series
of the metric and is not written. -/
theorem accepts_iff_accepts_written (others : Comparison) (series : Series) (metric : Text)
    (ms : Matchers) (hseries : series metricLabel = metric) :
    ∃ printed, ofText? (ms.text (some metric)) = some printed ∧
      (ms.Accepts others series ↔ printed.Accepts others series ∨
        ∃ group ∈ ms.groups, ∀ m ∈ group, m.repeatsName (some metric)) := by
  refine ⟨_, ofText?_text (some metric) ms, ?_⟩
  have hne : ∀ group ∈ (ms.canonical (some metric)).groups, group ≠ [] :=
    fun _ => ne_nil_of_mem_canonical
  have hgroups := groups_ofGroups hne
  have hprinted : (ofGroups (ms.canonical (some metric)).groups).Accepts others series ↔
      ms.writtenGroups (some metric) = [] ∨
        ∃ group ∈ ms.writtenGroups (some metric), GroupHolds others series group := by
    rw [Accepts, hgroups, groups_canonical]
    simp only [List.map_eq_nil_iff, List.mem_map, exists_exists_and_eq_and, groupHolds_sort]
  rw [hprinted, Accepts, exists_groupHolds_iff hseries]
  constructor
  · rintro (hnil | hwritten | hname)
    · exact .inl (.inl (by rw [writtenGroups, hnil]; rfl))
    · exact .inl (.inr hwritten)
    · exact .inr hname
  · rintro ((hnil | hwritten) | hname)
    · exact (eq_nil_or_of_writtenGroups_eq_nil hnil).imp_right .inr
    · exact .inr (.inl hwritten)
    · exact .inr (.inr hname)

/-- A group that repeats the name of the metric and asks for more, besides one that only repeats the
name. -/
def namedGroups : Matchers :=
  ⟨[⟨"b".toList, .regex, "x, \x7d or ".toList⟩, ⟨metricLabel, .equal, "m".toList⟩,
      ⟨"a".toList, .equal, "1".toList⟩],
    [[⟨metricLabel, .equal, "m".toList⟩]]⟩

/-- A series of a metric whose other labels all have the same value. -/
def seriesOf (metric value : Text) : Series :=
  fun label => if label = metricLabel then metric else value

theorem accepts_iff_accepts_written_namedGroups :
    seriesOf "m".toList "1".toList metricLabel = "m".toList ∧
      ∃ printed, ofText? (namedGroups.text (some "m".toList)) = some printed ∧
        (namedGroups.Accepts (fun _ value label => value = label) (seriesOf "m".toList "1".toList) ↔
          printed.Accepts (fun _ value label => value = label) (seriesOf "m".toList "1".toList) ∨
            ∃ group ∈ namedGroups.groups, ∀ m ∈ group, m.repeatsName (some "m".toList)) :=
  ⟨rfl, accepts_iff_accepts_written _ _ _ _ rfl⟩

/-- One matcher, or else any series of the metric. -/
def namedAlternative : Matchers :=
  ⟨[], [[⟨metricLabel, .equal, "m".toList⟩], [⟨"a".toList, .equal, "1".toList⟩]]⟩

/-- What is written asks for the one matcher, so it accepts less. -/
theorem accepts_namedAlternative_narrowed :
    seriesOf "m".toList "2".toList metricLabel = "m".toList ∧
      namedAlternative.Accepts (fun _ _ _ => False) (seriesOf "m".toList "2".toList) ∧
      ∃ printed, ofText? (namedAlternative.text (some "m".toList)) = some printed ∧
        ¬ printed.Accepts (fun _ _ _ => False) (seriesOf "m".toList "2".toList) := by
  refine ⟨rfl, .inr ⟨_, List.mem_cons_self, ?_⟩, _, ofText?_text _ _, ?_⟩
  · intro m hm
    cases List.mem_singleton.mp hm
    rfl
  · rintro (hnil | ⟨group, hgroup, hholds⟩)
    · cases hnil
    · cases List.mem_singleton.mp hgroup
      cases hholds _ List.mem_cons_self

end Matchers

end PromQL

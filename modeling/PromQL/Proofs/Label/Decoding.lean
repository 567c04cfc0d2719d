import PromQL.Proofs.Expr.Matchers
import PromQL.Proofs.Expr.Spelling
import PromQL.Proofs.Label.Order

/-!
# Selectors are told apart by their texts

The text of a selector is scanned as tokens of its own, which are read as the groups of matchers
that have been written. So two selectors have the same text only if they have the same name and, in
the same order, groups of the same matchers. What only repeats the name of the metric does not count
on either side.
-/

namespace PromQL

/-! ### Groups that are written -/

namespace Matchers

/-- The groups that are written: without the matchers that only repeat the name of the metric, and
without the groups of which nothing is left. -/
def writtenGroups (metric : Option Text) (ms : Matchers) : List (List Matcher) :=
  (ms.groups.map fun group => group.filter fun m => !m.repeatsName metric).filter
    fun group => !group.isEmpty

theorem isEmpty_sort (group : List Matcher) : (Matcher.sort group).isEmpty = group.isEmpty :=
  (Matcher.sort_perm group).isEmpty_eq

/-- In canonical form, the groups are sorted. -/
theorem groups_canonical (metric : Option Text) (ms : Matchers) :
    (ms.canonical metric).groups = (ms.writtenGroups metric).map Matcher.sort := by
  have hgroups : ∀ groups : List (List Matcher),
      (groups.map (canonicalGroup metric)).filter (fun group => !group.isEmpty) =
        ((groups.map fun group => group.filter fun m => !m.repeatsName metric).filter
          fun group => !group.isEmpty).map Matcher.sort := by
    intro groups
    induction groups with
    | nil => rfl
    | cons group groups ih =>
      simp only [List.map_cons, List.filter_cons, canonicalGroup, isEmpty_sort] at ih ⊢
      split_ifs
      · rw [List.map_cons, ih]
      · exact ih
  rw [writtenGroups, ← hgroups, groups_canonical_eq_filter]

theorem ne_nil_of_mem_writtenGroups {metric : Option Text} {ms : Matchers} {group : List Matcher}
    (h : group ∈ ms.writtenGroups metric) : group ≠ [] := by
  have hne := (List.mem_filter.mp h).2
  rintro rfl
  cases hne

/-- Groups hold the same matchers if and only if they have the same canonical forms. -/
theorem map_sort_eq_iff (a b : List (List Matcher)) :
    a.map Matcher.sort = b.map Matcher.sort ↔ List.Forall₂ List.Perm a b := by
  rw [← List.forall₂_eq_eq_eq, List.forall₂_map_left_iff, List.forall₂_map_right_iff]
  constructor
  · intro h
    exact h.imp fun a b => (Matcher.sort_eq_sort_iff a b).mp
  · intro h
    exact h.imp fun a b => (Matcher.sort_eq_sort_iff a b).mpr

/-! ### Groups are read back -/

/-- Groups as they are read: a single one is no alternative. -/
def ofGroups : List (List Matcher) → Matchers
  | [group] => ⟨group, []⟩
  | groups => ⟨[], groups⟩

theorem groups_ofGroups {gs : List (List Matcher)} (hne : ∀ group ∈ gs, group ≠ []) :
    (ofGroups gs).groups = gs := by
  match gs with
  | [] => rfl
  | [group] =>
    have hgroup := hne group List.mem_cons_self
    simp [ofGroups, groups, hgroup]
  | _ :: _ :: _ => rfl

theorem formed_ofGroups {gs : List (List Matcher)} (hne : ∀ group ∈ gs, group ≠ []) :
    (ofGroups gs).Formed := by
  match gs with
  | [] => exact .inl rfl
  | [group] => exact .inl rfl
  | _ :: _ :: _ => exact .inr ⟨rfl, by simp [ofGroups], hne⟩

theorem inside_ofGroups {gs : List (List Matcher)} (hne : ∀ group ∈ gs, group ≠ []) :
    (ofGroups gs).inside = [Token.orWord].intercalate (gs.map groupTokens) := by
  rw [inside, groups_ofGroups hne]

end Matchers

namespace Grammar

/-- Groups between braces are a matcher, and other ones that are linked to it. -/
theorem exists_links_groups {gs : List (List Matcher)} (hne : ∀ group ∈ gs, group ≠ [])
    (hnil : gs ≠ []) :
    ∃ m links, [Token.orWord].intercalate (gs.map Matchers.groupTokens) =
        m.tokens ++ Matchers.Links.tokens links ∧
      Matchers.empty.addAll ((false, m) :: links) = .ofGroups gs := by
  have hgroups := Matchers.groups_ofGroups hne
  have hlinks := exists_links (Matchers.formed_ofGroups hne) (by rwa [hgroups])
  rwa [Matchers.inside_ofGroups hne] at hlinks

/-- What is written between braces is read as the groups that it was written for. -/
theorem matchersOf?_groups {gs : List (List Matcher)} (hne : ∀ group ∈ gs, group ≠ []) :
    matchersOf? ([Token.orWord].intercalate (gs.map Matchers.groupTokens)) =
      some (some (.ofGroups gs)) := by
  by_cases hnil : gs = []
  · rw [hnil]
    rfl
  · obtain ⟨m, links, hinside, hadd⟩ := exists_links_groups hne hnil
    rw [hinside, matchersOf?_links, hadd]

end Grammar

/-- Groups between braces are told apart by their tokens. -/
theorem Matchers.groupTokens_injective {a b : List (List Matcher)} (ha : ∀ group ∈ a, group ≠ [])
    (hb : ∀ group ∈ b, group ≠ []) (h : [Token.orWord].intercalate (a.map groupTokens) =
      [Token.orWord].intercalate (b.map groupTokens)) : a = b := by
  have hread := Grammar.matchersOf?_groups ha
  rw [h, Grammar.matchersOf?_groups hb, Option.some.injEq, Option.some.injEq] at hread
  rw [← groups_ofGroups ha, ← hread, groups_ofGroups hb]

/-! ### Tokens of selectors -/

/-- The tokens between the braces behind a name that stands there too. -/
def Matchers.behindName (ms : Matchers) : List Token :=
  if ms.groups = [] then [] else .comma :: ms.inside

/-- The tokens that a selector without modifiers is written with. -/
def selectorTokens (metric : Option Text) (ms : Matchers) : List Token :=
  match metric with
  | none => (ms.canonical none).tokens
  | some name =>
    if isBareMetric name then Lexeme.ofWord name :: (ms.canonical metric).tokens
    else .leftBrace :: (quotedToken name :: (ms.canonical metric).behindName) ++ [.rightBrace]

/-- Groups are written between the braces only if there are any. -/
theorem Matchers.intercalate_written_eq_nil_iff {gs : List (List Matcher)}
    (hne : ∀ group ∈ gs, group ≠ []) : orText.intercalate (gs.map written) = [] ↔ gs = [] := by
  constructor
  · intro h
    match gs with
    | [] => rfl
    | [group] =>
      rw [List.map_singleton, List.intercalate_singleton, written_eq_nil_iff] at h
      exact absurd h (hne group List.mem_cons_self)
    | group :: other :: gs =>
      rw [List.map_cons, List.map_cons, List.intercalate_cons_cons] at h
      simp [orText] at h
  · rintro rfl
    rfl

/-- The groups of a canonical form are those of which something is left. -/
theorem Matchers.ne_nil_of_mem_canonical {metric : Option Text} {ms : Matchers}
    {group : List Matcher} (h : group ∈ (ms.canonical metric).groups) : group ≠ [] := by
  rw [groups_canonical] at h
  obtain ⟨written, hwritten, rfl⟩ := List.mem_map.mp h
  intro hnil
  have hperm : [].Perm written := hnil ▸ Matcher.sort_perm written
  exact ne_nil_of_mem_writtenGroups hwritten hperm.nil_eq.symm

/-- The name and the groups that are written between the same braces. -/
theorem Matchers.spells_behindName (name : Text) (metric : Option Text) (ms : Matchers) :
    Spells .braces
      ([','].intercalate ([quote name, orText.intercalate (ms.groupTexts metric)].filter
        fun t => !t.isEmpty))
      (quotedToken name :: (ms.canonical metric).behindName) .braces Anything := by
  have hname : Spells .braces (quote name) [quotedToken name] .braces Anything :=
    Spells.quoted name (.inr rfl)
  have hcomma : Spells .braces [','] [.comma] .braces Anything :=
    Spells.nil.sign (t := .comma) rfl rfl fun _ => Token.reads_sign _ (by simp)
  have hquote : (quote name).isEmpty = false := by simp [quote]
  have hne : ∀ group ∈ (ms.canonical metric).groups, group ≠ [] :=
    fun _ => ne_nil_of_mem_canonical
  have hempty := intercalate_written_eq_nil_iff hne
  rw [groupTexts_eq, behindName, List.filter_cons, hquote]
  by_cases hnil : (ms.canonical metric).groups = []
  · simpa [hnil] using hname
  · have hall := hname.append (hcomma.append (ms.canonical metric).spells_inside fun _ _ => trivial)
      fun _ _ => trivial
    have hsome :
        (orText.intercalate ((ms.canonical metric).groups.map written)).isEmpty = false := by
      simpa [List.isEmpty_iff] using mt hempty.mp hnil
    simpa [hnil, hsome, List.intercalate_cons_cons] using hall

theorem spells_selectorText (metric : Option Text) (ms : Matchers) :
    Spells .plain (selectorText metric ms) (selectorTokens metric ms) .plain IsBoundary := by
  have hmatchers : Spells .plain (ms.text metric) (ms.canonical metric).tokens .plain IsBoundary :=
    (Matchers.spells_text metric ms).ofAnything
  unfold selectorText selectorTokens
  cases metric with
  | none => exact hmatchers
  | some name =>
    by_cases hbare : isBareMetric name
    · simp only [if_pos hbare]
      exact (Spells.word hbare).append hmatchers fun _ h => Matchers.text_boundary _ ms h
    · simp only [if_neg hbare]
      exact (spells_braced (Matchers.spells_behindName name (some name) ms)).ofAnything

theorem isBareMetric_spelling_ofWord {w : Text} (hw : isBareMetric w) :
    isBareMetric (Lexeme.ofWord w).spelling := by
  rwa [Lexeme.spelling_ofWord]

theorem Matchers.ne_leftBracket_of_mem_tokens {ms : Matchers} {t : Token} (h : t ∈ ms.tokens) :
    t ≠ .leftBracket := by
  rintro rfl
  cases isInner_of_mem_tokens h

theorem ne_leftBracket_of_mem_selectorTokens {metric : Option Text} {ms : Matchers} {t : Token}
    (h : t ∈ selectorTokens metric ms) : t ≠ .leftBracket := by
  have hmatchers : ∀ t ∈ (ms.canonical metric).tokens, t ≠ .leftBracket :=
    fun _ => Matchers.ne_leftBracket_of_mem_tokens
  have hbehind : ∀ t ∈ (ms.canonical metric).behindName, t ≠ .leftBracket := by
    intro t ht
    unfold Matchers.behindName at ht
    unfold Matchers.tokens at hmatchers
    split_ifs at ht hmatchers
    · cases ht
    · rcases List.mem_cons.mp ht with rfl | ht
      · nofun
      · exact hmatchers t (by simp [ht])
  unfold selectorTokens at h
  cases metric with
  | none => exact hmatchers t h
  | some name =>
    by_cases hbare : isBareMetric name
    · simp only [if_pos hbare, List.mem_cons] at h
      rcases h with rfl | h
      · intro hword
        have hspelling := isBareMetric_spelling_ofWord hbare
        rw [hword] at hspelling
        cases hspelling
      · exact hmatchers t h
    · simp only [if_neg hbare, List.cons_append, List.mem_cons, List.mem_append, List.not_mem_nil,
        or_false] at h
      rcases h with rfl | rfl | h | rfl
      · nofun
      · nofun
      · exact hbehind t h
      · nofun

/-- What is spelled without brackets is scanned. -/
theorem Spells.scan {text : Text} {ts : List Token} (h : Spells .plain text ts .plain IsBoundary)
    (hbracket : ∀ t ∈ ts, t ≠ .leftBracket) : Token.scan .plain text = some ts := by
  have hspelled := h [] [] (by simp [IsBoundary]) .nil
  rw [List.append_nil, List.append_nil] at hspelled
  rcases hspelled.scan with hscan | ⟨-, hcolon⟩
  · exact hscan
  · exact absurd rfl (hbracket .leftBracket (hcolon.subset List.mem_cons_self))

/-- The text of a selector is scanned as its tokens. -/
theorem scan_selectorText (metric : Option Text) (ms : Matchers) :
    Token.scan .plain (selectorText metric ms) = some (selectorTokens metric ms) :=
  (spells_selectorText metric ms).scan fun _ => ne_leftBracket_of_mem_selectorTokens

/-! ### Names are read back -/

/-- The name of a selector and the tokens of its matchers. A name stands in front of the braces, or
inside of them as a quoted text that is not compared with anything. -/
def splitName : List Token → Option Text × List Token
  | [] => (none, [])
  | .leftBrace :: .string mark body :: .comma :: ts => (unquote? mark body, .leftBrace :: ts)
  | .leftBrace :: .string mark body :: .rightBrace :: ts => (unquote? mark body, ts)
  | .leftBrace :: ts => (none, .leftBrace :: ts)
  | t :: ts => (some t.spelling, ts)

theorem splitName_word {w : Text} (hw : isBareMetric w) (ts : List Token) :
    splitName (Lexeme.ofWord w :: ts) = (some w, ts) := by
  have hspelling := isBareMetric_spelling_ofWord hw
  have hother : ∀ t : Token, isBareMetric t.spelling →
      splitName (t :: ts) = (some t.spelling, ts) := by
    intro t ht
    cases t <;> first | rfl | cases ht
  rw [hother _ hspelling, Lexeme.spelling_ofWord]

theorem splitName_matchers {ms : Matchers} (hne : ∀ group ∈ ms.groups, group ≠ []) :
    splitName ms.tokens = (none, ms.tokens) := by
  unfold Matchers.tokens
  split_ifs with hnil
  · rfl
  · obtain ⟨m, links, hinside, -⟩ := Grammar.exists_links_groups hne hnil
    rw [Matchers.inside, hinside, Matcher.tokens]
    split_ifs <;> rfl

/-- A selector is read back as its name and its matchers. -/
theorem splitName_selectorTokens (metric : Option Text) (ms : Matchers) :
    splitName (selectorTokens metric ms) = (metric, (ms.canonical metric).tokens) := by
  unfold selectorTokens
  cases metric with
  | none => exact splitName_matchers fun _ => Matchers.ne_nil_of_mem_canonical
  | some name =>
    by_cases hbare : isBareMetric name
    · simp only [if_pos hbare]
      exact splitName_word hbare _
    · simp only [if_neg hbare]
      unfold Matchers.behindName Matchers.tokens quotedToken
      split_ifs <;> simp [splitName, unquote?_escape]

theorem Matchers.tokens_injective {a b : Matchers} (ha : ∀ group ∈ a.groups, group ≠ [])
    (hb : ∀ group ∈ b.groups, group ≠ []) (h : a.tokens = b.tokens) : a.groups = b.groups := by
  unfold tokens at h
  split_ifs at h with hanil hbnil hbnil
  · rw [hanil, hbnil]
  · cases h
  · cases h
  · have hinside := List.append_cancel_right (List.cons.inj h).2
    exact groupTokens_injective ha hb hinside

/-! ### Telling selectors apart -/

/-- Selectors have the same text if and only if they have the same name and, in the same order,
groups of the same matchers. A matcher that only repeats the name counts for nothing, nor does a
group of which nothing else is left. -/
theorem selectorText_eq_iff (name name' : Option Text) (ms ms' : Matchers) :
    selectorText name ms = selectorText name' ms' ↔
      name = name' ∧ List.Forall₂ List.Perm (ms.writtenGroups name) (ms'.writtenGroups name') := by
  rw [← Matchers.map_sort_eq_iff, ← Matchers.groups_canonical, ← Matchers.groups_canonical]
  constructor
  · intro h
    have htokens : selectorTokens name ms = selectorTokens name' ms' := by
      have hscan := scan_selectorText name ms
      rw [h, scan_selectorText, Option.some.injEq] at hscan
      exact hscan.symm
    have hsplit := splitName_selectorTokens name ms
    rw [htokens, splitName_selectorTokens, Prod.mk.injEq] at hsplit
    exact ⟨hsplit.1.symm, Matchers.tokens_injective (fun _ => Matchers.ne_nil_of_mem_canonical)
      (fun _ => Matchers.ne_nil_of_mem_canonical) hsplit.2.symm⟩
  · rintro ⟨rfl, hgroups⟩
    have htexts : ms.groupTexts name = ms'.groupTexts name := by
      rw [Matchers.groupTexts_eq, Matchers.groupTexts_eq, hgroups]
    unfold selectorText Matchers.text
    cases name <;> simp only [htexts]

end PromQL

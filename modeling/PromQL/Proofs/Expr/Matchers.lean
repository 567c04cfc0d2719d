import PromQL.Expr.Clause
import PromQL.Proofs.Expr.Shape
import PromQL.Proofs.Expr.Tokens
import PromQL.Proofs.Text.Quoted

/-!
# Matchers are read back

The tokens between braces are cut at commas and at the words between alternatives. What is between
two cuts is one matcher, and adding the matchers in turn makes up the groups they were written for.
-/

namespace PromQL

/-! ### Tokens of matchers -/

theorem mem_intercalate {α : Type} {sep : List α} {xss : List (List α)} {x : α}
    (h : x ∈ sep.intercalate xss) : x ∈ sep ∨ ∃ xs ∈ xss, x ∈ xs := by
  induction xss with
  | nil => cases h
  | cons xs xss ih =>
    cases xss with
    | nil =>
      rw [List.intercalate_singleton] at h
      exact .inr ⟨xs, List.mem_cons_self, h⟩
    | cons ys xss =>
      rw [List.intercalate_cons_cons, List.mem_append, List.mem_append] at h
      rcases h with (h | h) | h
      · exact .inr ⟨xs, List.mem_cons_self, h⟩
      · exact .inl h
      · rcases ih h with h | ⟨zs, hzs, h⟩
        · exact .inl h
        · exact .inr ⟨zs, List.mem_cons_of_mem xs hzs, h⟩

/-- Whether a token may be one of the tokens of matchers, the braces around them included. -/
def Token.isInner : Token → Bool
  | comma | orWord | leftBrace | rightBrace | identifier _ | string _ _ | matchOp _ => true
  | _ => false

theorem Matchers.isInner_of_mem_tokens {ms : Matchers} {t : Token} (h : t ∈ ms.tokens) :
    t.isInner := by
  have hmatcher (m : Matcher) : ∀ t ∈ m.tokens, t.isInner := by
    unfold Matcher.tokens quotedToken
    split <;> simp [Token.isInner]
  have hgroup (group : List Matcher) : ∀ t ∈ groupTokens group, t.isInner := by
    intro t ht
    rcases mem_intercalate ht with ht | ⟨_, hmem, ht⟩
    · cases List.mem_singleton.mp ht
      rfl
    · obtain ⟨m, -, rfl⟩ := List.mem_map.mp hmem
      exact hmatcher m t ht
  rw [tokens] at h
  split at h
  · cases h
  · simp only [List.cons_append, List.mem_cons, List.mem_append, List.not_mem_nil, or_false] at h
    rcases h with rfl | h | rfl
    · rfl
    · rcases mem_intercalate h with h | ⟨_, hmem, h⟩
      · cases List.mem_singleton.mp h
        rfl
      · obtain ⟨group, -, rfl⟩ := List.mem_map.mp hmem
        exact hgroup group t h
    · rfl

/-! ### Links -/

namespace Matchers

/-- Matchers behind other ones, each with whether it starts an alternative. -/
abbrev Links := List (Bool × Matcher)

/-- The tokens of matchers behind other ones. -/
def Links.tokens (links : Links) : List Token :=
  links.flatMap fun link => (if link.1 then .orWord else .comma) :: link.2.tokens

/-- Matchers in the group of the one before them. -/
def joined (group : List Matcher) : Links := group.map fun m => (false, m)

/-- A group behind another one. -/
def alternative : List Matcher → Links
  | [] => []
  | m :: group => (true, m) :: joined group

theorem Links.tokens_append (a b : Links) :
    Links.tokens (a ++ b) = Links.tokens a ++ Links.tokens b := List.flatMap_append

theorem groupTokens_cons (m : Matcher) (group : List Matcher) :
    groupTokens (m :: group) = m.tokens ++ Links.tokens (joined group) := by
  induction group generalizing m with
  | nil => simp [groupTokens, joined, Links.tokens]
  | cons n group ih =>
    have ih := ih n
    rw [groupTokens, List.map_cons] at ih
    rw [groupTokens, List.map_cons, List.map_cons, List.intercalate_cons_cons, ih]
    simp [joined, Links.tokens]

theorem intercalate_groupTokens (group : List Matcher) {groups : List (List Matcher)}
    (hne : ∀ group ∈ groups, group ≠ []) :
    [Token.orWord].intercalate ((group :: groups).map groupTokens) =
      groupTokens group ++ Links.tokens (groups.flatMap alternative) := by
  induction groups generalizing group with
  | nil => simp [Links.tokens]
  | cons other groups ih =>
    have ih := ih other fun g hg => hne g (List.mem_cons_of_mem other hg)
    obtain ⟨m, ms, rfl⟩ := List.exists_cons_of_ne_nil (hne other List.mem_cons_self)
    rw [List.map_cons] at ih
    rw [List.map_cons, List.map_cons, List.intercalate_cons_cons, ih, groupTokens_cons m,
      List.flatMap_cons, Links.tokens_append]
    simp [alternative, Links.tokens]

/-! ### Adding matchers -/

/-- Adds matchers one by one. -/
def addAll (ms : Matchers) (links : Links) : Matchers :=
  links.foldl (fun ms link => ms.add link.1 link.2) ms

theorem addAll_joined_group (group more : List Matcher) :
    addAll ⟨group, []⟩ (joined more) = ⟨group ++ more, []⟩ := by
  induction more generalizing group with
  | nil => simp [addAll, joined]
  | cons m more ih =>
    have ih := ih (group ++ [m])
    rw [List.append_assoc, List.singleton_append] at ih
    exact ih

theorem addAll_joined_alternative (groups : List (List Matcher)) (group more : List Matcher) :
    addAll ⟨[], groups ++ [group]⟩ (joined more) = ⟨[], groups ++ [group ++ more]⟩ := by
  induction more generalizing group with
  | nil => simp [addAll, joined]
  | cons m more ih =>
    have ih := ih (group ++ [m])
    rw [List.append_assoc, List.singleton_append] at ih
    rw [← ih]
    simp [addAll, joined, add]

theorem addAll_alternatives (ms : Matchers) {groups : List (List Matcher)} (hne : groups ≠ [])
    (hgroups : ∀ group ∈ groups, group ≠ []) :
    addAll ms (groups.flatMap alternative) =
      ⟨[], ms.alternatives ++ (if ms.group.isEmpty then [] else [ms.group]) ++ groups⟩ := by
  induction groups generalizing ms with
  | nil => exact absurd rfl hne
  | cons group groups ih =>
    obtain ⟨m, more, rfl⟩ := List.exists_cons_of_ne_nil (hgroups group List.mem_cons_self)
    have hfirst : addAll ms (alternative (m :: more)) =
        ⟨[], ms.alternatives ++ (if ms.group.isEmpty then [] else [ms.group]) ++ [m :: more]⟩ :=
      addAll_joined_alternative _ [m] more
    rw [List.flatMap_cons, addAll, List.foldl_append]
    rw [addAll] at hfirst
    rw [hfirst]
    cases groups with
    | nil => simp
    | cons other groups =>
      have ih := ih ⟨[], ms.alternatives ++ (if ms.group.isEmpty then [] else [ms.group]) ++
        [m :: more]⟩ (List.cons_ne_nil other groups)
        fun g hg => hgroups g (List.mem_cons_of_mem _ hg)
      rw [addAll] at ih
      rw [ih]
      simp

/-- Matchers as they are read are made up by adding them in turn. -/
theorem addAll_groups {ms : Matchers} (hms : ms.Formed) {m : Matcher} {group : List Matcher}
    {groups : List (List Matcher)} (h : ms.groups = (m :: group) :: groups) :
    addAll .empty ((false, m) :: (joined group ++ groups.flatMap alternative)) = ms := by
  have hfirst : addAll .empty ((false, m) :: joined group) = ⟨m :: group, []⟩ :=
    addAll_joined_group [m] group
  rw [← List.cons_append, addAll, List.foldl_append]
  rw [addAll] at hfirst
  rw [hfirst]
  obtain ⟨first, alternatives⟩ := ms
  rw [Matchers.groups] at h
  rcases hms with halternatives | ⟨hgroup, hlength, hne⟩
  · simp only at halternatives
    subst halternatives
    split at h
    · cases h
    · cases h
      rfl
  · simp only at hgroup hlength hne
    subst hgroup
    simp only [List.isEmpty_nil, if_true] at h
    subst h
    have hne' : groups ≠ [] := by
      rintro rfl
      simp at hlength
    exact addAll_alternatives ⟨m :: group, []⟩ hne' fun g hg => hne g (List.mem_cons_of_mem _ hg)

end Matchers

/-! ### Reading -/

namespace Grammar

theorem matcherOf?_tokens (m : Matcher) : matcherOf? m.tokens = some (some m) := by
  unfold Matcher.tokens quotedToken
  split
  all_goals simp [matcherOf?, unquote?_escape]

theorem pieces_append {xs : List Token} (h : ∀ t ∈ xs, t ≠ .comma ∧ t ≠ .orWord) (ts : List Token) :
    pieces (xs ++ ts) = (xs ++ (pieces ts).1, (pieces ts).2) := by
  induction xs with
  | nil => rfl
  | cons x xs ih =>
    have ih := ih fun t ht => h t (List.mem_cons_of_mem x ht)
    obtain ⟨hcomma, hor⟩ := h x List.mem_cons_self
    rw [List.cons_append, pieces, ih]
    cases x <;> first | rfl | contradiction

theorem pieces_comma (ts : List Token) :
    pieces (.comma :: ts) = ([], (false, (pieces ts).1) :: (pieces ts).2) := rfl

theorem pieces_orWord (ts : List Token) :
    pieces (.orWord :: ts) = ([], (true, (pieces ts).1) :: (pieces ts).2) := rfl

/-- A matcher is not cut, neither inside of braces nor behind them. -/
theorem tokens_uncut (m : Matcher) :
    ∀ t ∈ m.tokens, t ≠ .comma ∧ t ≠ .orWord ∧ t ≠ .rightBrace := by
  unfold Matcher.tokens quotedToken
  split <;> simp

theorem pieces_links (m : Matcher) (links : Matchers.Links) :
    pieces (m.tokens ++ links.tokens) =
      (m.tokens, links.map fun link => (link.1, link.2.tokens)) := by
  induction links generalizing m with
  | nil =>
    rw [pieces_append fun t ht => (tokens_uncut m t ht).imp_right And.left]
    simp [Matchers.Links.tokens, pieces]
  | cons link links ih =>
    obtain ⟨starts, n⟩ := link
    have ih := ih n
    rw [pieces_append fun t ht => (tokens_uncut m t ht).imp_right And.left]
    rw [Matchers.Links.tokens] at ih ⊢
    rw [List.flatMap_cons, List.cons_append]
    cases starts
    · rw [if_neg Bool.false_ne_true, pieces_comma, ih]
      simp
    · rw [if_pos rfl, pieces_orWord, ih]
      simp

theorem tokens_ne_nil (m : Matcher) : m.tokens ≠ [] := by simp [Matcher.tokens]

theorem withoutLastComma_links (links : Matchers.Links) :
    withoutLastComma (links.map fun link => (link.1, link.2.tokens)) =
      links.map fun link => (link.1, link.2.tokens) := by
  rw [withoutLastComma, if_neg]
  intro h
  rw [List.getLast?_map] at h
  obtain ⟨link, -, hlink⟩ := Option.map_eq_some_iff.mp h
  exact tokens_ne_nil link.2 (Prod.mk.inj hlink).2

theorem mapM_matcherOf?_links (links : Matchers.Links) :
    (links.map fun link => (link.1, link.2.tokens)).mapM (m := Option)
      (fun (alternative, piece) => (matcherOf? piece).map fun m => (alternative, m)) =
      some (links.map fun link => (link.1, some link.2)) := by
  induction links with
  | nil => rfl
  | cons link links ih =>
    rw [List.map_cons, List.mapM_cons, ih]
    simp only [matcherOf?_tokens]
    rfl

theorem foldl_add_links (ms : Matchers) (links : Matchers.Links) :
    (links.map fun link => (link.1, some link.2)).foldl
      (fun (acc : Option Matchers) (alternative, m) =>
        acc.bind fun ms => m.map fun m => ms.add alternative m) (some ms) =
      some (ms.addAll links) := by
  induction links generalizing ms with
  | nil => rfl
  | cons link links ih =>
    rw [List.map_cons, List.foldl_cons]
    exact ih (ms.add link.1 link.2)

theorem matchersOf?_links (m : Matcher) (links : Matchers.Links) :
    matchersOf? (m.tokens ++ links.tokens) =
      some (some (Matchers.empty.addAll ((false, m) :: links))) := by
  have hmap := mapM_matcherOf?_links ((false, m) :: links)
  rw [List.map_cons] at hmap
  rw [matchersOf?, pieces_links]
  split
  · next heq => exact absurd (Prod.mk.inj heq).1 (tokens_ne_nil m)
  · next heq =>
    cases heq
    rw [withoutLastComma_links, hmap, Option.bind_eq_bind, Option.bind_some, foldl_add_links]
    rfl

theorem ne_nil_of_mem_groups {ms : Matchers} (hms : ms.Formed) :
    ∀ group ∈ ms.groups, group ≠ [] := by
  intro group hgroup
  rw [Matchers.groups] at hgroup
  rcases hms with halternatives | ⟨hnil, -, hne⟩
  · rw [halternatives] at hgroup
    split at hgroup
    · cases hgroup
    · next hempty =>
      cases List.mem_singleton.mp hgroup
      simpa using hempty
  · rw [hnil] at hgroup
    exact hne group hgroup

/-- Between the braces there is a matcher, and other ones that are linked to it. -/
theorem exists_links {ms : Matchers} (hms : ms.Formed) (hne : ms.groups ≠ []) :
    ∃ m links, ms.inside = m.tokens ++ Matchers.Links.tokens links ∧
      Matchers.empty.addAll ((false, m) :: links) = ms := by
  have hgroups := ne_nil_of_mem_groups hms
  obtain ⟨first, groups, h⟩ := List.exists_cons_of_ne_nil hne
  rw [h] at hgroups
  obtain ⟨m, group, rfl⟩ := List.exists_cons_of_ne_nil (hgroups first List.mem_cons_self)
  refine ⟨m, _, ?_, Matchers.addAll_groups hms h⟩
  rw [Matchers.inside, h, Matchers.intercalate_groupTokens _ fun g hg =>
    hgroups g (List.mem_cons_of_mem _ hg), Matchers.groupTokens_cons, List.append_assoc,
    ← Matchers.Links.tokens_append]

/-- Matchers in braces are read as they are. -/
theorem matchers_tokens {ms : Matchers} (hms : ms.Formed) (hne : ms.groups ≠ [])
    (rest : List Token) : matchers (ms.tokens ++ rest) = .ok (some ms, rest) := by
  obtain ⟨m, links, hinside, hadd⟩ := exists_links hms hne
  have hbrace : ∀ t ∈ ms.inside, (t != .rightBrace) = true := by
    intro t ht
    rw [bne_iff_ne]
    rw [hinside] at ht
    rcases List.mem_append.mp ht with ht | ht
    · exact (tokens_uncut m t ht).2.2
    · obtain ⟨link, -, hlink⟩ := List.mem_flatMap.mp ht
      rcases List.mem_cons.mp hlink with rfl | hlink
      · split <;> simp
      · exact (tokens_uncut link.2 t hlink).2.2
  have hread := matchersOf?_links m links
  rw [← hinside, hadd] at hread
  rw [Matchers.tokens, if_neg hne, List.cons_append, List.cons_append, matchers,
    List.append_assoc, List.dropWhile_append_of_pos hbrace, List.takeWhile_append_of_pos hbrace]
  simp [hread]

end Grammar

end PromQL

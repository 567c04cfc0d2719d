import Mathlib
import PromQL.Proofs.Expr.Matchers
import PromQL.Proofs.Label.Sorting

/-!
# Groups of matchers as they are written

The matchers of a group are written with commas between them and perhaps behind the last one. With
placeholders for its variables, such a group is scanned as tokens, which are read as the matchers in
their order, with placeholders in them.
-/

namespace PromQL

/-- A matcher as it is written: its parts, whose tokens are read as the matcher. -/
structure WrittenMatcher where
  parts : List MatcherPart
  matcher : Matcher
  legal : ∀ p ∈ parts, p.IsLegal
  chain : parts.IsChain MatcherPart.Precedes
  read : Grammar.matcherOf? (MatcherPart.tokens parts) = some (some matcher)

namespace WrittenMatcher

open Grammar Placeholders

/-- The text of a matcher. -/
def text (w : WrittenMatcher) : Text := MatcherPart.texts w.parts

/-- The tokens of a matcher. -/
def tokens (w : WrittenMatcher) : List Token := MatcherPart.tokens w.parts

/-- The tokens of a matcher with placeholders for its variables, the first of which is in the given
place. -/
def tokensFrom (stem : Text) (index : Nat) (w : WrittenMatcher) : List Token :=
  MatcherPart.tokens (MatcherPart.allMaskedFrom stem index w.parts)

/-- The text of a group. -/
def groupText (ws : List WrittenMatcher) : Text := [','].intercalate (ws.map text)

/-- The tokens of each matcher in a group, with placeholders for the variables. -/
def groupTokensFrom (stem : Text) : Nat → List WrittenMatcher → List (List Token)
  | _, [] => []
  | index, w :: ws =>
    w.tokensFrom stem index :: groupTokensFrom stem (index + (variablesOf w.text).length) ws

/-- What may stand behind the last matcher of a group: nothing, or a comma with blanks and comments
behind it. -/
def IsGroupEnd (closing : Text) : Prop :=
  closing = [] ∨ ∃ gaps : List MatcherPart, (∀ p ∈ gaps, p.IsLegal ∧ p.token? = none) ∧
    closing = ',' :: MatcherPart.texts gaps

variable {n i : Nat} {vs : List Text} {w : WrittenMatcher} {ws ws' : List WrittenMatcher}
  {c : Char} {rest closing behind : Text}

/-! ### Texts of groups -/

@[simp] theorem groupText_nil : groupText [] = [] := rfl

@[simp] theorem groupText_singleton (w : WrittenMatcher) : groupText [w] = w.text := by
  simp [groupText]

theorem groupText_cons_cons (w w' : WrittenMatcher) (ws : List WrittenMatcher) :
    groupText (w :: w' :: ws) = w.text ++ ',' :: groupText (w' :: ws) := by
  rw [groupText, List.map_cons, List.map_cons, List.intercalate_cons_cons]
  simp [groupText]

theorem variablesOf_groupText (ws : List WrittenMatcher) :
    variablesOf (groupText ws) = ws.flatMap fun w => variablesOf w.text := by
  induction ws with
  | nil => rfl
  | cons w ws ih =>
    cases ws with
    | nil => simp
    | cons w' ws =>
      rw [groupText_cons_cons, variablesOf_append_cons (by decide), ih]
      rfl

/-- A stem that is in a group is in one of its matchers. -/
theorem stemOf_infix_groupText_iff (ws : List WrittenMatcher) :
    stemOf n <:+: groupText ws ↔ ∃ w ∈ ws, stemOf n <:+: w.text := by
  induction ws with
  | nil => simp [groupText, stemOf_eq_cons]
  | cons w ws ih =>
    cases ws with
    | nil => simp
    | cons w' ws =>
      rw [groupText_cons_cons, stemOf_infix_append_cons_iff (by decide), ih]
      simp only [List.mem_cons, exists_eq_or_imp]

/-! ### Scanning -/

/-- A matcher with placeholders is scanned as its tokens. -/
theorem lexes_text (hc : c = ',' ∨ c = '}') (w : WrittenMatcher) (rest : Text) :
    Lexes .braces (maskFrom (stemOf n) i (w.text ++ c :: rest)) (w.tokensFrom (stemOf n) i) .braces
      (maskFrom (stemOf n) (i + (variablesOf w.text).length) (c :: rest)) := by
  have hseparator : IsSeparator c := by rcases hc with rfl | rfl <;> decide
  have hhead := maskFrom_append_cons_of_not_mem (a := []) List.not_mem_nil hseparator (stemOf n)
    (i + (variablesOf w.text).length) rest
  rw [List.nil_append, List.nil_append] at hhead
  rw [maskFrom_append_cons hseparator, hhead, text,
    ← MatcherPart.maskFrom_texts w.legal w.chain]
  refine MatcherPart.lexes_allMaskedFrom w.legal w.chain ?_
  rcases hc with rfl | rfl
  · exact .inl rfl
  · exact .inr rfl

theorem lexes_comma (i : Nat) (rest : Text) :
    Lexes .braces (maskFrom (stemOf n) i (',' :: rest)) [.comma] .braces
      (maskFrom (stemOf n) i rest) := by
  have hcomma := maskFrom_append_cons_of_not_mem (a := []) (c := ',') List.not_mem_nil (by decide)
    (stemOf n) i rest
  rw [List.nil_append, List.nil_append] at hcomma
  rw [hcomma]
  exact Token.lexes_sign rfl (Token.reads_sign _ (.inr (.inl ⟨rfl, by simp⟩)))

/-- A group with placeholders is scanned as the tokens of its matchers with commas between them. -/
theorem lexes_groupText (hne : ws ≠ []) (hc : c = ',' ∨ c = '}') (rest : Text) :
    Lexes .braces (maskFrom (stemOf n) i (groupText ws ++ c :: rest))
      ([Token.comma].intercalate (groupTokensFrom (stemOf n) i ws)) .braces
      (maskFrom (stemOf n) (i + (variablesOf (groupText ws)).length) (c :: rest)) := by
  induction ws generalizing i with
  | nil => exact absurd rfl hne
  | cons w ws ih =>
    cases ws with
    | nil =>
      rw [groupText_singleton, groupTokensFrom, groupTokensFrom, List.intercalate_singleton]
      exact lexes_text hc w rest
    | cons w' ws =>
      have hfirst := lexes_text (n := n) (i := i) (.inl rfl) w (groupText (w' :: ws) ++ c :: rest)
      have hothers := (hfirst.trans (lexes_comma _ _)).trans
        (ih (i := i + (variablesOf w.text).length) (List.cons_ne_nil w' ws))
      rw [groupText_cons_cons, variablesOf_append_cons (by decide), List.length_append,
        List.append_assoc, List.cons_append, ← Nat.add_assoc, groupTokensFrom, groupTokensFrom,
        List.intercalate_cons_cons]
      rw [groupTokensFrom] at hothers
      exact hothers

/-- Behind the last matcher, there is a comma or none. -/
theorem exists_lexes_closing (h : IsGroupEnd closing) :
    ∃ commas, (commas = [] ∨ commas = [Token.comma]) ∧
      ∀ i behind, Lexes .braces (maskFrom (stemOf n) i (closing ++ '}' :: behind)) commas .braces
        ('}' :: maskFrom (stemOf n) (i + (variablesOf closing).length) behind) := by
  rcases h with rfl | ⟨gaps, hgaps, rfl⟩
  · refine ⟨[], .inl rfl, fun i behind => ?_⟩
    rw [maskFrom_append_cons (by decide)]
    exact .refl
  · have hlegal : ∀ p ∈ gaps, p.IsLegal := fun p hp => (hgaps p hp).1
    have hnone : ∀ p ∈ gaps, p.token? = none := fun p hp => (hgaps p hp).2
    have hchain := MatcherPart.isChain_of_gaps hnone
    have hvariables : variablesOf (',' :: MatcherPart.texts gaps) =
        variablesOf (MatcherPart.texts gaps) :=
      variablesOf_append_cons (a := []) (by decide) _
    refine ⟨[.comma], .inr rfl, fun i behind => ?_⟩
    have hcomma := lexes_comma (n := n) i (MatcherPart.texts gaps ++ '}' :: behind)
    rw [maskFrom_append_cons (by decide), ← MatcherPart.maskFrom_texts hlegal hchain] at hcomma
    have hclosing := hcomma.trans (MatcherPart.lexes_allMaskedFrom hlegal hchain (.inr rfl))
    rwa [MatcherPart.tokens_of_gaps hnone, List.append_nil, ← hvariables] at hclosing

/-! ### Reading -/

theorem mem_intercalate_of_mem {α : Type} (sep : List α) {xs : List α} {xss : List (List α)} {x : α}
    (hxs : xs ∈ xss) (hx : x ∈ xs) : x ∈ sep.intercalate xss := by
  induction xss with
  | nil => cases hxs
  | cons ys xss ih =>
    cases xss with
    | nil =>
      rw [List.intercalate_singleton]
      exact List.mem_singleton.mp hxs ▸ hx
    | cons zs xss =>
      rw [List.intercalate_cons_cons, List.mem_append, List.mem_append]
      rcases List.mem_cons.mp hxs with rfl | hxs
      · exact .inl (.inl hx)
      · exact .inr (ih hxs)

theorem length_intercalate_singleton {α : Type} (x : α) (xss : List (List α)) :
    ([x].intercalate xss).length = (xss.map List.length).sum + (xss.length - 1) := by
  induction xss with
  | nil => rfl
  | cons xs xss ih =>
    cases xss with
    | nil => simp
    | cons ys xss =>
      rw [List.intercalate_cons_cons, List.length_append, ih]
      simp only [List.length_append, List.length_cons, List.length_nil, List.map_cons, List.sum_cons]
      omega

/-- The tokens of a matcher with placeholders are as many as those without them. -/
theorem length_tokensFrom (w : WrittenMatcher) (stem : Text) (i : Nat) :
    (w.tokensFrom stem i).length = w.tokens.length :=
  MatcherPart.length_tokens w.parts stem i

theorem map_length_groupTokensFrom (ws : List WrittenMatcher) (stem : Text) (i : Nat) :
    (groupTokensFrom stem i ws).map List.length = ws.map fun w => w.tokens.length := by
  induction ws generalizing i with
  | nil => rfl
  | cons w ws ih => rw [groupTokensFrom, List.map_cons, length_tokensFrom, ih, List.map_cons]

/-- Groups of the same matchers have as many tokens. -/
theorem length_tokens_of_perm (h : ws.Perm ws') (stem : Text) (i : Nat) :
    ([Token.comma].intercalate (groupTokensFrom stem i ws)).length =
      ([Token.comma].intercalate (groupTokensFrom stem i ws')).length := by
  have hlengths := (h.map fun w => w.tokens.length).sum_eq
  rw [← map_length_groupTokensFrom ws stem i, ← map_length_groupTokensFrom ws' stem i] at hlengths
  have hcount : ∀ us : List WrittenMatcher, (groupTokensFrom stem i us).length = us.length :=
    fun us => by simpa using congrArg List.length (map_length_groupTokensFrom us stem i)
  rw [length_intercalate_singleton, length_intercalate_singleton, hlengths, hcount, hcount,
    h.length_eq]

theorem tokensForms (hfresh : ¬ stemOf n <:+: w.text) (hdrop : variablesOf w.text <+: vs.drop i) :
    TokensForms n vs vs w.tokens (w.tokensFrom (stemOf n) i) (w.tokensFrom (stemOf n) i) :=
  MatcherPart.tokensForms w.legal w.chain hfresh hdrop hdrop

/-- The first matcher of a group has its variables in front of the others. -/
theorem split_drop (hdrop : variablesOf (groupText (w :: ws)) <+: vs.drop i) :
    variablesOf w.text <+: vs.drop i ∧
      variablesOf (groupText ws) <+: vs.drop (i + (variablesOf w.text).length) := by
  rw [variablesOf_groupText, List.flatMap_cons, ← variablesOf_groupText] at hdrop
  exact MatcherPart.append_prefix_drop hdrop

theorem split_fresh (hfresh : ¬ stemOf n <:+: groupText (w :: ws)) :
    ¬ stemOf n <:+: w.text ∧ ¬ stemOf n <:+: groupText ws := by
  rw [stemOf_infix_groupText_iff, List.exists_mem_cons_iff, not_or] at hfresh
  rwa [stemOf_infix_groupText_iff]

/-- Where the escapes in a group with placeholders stand for separators, those in its matchers
do. -/
theorem escapes_of_groupTokensFrom (hfresh : ¬ stemOf n <:+: groupText ws)
    (hdrop : variablesOf (groupText ws) <+: vs.drop i)
    (h : ∀ ts ∈ groupTokensFrom (stemOf n) i ws, ∀ t ∈ ts, ∀ c ∈ t.escapes, IsSeparator c) :
    ∀ w ∈ ws, ∀ t ∈ w.tokens, ∀ c ∈ t.escapes, IsSeparator c := by
  induction ws generalizing i with
  | nil => exact List.forall_mem_nil _
  | cons w ws ih =>
    obtain ⟨hfresh, hothers⟩ := split_fresh hfresh
    obtain ⟨hdrop, hrest⟩ := split_drop hdrop
    obtain ⟨hfirst, h⟩ := List.forall_mem_cons.mp h
    refine List.forall_mem_cons.mpr ⟨fun t ht => ?_, ih hothers hrest h⟩
    obtain ⟨u, hu, heq⟩ := (tokensForms hfresh hdrop).exists_escapes_eq t ht
    exact heq ▸ hfirst u hu

/-- The tokens of each matcher with placeholders are read as the matcher with placeholders. -/
theorem exists_forms (hfresh : ¬ stemOf n <:+: groupText ws)
    (hdrop : variablesOf (groupText ws) <+: vs.drop i)
    (hescapes : ∀ w ∈ ws, ∀ t ∈ w.tokens, ∀ c ∈ t.escapes, IsSeparator c) :
    ∃ as, List.Forall₂ (MatcherForms.IsForm n vs) (ws.map matcher) as ∧
      List.Forall₂ (fun ts a => matcherOf? ts = some (some a)) (groupTokensFrom (stemOf n) i ws)
        as := by
  induction ws generalizing i with
  | nil => exact ⟨[], .nil, .nil⟩
  | cons w ws ih =>
    obtain ⟨hfresh, hothers⟩ := split_fresh hfresh
    obtain ⟨hdrop, hrest⟩ := split_drop hdrop
    obtain ⟨hfirst, hescapes⟩ := List.forall_mem_cons.mp hescapes
    obtain ⟨a, a', ha, ha', hform⟩ := (tokensForms hfresh hdrop).exists_matcherForms w.read hfirst
    obtain rfl : a = a' := Option.some.inj (Option.some.inj (ha.symm.trans ha'))
    obtain ⟨as, has, hread⟩ := ih hothers hrest hescapes
    exact ⟨a :: as, .cons hform has, .cons ha hread⟩

end WrittenMatcher

/-! ### Tokens of groups -/

namespace Grammar

theorem uncut_of_matcherOf? {ts : List Token} {m : Option Matcher} (h : matcherOf? ts = some m) :
    ts ≠ [] ∧ ∀ t ∈ ts, t ≠ .comma ∧ t ≠ .orWord ∧ t ≠ .rightBrace := by
  unfold matcherOf? at h
  split at h
  · simp
  · simp
  · simp
  · cases h

variable {ts commas : List Token} {tss : List (List Token)} {as : List Matcher}

theorem pieces_intercalate (h : ∀ us ∈ ts :: tss, ∀ t ∈ us, t ≠ .comma ∧ t ≠ .orWord)
    (hcommas : (pieces commas).1 = []) :
    pieces ([.comma].intercalate (ts :: tss) ++ commas) =
      (ts, tss.map (fun us => (false, us)) ++ (pieces commas).2) := by
  induction tss generalizing ts with
  | nil =>
    rw [List.intercalate_singleton, pieces_append (h ts List.mem_cons_self), hcommas,
      List.append_nil]
    rfl
  | cons us tss ih =>
    have hrest := ih fun vs hvs => h vs (List.mem_cons_of_mem ts hvs)
    rw [List.intercalate_cons_cons, List.append_assoc, List.append_assoc,
      pieces_append (h ts List.mem_cons_self), List.singleton_append, pieces_comma, hrest]
    simp

/-- A last comma does not count. -/
theorem withoutLastComma_pieces (hne : ∀ us ∈ tss, us ≠ [])
    (hcommas : commas = [] ∨ commas = [.comma]) :
    withoutLastComma (tss.map (fun us => (false, us)) ++ (pieces commas).2) =
      tss.map fun us => (false, us) := by
  rcases hcommas with rfl | rfl
  · have hnil : (pieces []).2 = [] := rfl
    rw [hnil, List.append_nil, withoutLastComma, if_neg]
    intro hlast
    rw [List.getLast?_map] at hlast
    obtain ⟨us, hus, heq⟩ := Option.map_eq_some_iff.mp hlast
    exact hne us (List.mem_of_getLast? hus) (Prod.mk.inj heq).2
  · have hlast : (pieces [.comma]).2 = [(false, [])] := rfl
    rw [hlast, withoutLastComma, List.getLast?_concat, if_pos rfl, List.dropLast_concat]

theorem mapM_matcherOf? (h : List.Forall₂ (fun ts a => matcherOf? ts = some (some a)) tss as) :
    (tss.map fun us => (false, us)).mapM (m := Option)
      (fun (alternative, piece) => (matcherOf? piece).map fun m => (alternative, m)) =
      some ((Matchers.joined as).map fun link => (link.1, some link.2)) := by
  induction h with
  | nil => rfl
  | cons h _ ih =>
    rw [List.map_cons, List.mapM_cons, ih]
    simp only [h]
    rfl

/-- Matchers with commas between them are read as one group. -/
theorem matchersOf?_intercalate
    (h : List.Forall₂ (fun ts a => matcherOf? ts = some (some a)) tss as) (hne : tss ≠ [])
    (hcommas : commas = [] ∨ commas = [.comma]) :
    matchersOf? ([.comma].intercalate tss ++ commas) = some (some ⟨as, []⟩) := by
  have huncut : ∀ us ∈ tss, us ≠ [] ∧ ∀ t ∈ us, t ≠ .comma ∧ t ≠ .orWord ∧ t ≠ .rightBrace := by
    intro us hus
    obtain ⟨a, -, ha⟩ := exists_of_forall₂ h us hus
    exact uncut_of_matcherOf? ha
  obtain ⟨ts, tss, rfl⟩ := List.exists_cons_of_ne_nil hne
  have hnone : (pieces commas).1 = [] := by rcases hcommas with rfl | rfl <;> rfl
  have hpieces := pieces_intercalate
    (fun us hus t ht => ((huncut us hus).2 t ht).imp_right And.left) hnone
  have hlast := withoutLastComma_pieces
    (fun us hus => (huncut us (List.mem_cons_of_mem ts hus)).1) hcommas
  have hmap := mapM_matcherOf? h
  rw [List.map_cons] at hmap
  rw [matchersOf?, hpieces]
  split
  · next heq => exact absurd (Prod.mk.inj heq).1 (huncut ts List.mem_cons_self).1
  · next heq =>
    cases heq
    rw [hlast, hmap, Option.bind_eq_bind, Option.bind_some, foldl_add_links, Matchers.empty,
      Matchers.addAll_joined_group]
    rfl

theorem rightBrace_not_mem
    (h : List.Forall₂ (fun ts a => matcherOf? ts = some (some a)) tss as)
    (hcommas : commas = [] ∨ commas = [.comma]) :
    .rightBrace ∉ [Token.comma].intercalate tss ++ commas := by
  intro hmem
  rcases List.mem_append.mp hmem with hmem | hmem
  · rcases mem_intercalate hmem with hmem | ⟨us, hus, hmem⟩
    · cases List.mem_singleton.mp hmem
    · obtain ⟨a, -, ha⟩ := exists_of_forall₂ h us hus
      exact ((uncut_of_matcherOf? ha).2 _ hmem).2.2 rfl
  · rcases hcommas with rfl | rfl
    · cases hmem
    · cases List.mem_singleton.mp hmem

end Grammar

end PromQL

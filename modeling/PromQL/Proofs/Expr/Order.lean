import PromQL.Proofs.Expr.Context
import PromQL.Proofs.Label.Group
import PromQL.Proofs.Token.Words

/-!
# Queries around a group of matchers

A query in which a group of matchers stands between braces has tokens in front of the braces and
behind them which do not depend on the order of the matchers, and neither do the places of the
variables there. So with its matchers in another order it is read as an expression that is the same
but for one selector.
-/

namespace PromQL

open Placeholders

/-! ### Tokens around braces -/

namespace Lexeme

/-- The lexer leaves braces with the one that closes them. -/
theorem braces?_mode {c : Char} {cs : Text} {l : Lexeme} (h : braces? (c :: cs) = some l) :
    l.token = .rightBrace ∧ l.mode = .plain ∨ l.token ≠ .rightBrace ∧ l.mode = .braces := by
  have hstring : ∀ {l}, (string? c cs).map (stay .braces) = some l →
      l.token ≠ .rightBrace ∧ l.mode = .braces := by
    intro l hl
    obtain ⟨⟨t, rest⟩, hstring, rfl⟩ := Option.map_eq_some_iff.mp hl
    obtain ⟨⟨body, behind⟩, -, hstring⟩ := Option.map_eq_some_iff.mp hstring
    cases hstring
    exact ⟨Token.noConfusion, rfl⟩
  unfold braces? at h
  split at h
  all_goals try cases h
  all_goals try exact .inl ⟨rfl, rfl⟩
  all_goals try exact .inr ⟨Token.noConfusion, rfl⟩
  split_ifs at h
  · rename_i heq _
    cases heq
    exact .inr (hstring h)
  · split at h
    · split_ifs at h <;> cases h <;> exact .inr ⟨Token.noConfusion, rfl⟩
    · cases h
      exact .inr ⟨Token.noConfusion, rfl⟩

end Lexeme

namespace Grammar.Exchange

/-- Two lists of tokens that differ in braces do so behind other tokens, too. If the lexer starts
inside of braces, those up to the closing brace are left out. -/
theorem Around.of_lexes {x : Exchange} {us us' : List Token} (hus : x.Around us us')
    {mode mode' : LexMode} {text rest : Text} {ts : List Token} (h : Lexes mode text ts mode' rest)
    (hmode : mode' = .plain) :
    (mode ≠ .braces → x.Around (ts ++ us) (ts ++ us')) ∧
      (mode = .braces → ∃ inside vs, ts = inside ++ .rightBrace :: vs ∧ .rightBrace ∉ inside ∧
        x.Around (vs ++ us) (vs ++ us')) := by
  induction h with
  | refl => exact ⟨fun _ => hus, fun hbraces => by rw [hmode] at hbraces; cases hbraces⟩
  | @step mode _ _ _ _ _ _ ts first _ ih =>
    obtain ⟨ihplain, ihbraces⟩ := ih hmode
    cases first with
    | space => exact ⟨ihplain, ihbraces⟩
    | comment => exact ⟨ihplain, ihbraces⟩
    | @token c cs l _ _ hread =>
      refine ⟨fun hne => ?_, ?_⟩
      · have hafter : l.mode = mode.after l.token := (Lexeme.follows_read? hread).2
        by_cases hbrace : l.token = .leftBrace
        · rw [hbrace] at hafter
          obtain ⟨inside, vs, rfl, hclosed, hvs⟩ := ihbraces hafter
          rw [hbrace]
          simpa using Around.braces hclosed hvs
        · have hleave : l.mode ≠ .braces := by
            rw [hafter]
            unfold LexMode.after
            split
            · exact absurd ‹_› hbrace
            all_goals first | exact hne | exact LexMode.noConfusion
          exact .token hbrace (ihplain hleave)
      · rintro rfl
        rcases Lexeme.braces?_mode hread with ⟨hbrace, hplain⟩ | ⟨hbrace, hbraces⟩
        · refine ⟨[], _, by rw [hbrace]; rfl, List.not_mem_nil, ihplain ?_⟩
          rw [hplain]
          exact LexMode.noConfusion
        · obtain ⟨inside, vs, rfl, hclosed, hvs⟩ := ihbraces hbraces
          refine ⟨l.token :: inside, vs, rfl, ?_, hvs⟩
          rw [List.mem_cons, not_or]
          exact ⟨hbrace.symm, hclosed⟩

end Grammar.Exchange

/-! ### Queries with a group -/

/-- What stands around the matchers of a group: the text in front of the brace, what stands behind
the last matcher, and the text behind the closing brace. -/
structure GroupQuery where
  front : Text
  closing : Text
  behind : Text
  isGroupEnd : WrittenMatcher.IsGroupEnd closing

namespace GroupQuery

open WrittenMatcher

variable {q : GroupQuery} {n : Nat} {ws ws' : List WrittenMatcher} {ts us : List Token}

/-- The query with the given matchers in the group. -/
def text (q : GroupQuery) (ws : List WrittenMatcher) : Text :=
  q.front ++ '{' :: (groupText ws ++ (q.closing ++ '}' :: q.behind))

/-- The lexer comes to the brace of the group, whatever stands behind it. Placeholders with the
given stem stand for the variables in front of it. -/
def Opens (q : GroupQuery) (stem : Text) (ts : List Token) : Prop :=
  ∀ rest, Lexes .plain (maskFrom stem 0 q.front ++ '{' :: rest) ts .plain ('{' :: rest)

/-- The number of the first variable behind the group. -/
def place (q : GroupQuery) (ws : List WrittenMatcher) : Nat :=
  (variablesOf q.front).length + (variablesOf (groupText ws)).length +
    (variablesOf q.closing).length

/-- The tokens of the matchers of a group, with placeholders for their variables. -/
def matcherTokens (q : GroupQuery) (n : Nat) (ws : List WrittenMatcher) : List (List Token) :=
  groupTokensFrom (stemOf n) (variablesOf q.front).length ws

/-- What follows the last matcher starts with a sign. -/
theorem exists_closing (q : GroupQuery) : ∃ c rest, (c = ',' ∨ c = '}') ∧
    q.closing ++ '}' :: q.behind = c :: rest := by
  rcases q.isGroupEnd with hnil | ⟨gaps, -, hclosing⟩
  · exact ⟨'}', q.behind, .inr rfl, by rw [hnil]; rfl⟩
  · exact ⟨',', _, .inl rfl, by rw [hclosing]; rfl⟩

theorem variablesOf_text (q : GroupQuery) (ws : List WrittenMatcher) :
    variablesOf (q.text ws) = variablesOf q.front ++ (variablesOf (groupText ws) ++
      (variablesOf q.closing ++ variablesOf q.behind)) := by
  obtain ⟨c, rest, hc, hclosing⟩ := q.exists_closing
  have hend : IsNameEnd (q.closing ++ '}' :: q.behind) := by
    rw [hclosing]
    rcases hc with rfl | rfl <;> rintro _ ⟨⟩ <;> decide
  rw [text, variablesOf_append_cons (by decide), variablesOf_append hend,
    variablesOf_append_cons (by decide)]

/-- The group has its variables behind those in front of it. -/
theorem groupText_prefix_drop (q : GroupQuery) (ws : List WrittenMatcher) :
    variablesOf (groupText ws) <+: (variablesOf (q.text ws)).drop (variablesOf q.front).length := by
  rw [variablesOf_text, List.drop_left]
  exact List.prefix_append _ _

theorem length_variablesOf_groupText (h : ws.Perm ws') :
    (variablesOf (groupText ws)).length = (variablesOf (groupText ws')).length := by
  rw [variablesOf_groupText, variablesOf_groupText]
  exact (h.flatMap_right _).length_eq

theorem place_eq (q : GroupQuery) (h : ws.Perm ws') : q.place ws = q.place ws' := by
  rw [place, place, length_variablesOf_groupText h]

/-! ### Stems -/

/-- The same stems occur in both orders of the matchers. -/
theorem stemOf_infix_text_iff (q : GroupQuery) (h : ws.Perm ws') :
    stemOf n <:+: q.text ws ↔ stemOf n <:+: q.text ws' := by
  obtain ⟨c, rest, hc, hclosing⟩ := q.exists_closing
  have hseparator : IsSeparator c := by rcases hc with rfl | rfl <;> decide
  have hgroup : stemOf n <:+: groupText ws ↔ stemOf n <:+: groupText ws' := by
    simp only [stemOf_infix_groupText_iff, h.mem_iff]
  have hbrace : IsSeparator '{' := by decide
  rw [text, text, hclosing, stemOf_infix_append_cons_iff hbrace,
    stemOf_infix_append_cons_iff hseparator, hgroup, stemOf_infix_append_cons_iff hbrace,
    stemOf_infix_append_cons_iff hseparator]

theorem freshStem_text (q : GroupQuery) (h : ws.Perm ws') :
    freshStem (q.text ws) = freshStem (q.text ws') :=
  freshStem_congr fun _ => q.stemOf_infix_text_iff h

theorem infix_text (q : GroupQuery) (ws : List WrittenMatcher) :
    q.front <:+: q.text ws ∧ groupText ws <:+: q.text ws ∧ q.behind <:+: q.text ws := by
  refine ⟨⟨[], '{' :: (groupText ws ++ (q.closing ++ '}' :: q.behind)), rfl⟩,
    ⟨q.front ++ ['{'], q.closing ++ '}' :: q.behind, ?_⟩,
    ⟨q.front ++ '{' :: (groupText ws ++ (q.closing ++ ['}'])), [], ?_⟩⟩
  · simp [text]
  · simp [text]

/-! ### Scanning -/

/-- Up to the closing brace of the group, its query is scanned as tokens of which only those of the
matchers depend on them. -/
theorem exists_lexes (hopens : q.Opens (stemOf n) ts) :
    ∃ commas, (commas = [] ∨ commas = [Token.comma]) ∧ ∀ ws, ws ≠ [] →
      Lexes .plain (maskFrom (stemOf n) 0 (q.text ws))
        (ts ++ .leftBrace :: ([.comma].intercalate (q.matcherTokens n ws) ++ commas ++
          [.rightBrace]))
        .plain (maskFrom (stemOf n) (q.place ws) q.behind) := by
  obtain ⟨commas, hcommas, hclosing⟩ := exists_lexes_closing (n := n) q.isGroupEnd
  refine ⟨commas, hcommas, fun ws hne => ?_⟩
  obtain ⟨c, rest, hc, hend⟩ := q.exists_closing
  have hbrace : ∀ rest, Lexes .plain ('{' :: rest) [.leftBrace] .braces rest := fun rest =>
    Token.lexes_sign rfl (Token.reads_sign _ (by simp))
  have hclose : ∀ rest, Lexes .braces ('}' :: rest) [.rightBrace] .plain rest := fun rest =>
    Token.lexes_sign rfl (Token.reads_sign _ (by simp))
  have hgroup := lexes_groupText (n := n) (i := (variablesOf q.front).length) hne hc rest
  rw [← hend] at hgroup
  have hinside := (hgroup.trans (hclosing _ q.behind)).trans (hclose _)
  rw [text, maskFrom_append_cons (by decide)]
  simpa [place, matcherTokens] using (hopens _).trans ((hbrace _).trans hinside)

/-- The tokens of queries with the matchers of a group in one order and in another. -/
theorem exists_scan (hopens : q.Opens (stemOf n) ts) (hperm : ws.Perm ws') (hne : ws ≠ [])
    (hus : Token.scan .plain (maskFrom (stemOf n) 0 (q.text ws)) = some us) :
    ∃ commas behind, (commas = [] ∨ commas = [Token.comma]) ∧
      Token.scan .plain (maskFrom (stemOf n) (q.place ws) q.behind) = some behind ∧
      us = ts ++ .leftBrace :: ([.comma].intercalate (q.matcherTokens n ws) ++ commas ++
        .rightBrace :: behind) ∧
      Token.scan .plain (maskFrom (stemOf n) 0 (q.text ws')) =
        some (ts ++ .leftBrace :: ([.comma].intercalate (q.matcherTokens n ws') ++ commas ++
          .rightBrace :: behind)) := by
  obtain ⟨commas, hcommas, hlexes⟩ := exists_lexes hopens
  obtain ⟨behind, hbehind, rfl⟩ := Token.exists_scan_of_lexes hus (hlexes ws hne)
  have hne' : ws' ≠ [] := fun hnil => hne (List.perm_nil.mp (hnil ▸ hperm))
  have hscan' := (hlexes ws' hne').scan
  rw [← q.place_eq hperm, hbehind] at hscan'
  exact ⟨commas, behind, hcommas, hbehind, by simp, by simpa using hscan'⟩

/-! ### Reading -/

/-- The tokens of two orders of the matchers are the same but for the inside of braces, which is
read as the matchers with placeholders. -/
theorem exists_exchange (hopens : q.Opens (stemOf n) ts) (hperm : ws.Perm ws') (hne : ws ≠ [])
    (hfresh : ¬ stemOf n <:+: q.text ws)
    (hus : Token.scan .plain (maskFrom (stemOf n) 0 (q.text ws)) = some us)
    (hescapes : ∀ t ∈ us, ∀ c ∈ t.escapes, IsSeparator c) :
    ∃ (x : Grammar.Exchange) (as as' : List Matcher) (us' : List Token),
      x.oldMatchers = ⟨as, []⟩ ∧ x.newMatchers = ⟨as', []⟩ ∧
      List.Forall₂ (MatcherForms.IsForm n (variablesOf (q.text ws))) (ws.map matcher) as ∧
      List.Forall₂ (MatcherForms.IsForm n (variablesOf (q.text ws'))) (ws'.map matcher) as' ∧
      us = ts ++ .leftBrace :: (x.old ++ .rightBrace :: x.behind) ∧
      Token.scan .plain (maskFrom (stemOf n) (q.place ws) q.behind) = some x.behind ∧
      Token.scan .plain (maskFrom (stemOf n) 0 (q.text ws')) = some us' ∧ x.Around us us' := by
  obtain ⟨commas, behind, hcommas, hbehind, rfl, hus'⟩ := exists_scan hopens hperm hne hus
  have hgroup : ¬ stemOf n <:+: groupText ws := fun hin =>
    hfresh (hin.trans (q.infix_text ws).2.1)
  have hgroup' : ¬ stemOf n <:+: groupText ws' := fun hin =>
    hfresh ((q.stemOf_infix_text_iff hperm).mpr (hin.trans (q.infix_text ws').2.1))
  have hmatchers : ∀ w ∈ ws, ∀ t ∈ w.tokens, ∀ c ∈ t.escapes, IsSeparator c := by
    refine escapes_of_groupTokensFrom hgroup (q.groupText_prefix_drop ws)
      fun piece hpiece t ht => hescapes t ?_
    have hinside := mem_intercalate_of_mem [Token.comma] hpiece ht
    simp only [List.mem_append, List.mem_cons]
    exact .inr (.inr (.inl (.inl hinside)))
  obtain ⟨as, has, hread⟩ := exists_forms hgroup (q.groupText_prefix_drop ws) hmatchers
  obtain ⟨as', has', hread'⟩ := exists_forms hgroup' (q.groupText_prefix_drop ws') fun w hw =>
    hmatchers w (hperm.mem_iff.mpr hw)
  have hpieces : ∀ ws : List WrittenMatcher, ws ≠ [] → q.matcherTokens n ws ≠ [] := by
    intro ws hws
    obtain ⟨w, ws, rfl⟩ := List.exists_cons_of_ne_nil hws
    exact List.cons_ne_nil _ _
  have hne' : ws' ≠ [] := fun hnil => hne (List.perm_nil.mp (hnil ▸ hperm))
  let x : Grammar.Exchange := {
    old := [.comma].intercalate (q.matcherTokens n ws) ++ commas
    new := [.comma].intercalate (q.matcherTokens n ws') ++ commas
    behind := behind
    oldMatchers := ⟨as, []⟩
    newMatchers := ⟨as', []⟩
    old_closed := Grammar.rightBrace_not_mem hread hcommas
    new_closed := Grammar.rightBrace_not_mem hread' hcommas
    read_old := Grammar.matchersOf?_intercalate hread (hpieces ws hne) hcommas
    read_new := Grammar.matchersOf?_intercalate hread' (hpieces ws' hne') hcommas
    length_eq := by
      rw [List.length_append, List.length_append]
      exact congrArg (· + commas.length) (length_tokens_of_perm hperm _ _) }
  have haround : x.Around (.leftBrace :: (x.old ++ .rightBrace :: behind))
      (.leftBrace :: (x.new ++ .rightBrace :: behind)) := .here
  exact ⟨x, as, as', _, rfl, rfl, has, has', rfl, hbehind, hus',
    (haround.of_lexes (hopens []) rfl).1 LexMode.noConfusion⟩

end GroupQuery

end PromQL

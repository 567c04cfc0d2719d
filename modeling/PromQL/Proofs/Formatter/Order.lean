import Mathlib
import PromQL.Proofs.Expr.Order
import PromQL.Proofs.Formatter.Variables

/-!
# The order of matchers in formatted queries

Matchers are sorted while placeholders stand for their variables, and the numbers of placeholders
follow the order in which the variables appear. So a query is formatted alike for every order of the
matchers in a group if no two of them have their variables compared: their names, or else their
operators, or else their values have to differ before a variable starts in both of them. What is
written around the group has no variables of the group in it, since it has only those that stand
there in the query.
-/

namespace PromQL

open Placeholders

/-! ### Variables around a group -/

namespace Placeholders

/-- A text with placeholders gets its variables back where they are in their places. -/
theorem restored_maskFrom {n i : Nat} {vs : List Text} {text : Text} (hfresh : ¬ stemOf n <:+: text)
    (hdrop : variablesOf text <+: vs.drop i) (hcount : vs.length ≤ wordCount) :
    (Placeholders.mk (stemOf n) vs).restored (maskFrom (stemOf n) i text) = variablesOf text := by
  rw [restored, (Forms.of_maskFrom hfresh hdrop hdrop).unmask_eq hcount]

/-- The matchers of a group are written with the variables of their names and values. -/
theorem restored_written {m : Placeholders} {n : Nat} (hstem : m.stem = stemOf n)
    (group : List Matcher) :
    m.restored (Matchers.written group) = (group.map m.matcherRestored).sum := by
  have hclose : Spelled .braces [.rightBrace] ['}'] :=
    (Spells.nothing.sign (t := .rightBrace) rfl rfl fun _ => Token.reads_sign _ (by simp)) [] []
      trivial .nil
  have hspelled := Matchers.spells_written group [.rightBrace] ['}'] trivial hclose
  have hrestored := restored_of_spelled hstem hspelled
  rw [tokensRestored_append, tokensRestored_matcherGroup hstem, tokensRestored_cons,
    restored_of_isSign hstem rfl, tokensRestored_nil, restored_append_cons hstem (by decide),
    restored_nil] at hrestored
  simpa using hrestored

end Placeholders

namespace GroupQuery

open WrittenMatcher

variable {q : GroupQuery} {n : Nat} {ws ws' : List WrittenMatcher} {ts us : List Token}

/-- A name that is as long as all variables around the group together. -/
def longName (q : GroupQuery) : Text :=
  List.replicate (((variablesOf q.front ++ variablesOf q.behind).map List.length).sum + 1) 'x'

theorem length_le_longName {v : Text} (h : v ∈ variablesOf q.front ++ variablesOf q.behind) :
    v.length ≤ q.longName.length := by
  have hle : v.length ≤ ((variablesOf q.front ++ variablesOf q.behind).map List.length).sum :=
    List.le_sum_of_mem (List.mem_map_of_mem h)
  rw [longName, List.length_replicate]
  omega

/-- The variables of the query, with one of the long name in the place of each in the group. -/
def marked (q : GroupQuery) (ws : List WrittenMatcher) : List Text :=
  variablesOf q.front ++
    (List.replicate (variablesOf (groupText ws)).length ('$' :: q.longName) ++
      (variablesOf q.closing ++ variablesOf q.behind))

theorem length_marked (q : GroupQuery) (ws : List WrittenMatcher) :
    (q.marked ws).length = (variablesOf (q.text ws)).length := by
  simp [marked, variablesOf_text]

theorem drop_marked (q : GroupQuery) (ws : List WrittenMatcher) :
    (q.marked ws).drop (q.place ws) = variablesOf q.behind := by
  rw [marked, place, Nat.add_assoc, ← List.drop_drop, List.drop_left, ← List.drop_drop,
    List.drop_left' List.length_replicate, List.drop_left]

/-- Outside of the group, both orders of the matchers have the same variables in the same
places. -/
theorem marked_agrees (q : GroupQuery) (h : ws.Perm ws') (i : Nat) :
    (q.marked ws)[i]? = (variablesOf (q.text ws))[i]? ∧
        (q.marked ws)[i]? = (variablesOf (q.text ws'))[i]? ∨
      (q.marked ws)[i]? = some ('$' :: q.longName) := by
  have hlength := length_variablesOf_groupText h
  rw [marked, variablesOf_text, variablesOf_text]
  rcases Nat.lt_or_ge i (variablesOf q.front).length with hi | hi
  · simp only [List.getElem?_append_left hi, true_and, true_or]
  simp only [List.getElem?_append_right hi]
  generalize i - (variablesOf q.front).length = j
  rcases Nat.lt_or_ge j (variablesOf (groupText ws)).length with hj | hj
  · refine .inr ?_
    rw [List.getElem?_append_left (by rwa [List.length_replicate]), List.getElem?_replicate,
      if_pos hj]
  · refine .inl ?_
    have hj' : (variablesOf (groupText ws')).length ≤ j := hlength ▸ hj
    rw [List.getElem?_append_right (by rwa [List.length_replicate]), List.length_replicate,
      List.getElem?_append_right hj, List.getElem?_append_right hj', ← hlength]
    exact ⟨rfl, rfl⟩

/-- Text with placeholders, of which none stands for a variable in the group, gets the same
variables back in both orders of the matchers. -/
theorem unmask_eq_of_marked (h : ws.Perm ws') {text : Text}
    (htext : (Placeholders.mk (stemOf n) (q.marked ws)).restored text ≤
      (variablesOf q.front ++ variablesOf q.behind : List Text)) :
    (Placeholders.mk (stemOf n) (variablesOf (q.text ws))).unmask text =
      (Placeholders.mk (stemOf n) (variablesOf (q.text ws'))).unmask text := by
  have hagree : ∀ i : Nat, (q.marked ws)[i]? = (variablesOf (q.text ws))[i]? ∧
      (q.marked ws)[i]? = (variablesOf (q.text ws'))[i]? ∨ ∃ name : Text,
        (q.marked ws)[i]? = some ('$' :: name) ∧ q.longName.length ≤ name.length ∧ name ≠ [] ∧
          ∀ c ∈ name, isWordChar c := by
    refine fun i => (q.marked_agrees h i).imp_right fun hname => ⟨_, hname, Nat.le_refl _, ?_, ?_⟩
    · exact List.cons_ne_nil _ _
    · intro c hc
      rw [List.eq_of_mem_replicate hc]
      rfl
  refine unmask_congr hagree fun v hv => length_le_longName ?_
  exact Multiset.mem_coe.mp (Multiset.mem_of_le htext (Multiset.mem_coe.mpr hv))

/-- What is laid out around the matchers has variables that stand around the group in the query. -/
theorem restored_around_le {m : Placeholders} (hm : m = ⟨stemOf n, q.marked ws⟩)
    (hopens : q.Opens (stemOf n) ts) (hfresh : ¬ stemOf n <:+: q.text ws)
    (hcount : (variablesOf (q.text ws)).length ≤ wordCount) {inside behind : List Token}
    (hus : us = ts ++ .leftBrace :: (inside ++ .rightBrace :: behind))
    (hscan : Token.scan .plain (maskFrom (stemOf n) 0 (q.text ws)) = some us)
    (hbehind : Token.scan .plain (maskFrom (stemOf n) (q.place ws) q.behind) = some behind)
    (hescapes : ∀ t ∈ us, ∀ c ∈ t.escapes, IsSeparator c) {as : List Matcher}
    (hinside : Grammar.matchersOf? inside = some (some ⟨as, []⟩)) {e : Expr}
    (hread : Expr.ofText (maskFrom (stemOf n) 0 (q.text ws)) = .ok e) {indent : Nat}
    {front back : Text} {c : Char} (hc : IsSeparator c)
    (hformat : e.format indent =
      front ++ c :: (Matchers.written (Matcher.sort as) ++ '}' :: back)) :
    m.restored front + m.restored back ≤
      (variablesOf q.front ++ variablesOf q.behind : List Text) := by
  have hstem : m.stem = stemOf n := by rw [hm]
  obtain ⟨hfront, -, hback⟩ := q.infix_text ws
  have hplaces : (q.marked ws).length ≤ wordCount := by rwa [length_marked]
  -- in front of the group and behind it, the lexer finds no other variables
  have htokens : m.tokensRestored ts ≤ variablesOf q.front := by
    have hle := tokensRestored_le_of_lexes hstem (hopens [])
    rw [restored_append_cons hstem (by decide), restored_cons hstem (by decide), restored_nil,
      add_zero, add_zero, hm, restored_maskFrom (fun hin => hfresh (hin.trans hfront))
      (List.prefix_append _ _) hplaces] at hle
    rwa [hm]
  have hrest : m.tokensRestored behind ≤ variablesOf q.behind := by
    have hle := tokensRestored_le_of_lexes hstem (Token.lexes_of_scan hbehind)
    rw [restored_nil, add_zero, hm, restored_maskFrom (fun hin => hfresh (hin.trans hback))
      (by rw [drop_marked]) hplaces] at hle
    rwa [hm]
  have hmatchers : m.restored (Matchers.written (Matcher.sort as)) = m.tokensRestored inside := by
    have hall := Token.transparent_of_lexes hstem (Token.lexes_of_scan hscan) hescapes
    rw [restored_written hstem, Grammar.tokensRestored_of_matchersOf? hstem hinside fun t ht =>
      hall t (by simp [hus, ht]), ((Matcher.sort_perm as).map m.matcherRestored).sum_eq]
    simp [Matchers.flatten]
  have hwhole := Formatter.restored_format_tokens hstem indent hscan hread hescapes
  rw [hformat, hus, restored_append_cons hstem hc, restored_append_cons hstem (by decide),
    tokensRestored_append, tokensRestored_cons, tokensRestored_append, tokensRestored_cons,
    restored_of_isSign hstem rfl, restored_of_isSign hstem rfl, zero_add, zero_add, hmatchers,
    add_left_comm, add_left_comm (m.tokensRestored ts)] at hwhole
  rw [add_left_cancel hwhole, ← Multiset.coe_add]
  exact add_le_add htokens hrest

/-- Both orders of settled matchers are laid out as the same text, once the variables are put
back. -/
theorem unmask_format_eq (hperm : ws.Perm ws') (hne : ws ≠ []) (hopens : q.Opens (stemOf n) ts)
    (hfresh : ¬ stemOf n <:+: q.text ws) (hcount : (variablesOf (q.text ws)).length ≤ wordCount)
    (hscan : Token.scan .plain (maskFrom (stemOf n) 0 (q.text ws)) = some us)
    (hescapes : ∀ t ∈ us, ∀ c ∈ t.escapes, IsSeparator c)
    (hsettled : (ws.map matcher).Pairwise Matcher.Settled) {e e' : Expr}
    (hread : Expr.ofText (maskFrom (stemOf n) 0 (q.text ws)) = .ok e)
    (hread' : Expr.ofText (maskFrom (stemOf n) 0 (q.text ws')) = .ok e') (indent : Nat) :
    (Placeholders.mk (stemOf n) (variablesOf (q.text ws))).unmask (e.format indent) =
      (Placeholders.mk (stemOf n) (variablesOf (q.text ws'))).unmask (e'.format indent) := by
  obtain ⟨x, as, as', us', hold, hnew, has, has', hus, hbehind, hscan', haround⟩ :=
    exists_exchange hopens hperm hne hfresh hscan hescapes
  -- the expressions differ in the matchers of one selector
  obtain ⟨vs, hvs, hwhole, htyped⟩ := Expr.exists_tokens hread
  obtain ⟨vs', hvs', hwhole', htyped'⟩ := Expr.exists_tokens hread'
  obtain rfl : vs = us := Option.some.inj (hvs.symm.trans hscan)
  obtain rfl : vs' = us' := Option.some.inj (hvs'.symm.trans hscan')
  have hyields : x.Yields e e' := Grammar.Exchange.yields_of_whole haround hwhole hwhole'
  have hgroup : as ≠ [] := by
    rintro rfl
    exact hne (List.map_eq_nil_iff.mp (List.forall₂_nil_right_iff.mp has))
  have hgroup' : as' ≠ [] := by
    rintro rfl
    have hnil := List.map_eq_nil_iff.mp (List.forall₂_nil_right_iff.mp has')
    exact hne (List.perm_nil.mp (hnil ▸ hperm))
  obtain ⟨front, c, back, hc, hformat, hformat'⟩ :=
    Expr.exists_format_eq hold hnew hgroup hgroup' hyields htyped htyped' indent
  -- neither the text around the matchers nor their order depends on how they are numbered
  have hrestored := restored_around_le rfl hopens hfresh hcount hus hscan hbehind hescapes
    (hold ▸ x.read_old) hread hc hformat
  have hfront := unmask_eq_of_marked hperm ((Multiset.le_add_right _ _).trans hrestored)
  have hback := unmask_eq_of_marked hperm ((Multiset.le_add_left _ _).trans hrestored)
  have hcount' : (variablesOf (q.text ws')).length ≤ wordCount := by
    rwa [← length_marked, marked, ← length_variablesOf_groupText hperm, ← marked, length_marked]
  obtain ⟨ks, hks, hks'⟩ := MatcherForms.exists_sort (hperm.map matcher) has has' hcount hsettled
  have hmatchers := MatcherForms.unmask_written hks hks' hcount hcount'
  rw [hformat, hformat', unmask_append_cons rfl hc, unmask_append_cons rfl hc,
    unmask_append_cons rfl (by decide), unmask_append_cons rfl (by decide), hfront, hmatchers,
    hback]

end GroupQuery

/-! ### Formatting -/

namespace Formatter

open WrittenMatcher

variable {raw raw' : Text} {q : GroupQuery} {ws ws' : List WrittenMatcher} {ts : List Token}
  {e e' : Expr}

/-- A query with settled matchers is formatted alike whatever their order is, if it can be read in
both orders, and the escapes in its strings stand for separators. Repairing may change the query
around the matchers, and has to leave the matchers as they are. -/
theorem format_group_perm (f : Formatter) (hperm : ws.Perm ws')
    (hraw : Offset.repair raw = q.text ws) (hraw' : Offset.repair raw' = q.text ws')
    (hopens : q.Opens (freshStem (q.text ws)) ts)
    (hread : Expr.ofText (mask (Offset.repair raw)) = .ok e)
    (hread' : Expr.ofText (mask (Offset.repair raw')) = .ok e')
    (hcount : (variablesOf raw).length ≤ wordCount)
    (hescapes : ∀ us, maskedTokens? raw = some us → ∀ t ∈ us, ∀ c ∈ t.escapes, IsSeparator c)
    (hsettled : (ws.map matcher).Pairwise Matcher.Settled) :
    (f.format raw).result = (f.format raw').result := by
  have htext : f.textOf (Offset.repair raw) e = f.textOf (Offset.repair raw') e' := by
    by_cases hne : ws = []
    · subst hne
      obtain rfl := List.nil_perm.mp hperm
      rw [hraw, ← hraw'] at hread ⊢
      obtain rfl : e = e' := Except.ok.inj (hread.symm.trans hread')
      rfl
    · obtain ⟨n, hstem, hfresh⟩ := freshStem_spec (q.text ws)
      have hstem' := (q.freshStem_text hperm).symm.trans hstem
      have hlength := (Offset.variablesOf_repair_perm raw).length_eq
      obtain ⟨us, hscan, -, -⟩ := Expr.exists_tokens hread
      have hall := hescapes us hscan
      rw [hraw, mask_eq_maskFrom, hstem] at hread hscan
      rw [hraw', mask_eq_maskFrom, hstem'] at hread'
      rw [hraw] at hlength
      rw [textOf, textOf, hraw, hraw', Placeholders.ofText, Placeholders.ofText, hstem, hstem']
      exact GroupQuery.unmask_format_eq hperm hne (hstem ▸ hopens) hfresh (hlength ▸ hcount) hscan
        hall hsettled hread hread' f.options.indent
  simp only [format, hread, hread', htext]

/-! ### A settled group -/

/-- A matcher whose value stands between quotes, without blanks. -/
def quotedMatcher (name : Text) (op : MatchOp) (body value : Text)
    (hname : isBareLabel (mask name)) (hbody : Lexeme.bodySpan? '"' (body ++ ['"']) = some (body, []))
    (hvalue : unquote? '"' body = some value) : WrittenMatcher where
  parts := [.label name, .op op, .string '"' body]
  matcher := ⟨name, op, value⟩
  legal := by
    rintro p hp
    simp only [List.mem_cons, List.not_mem_nil, or_false] at hp
    rcases hp with rfl | rfl | rfl
    · exact hname
    · trivial
    · exact ⟨rfl, hbody⟩
  chain := by simp [MatcherPart.Precedes]
  read := by simp [MatcherPart.tokens, MatcherPart.token?, Grammar.matcherOf?, hvalue]

/-- A variable in a label, and several in values that differ in front of them, or in their
operators. -/
def settledMatchers : List WrittenMatcher :=
  [quotedMatcher "b".toList .regex "$y.*".toList "$y.*".toList rfl rfl rfl,
   quotedMatcher "a".toList .equal "$x\\n".toList "$x\n".toList rfl rfl rfl,
   quotedMatcher "b".toList .regex "p$x".toList "p$x".toList rfl rfl rfl,
   quotedMatcher "$z".toList .equal "1".toList "1".toList rfl rfl rfl,
   quotedMatcher "a".toList .notEqual "$w".toList "$w".toList rfl rfl rfl]

/-- A rate of the matchers, whose offset is misplaced in the query, and repaired. -/
def rateOf (behind : Text) : GroupQuery := ⟨"rate(m".toList, [], behind, .inl rfl⟩

theorem opens_rateOf (stem behind : Text) : (rateOf behind).Opens stem
    [.identifier "rate".toList, .leftParen, .identifier "m".toList] := by
  intro rest
  have hname : Lexes .plain ('r' :: "ate(m\x7b".toList ++ rest) [.identifier "rate".toList] .plain
      ('(' :: 'm' :: '{' :: rest) :=
    .of_step (.token (l := ⟨_, _, _⟩) (by decide) (by decide) rfl)
  have hparen : Lexes .plain ('(' :: 'm' :: '{' :: rest) [.leftParen] .plain ('m' :: '{' :: rest) :=
    .of_step (.token (l := ⟨_, _, _⟩) (by decide) (by decide) rfl)
  have hmetric : Lexes .plain ('m' :: '{' :: rest) [.identifier "m".toList] .plain ('{' :: rest) :=
    .of_step (.token (l := ⟨_, _, _⟩) (by decide) (by decide) rfl)
  have hdollar : '$' ∉ "rate(m".toList := by decide
  have hfront : maskFrom stem 0 (rateOf behind).front = "rate(m".toList :=
    maskFrom_of_not_mem hdollar stem 0
  rw [hfront]
  exact hname.trans (hparen.trans hmetric)

theorem exists_eq_ok {ε α : Type} {x : Except ε α} (h : x.isOk) : ∃ a, x = .ok a := by
  cases x with
  | error => cases h
  | ok a => exact ⟨a, rfl⟩

/-- The rate as it is formatted. -/
def formattedRate : Text :=
  "rate(m\x7b$z=\"1\",a=\"$x\\n\",a!=\"$w\",b=~\"$y.*\",b=~\"p$x\"\x7d[5m] offset 1d)".toList

/-- The query, with its offset behind the rate. -/
def misplacedRate (ws : List WrittenMatcher) : Text := (rateOf "[5m]) offset 1d".toList).text ws

theorem format_misplacedRate_reverse :
    ((ofOptions .default).format (misplacedRate settledMatchers)).result = .ok formattedRate ∧
      ((ofOptions .default).format (misplacedRate settledMatchers.reverse)).result =
        .ok formattedRate := by
  have hout : ((ofOptions .default).format (misplacedRate settledMatchers)).result =
      .ok formattedRate := by decide +kernel
  have hraw : Offset.repair (misplacedRate settledMatchers) =
      (rateOf "[5m] offset 1d)".toList).text settledMatchers := by decide +kernel
  have hraw' : Offset.repair (misplacedRate settledMatchers.reverse) =
      (rateOf "[5m] offset 1d)".toList).text settledMatchers.reverse := by decide +kernel
  have hok : (Expr.ofText (mask (Offset.repair (misplacedRate settledMatchers)))).isOk := by
    decide +kernel
  have hok' : (Expr.ofText (mask (Offset.repair (misplacedRate settledMatchers.reverse)))).isOk := by
    decide +kernel
  have hall : ((maskedTokens? (misplacedRate settledMatchers)).all fun ts =>
      (ts.flatMap Token.escapes).all fun c => IsSeparator c) := by
    decide +kernel
  obtain ⟨e, hread⟩ := exists_eq_ok hok
  obtain ⟨e', hread'⟩ := exists_eq_ok hok'
  have hsame := format_group_perm (ofOptions .default) (List.reverse_perm settledMatchers).symm hraw
    hraw' (opens_rateOf _ _) hread hread' (by decide +kernel) (isSeparator_of_all hall)
    (by decide +kernel)
  exact ⟨hout, hsame.symm.trans hout⟩

/-! ### A group that is not settled -/

/-- Two matchers of which only the variables differ. -/
def comparedMatchers : List WrittenMatcher :=
  [quotedMatcher "a".toList .equal "$x".toList "$x".toList rfl rfl rfl,
   quotedMatcher "a".toList .equal "$y".toList "$y".toList rfl rfl rfl]

/-- A metric with the given matchers. -/
def metricOf (ws : List WrittenMatcher) : Text := (GroupQuery.mk ['m'] [] [] (.inl rfl)).text ws

/-- Both orders of the two matchers can be read, and both stay as they are. -/
theorem format_metricOf_comparedMatchers :
    comparedMatchers.Perm comparedMatchers.reverse ∧
      (Expr.ofText (mask (Offset.repair (metricOf comparedMatchers)))).isOk ∧
      (Expr.ofText (mask (Offset.repair (metricOf comparedMatchers.reverse)))).isOk ∧
      ((ofOptions .default).format (metricOf comparedMatchers)).result =
        .ok "m\x7ba=\"$x\",a=\"$y\"\x7d".toList ∧
      ((ofOptions .default).format (metricOf comparedMatchers.reverse)).result =
        .ok "m\x7ba=\"$y\",a=\"$x\"\x7d".toList := by
  refine ⟨(List.reverse_perm comparedMatchers).symm, ?_, ?_, ?_, ?_⟩
  · decide +kernel
  · decide +kernel
  · decide +kernel
  · decide +kernel

end Formatter

end PromQL

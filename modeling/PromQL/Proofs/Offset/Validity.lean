import Mathlib
import PromQL.Proofs.Expr.Equality
import PromQL.Proofs.Expr.Placement
import PromQL.Proofs.Offset.Trailing
import PromQL.Proofs.Offset.Variables
import PromQL.Proofs.Token.Places

/-!
# Offsets that are in place

The repair looks for an offset behind a parenthesis in the text of a query. In the tokens of a query
there is none, as `Grammar.not_misplaced_of_whole` says, so what the repair finds must stand in a
string or a comment. A query in which no closing parenthesis of a string or a comment stands in
front of a blank is left as it is.
-/

namespace PromQL

/-! ### Misplaced offsets in texts -/

namespace Offset

/-- The word of an offset clause at the start of a text, with blanks around it. -/
inductive Ahead : Text → Prop where
  | intro {before rest : Text} {c : Char} (hbefore : IsBlanks before) (hc : isBlank c) :
      Ahead (before ++ ("offset".toList ++ c :: rest))

/-- An offset in a text behind a parenthesis that closes more than labels, or behind the labels of a
grouping clause that stands behind a parenthesis. -/
inductive Misplaced : Text → Prop where
  | closed {c : Char} {rest : Text} (hc : Lexeme.IsCloser c) (h : Ahead rest) :
      Misplaced (c :: ')' :: rest)
  | grouped {before word between labels rest : Text} (hbefore : IsBlanks before)
      (hword : word = "by".toList ∨ word = "without".toList) (hbetween : IsBlanks between)
      (hlabels : ')' ∉ labels) (h : Ahead rest) :
      Misplaced (')' :: (before ++ (word ++ (between ++ '(' :: (labels ++ ')' :: rest)))))

theorem ahead_of_formed {o : OffsetClause} (ho : o.Formed) (rest : Text) :
    Ahead (o.source ++ rest) := by
  obtain ⟨c, cs, hbetween⟩ := List.exists_cons_of_ne_nil ho.between.1
  have hc : isBlank c := ho.between.2 c (by simp [hbetween])
  have hsource : o.source ++ rest =
      o.before ++ ("offset".toList ++ c :: (cs ++ (o.duration ++ rest))) := by
    simp [OffsetClause.source, hbetween]
  rw [hsource]
  exact .intro ho.before hc

theorem misplaced_of_formed {g : GroupingClause} {o : OffsetClause} (hg : g.Formed) (ho : o.Formed)
    (rest : Text) : Misplaced (')' :: (g.source ++ (o.source ++ rest))) := by
  have hsource : g.source ++ (o.source ++ rest) = g.before ++ (g.word ++ (g.between ++
      '(' :: (g.labels ++ ')' :: (o.source ++ rest)))) := by
    simp [GroupingClause.source]
  rw [hsource]
  exact .grouped hg.before hg.word hg.between hg.labels (ahead_of_formed ho rest)

/-- What closes a range ends in a parenthesis, behind a bracket or another parenthesis. -/
theorem exists_closer {range closing : Text} (hrange : IsRange range)
    (hclosing : IsClosing closing) :
    ∃ front c, Lexeme.IsCloser c ∧ range ++ closing = front ++ [c, ')'] := by
  obtain ⟨inner, -, -, rfl⟩ := hrange
  obtain ⟨hne, hall⟩ := hclosing
  rcases List.eq_nil_or_concat' closing with rfl | ⟨parens, d, rfl⟩
  · exact absurd rfl hne
  · have hd : d = ')' := hall d (by simp)
    subst hd
    rcases List.eq_nil_or_concat' parens with rfl | ⟨front, c, rfl⟩
    · exact ⟨'[' :: inner, ']', .inl rfl, by simp⟩
    · exact ⟨'[' :: inner ++ [']'] ++ front, c, .inr (hall c (by simp)), by simp⟩

end Offset

open Offset (Ahead Misplaced)

/-- What the first pass finds is misplaced. -/
theorem GroupedOffset.misplaced_of_read? {text : Text} {g : GroupedOffset}
    (h : read? text = some g) : ∃ s, s <:+ text ∧ Misplaced s := by
  obtain ⟨hformed, rest, rfl, -⟩ := formed_of_read? h
  refine ⟨')' :: (g.grouping.source ++ (g.offset.source ++ rest)),
    ⟨g.op ++ '(' :: g.argument ++ g.blanks ++ g.closing, by simp [source]⟩, ?_⟩
  exact Offset.misplaced_of_formed hformed.grouping hformed.offset rest

/-- What the second pass finds is misplaced. -/
theorem ClosedOffset.misplaced_of_read? {text : Text} {c : ClosedOffset}
    (h : read? text = some c) : ∃ s, s <:+ text ∧ Misplaced s := by
  obtain ⟨hformed, rest, rfl, -⟩ := formed_of_read? h
  obtain ⟨front, d, hd, hfront⟩ := Offset.exists_closer hformed.range hformed.closing
  cases hgrouping : c.grouping with
  | none =>
    refine ⟨d :: ')' :: (c.offset.source ++ rest), ⟨c.lead ++ front, ?_⟩,
      .closed hd (Offset.ahead_of_formed hformed.offset rest)⟩
    rw [source, groupingSource, hgrouping, List.append_assoc c.lead c.range, hfront]
    simp
  | some g =>
    refine ⟨')' :: (g.source ++ (c.offset.source ++ rest)), ⟨c.lead ++ front ++ [d], ?_⟩,
      Offset.misplaced_of_formed (hformed.grouping g hgrouping) hformed.offset rest⟩
    rw [source, groupingSource, hgrouping, List.append_assoc c.lead c.range, hfront]
    simp

/-- A text with nothing misplaced in it is not repaired. -/
theorem Offset.repair_of_not_misplaced {text : Text} (h : ∀ s, s <:+ text → ¬ Misplaced s) :
    repair text = text :=
  repair_of_not_suffix (fun _ _ => GroupedOffset.misplaced_of_read?)
    (fun _ _ => ClosedOffset.misplaced_of_read?) h

/-! ### Misplaced offsets in masked texts -/

namespace Placeholders

variable {n : Nat} {text : Text}

theorem isSeparator_of_isCloser {c : Char} (h : Lexeme.IsCloser c) : IsSeparator c := by
  rcases h with rfl | rfl <;> exact ⟨by decide, by decide⟩

theorem ahead_maskFrom (h : Ahead text) (stem : Text) (index : Nat) :
    Ahead (maskFrom stem index text) := by
  have hoffset : '$' ∉ "offset".toList := by decide
  cases h with
  | intro hbefore hc =>
    rw [maskFrom_append hbefore.isSeparator,
      maskFrom_append_cons_of_not_mem hoffset (.of_isBlank hc)]
    exact .intro hbefore hc

theorem misplaced_maskFrom (h : Misplaced text) (index : Nat) :
    Misplaced (maskFrom (stemOf n) index text) := by
  have hcons : ∀ {c : Char} (_ : IsSeparator c) (index : Nat) (rest : Text),
      maskFrom (stemOf n) index (c :: rest) = c :: maskFrom (stemOf n) index rest :=
    fun hc index rest => maskFrom_append_cons hc (stemOf n) index [] rest
  cases h with
  | closed hc hahead =>
    rw [hcons (isSeparator_of_isCloser hc), hcons isSeparator_paren]
    exact .closed hc (ahead_maskFrom hahead _ _)
  | @grouped before word between labels rest hbefore hword hbetween hlabels hahead =>
    obtain ⟨c, cs, rfl⟩ := List.exists_cons_of_ne_nil hbetween.1
    have hblanks := hbetween.isSeparator
    have hdollar : '$' ∉ word := by
      rcases hword with rfl | rfl <;> decide
    have hopen : IsSeparator '(' := ⟨by decide, by decide⟩
    rw [hcons isSeparator_paren, maskFrom_append hbefore.isSeparator, List.cons_append,
      maskFrom_append_cons_of_not_mem hdollar (hblanks c List.mem_cons_self),
      maskFrom_append fun d hd => hblanks d (List.mem_cons_of_mem c hd), hcons hopen,
      maskFrom_append_cons isSeparator_paren, ← List.cons_append]
    refine .grouped hbefore hword hbetween (fun hmem => ?_)
      (ahead_maskFrom hahead _ _)
    rcases mem_or_of_mem_maskFrom hmem with hmem | hchar
    · exact hlabels hmem
    · exact isSeparator_paren.1 hchar

/-- What is misplaced in a text is misplaced in the masked text. -/
theorem exists_misplaced_mask {text s : Text} (hs : s <:+ text) (h : Misplaced s) :
    ∃ s', s' <:+ mask text ∧ Misplaced s' := by
  obtain ⟨front, rfl⟩ := hs
  obtain ⟨n, hstem, -⟩ := freshStem_spec (front ++ s)
  rw [mask_eq_maskFrom, hstem]
  have hsuffix : ∀ {c : Char} (_ : IsSeparator c) (rest : Text), ∃ index,
      maskFrom (stemOf n) index (c :: rest) <:+ maskFrom (stemOf n) 0 (front ++ c :: rest) := by
    intro c hc rest
    refine ⟨0 + (variablesOf front).length, maskFrom (stemOf n) 0 front, ?_⟩
    rw [maskFrom_append_cons hc]
    exact congrArg _ (maskFrom_append_cons hc (stemOf n) _ [] rest)
  have hhead : ∃ c rest, IsSeparator c ∧ s = c :: rest := by
    cases h with
    | closed hc => exact ⟨_, _, isSeparator_of_isCloser hc, rfl⟩
    | grouped => exact ⟨_, _, isSeparator_of_isCloser (.inr rfl), rfl⟩
  obtain ⟨c, rest, hc, rfl⟩ := hhead
  obtain ⟨index, hindex⟩ := hsuffix hc rest
  exact ⟨_, hindex, misplaced_maskFrom h index⟩

end Placeholders

/-! ### Misplaced offsets among tokens -/

/-- Whether a text starts with a closing parenthesis in front of a blank. -/
def isLoose : Text → Bool
  | ')' :: c :: _ => isBlank c
  | _ => false

/-- Every closing parenthesis in front of a blank is a token of the text. -/
def LooseAreTokens (text : Text) : Prop := ∀ s ∈ text.tails, isLoose s → s ∈ Token.places text

instance instDecidableLooseAreTokens (text : Text) : Decidable (LooseAreTokens text) :=
  List.decidableBAll _ _

namespace Token

variable {text rest before : Text} {ts : List Token}

theorem not_isBlank_of_isSign {t : Token} (h : t.isSign) {c : Char} (hc : c ∈ t.spelling.head?) :
    ¬ isBlank c := by
  cases t
  case operator op => cases op <;> cases hc <;> decide
  case matchOp op => cases op <;> cases hc <;> decide
  all_goals first | cases h; done | cases hc; decide

/-- No blank starts a token. -/
theorem not_isBlank_of_read? {c : Char} {cs : Text} {l : Lexeme}
    (h : Lexeme.read? .plain (c :: cs) = some l) : ¬ isBlank c := by
  intro hblank
  have hword := (IsSeparator.of_isBlank hblank).1
  have hnot : ∀ d, ¬ isBlank d → c ≠ d := fun d hd hcd => hd (hcd ▸ hblank)
  rcases Lexeme.plain?_cases h with ⟨hsign, -⟩ | ⟨hc, -⟩ | ⟨hc, -⟩ | ⟨hmark, -⟩
  · have happend := Lexeme.plain?_append h
    cases hspelling : l.token.spelling with
    | nil =>
      have hlength := Lexeme.length_read? h
      rw [hspelling] at happend
      rw [← happend] at hlength
      exact Nat.lt_irrefl _ hlength
    | cons d ds =>
      rw [hspelling] at happend
      obtain ⟨rfl, -⟩ := List.cons.inj happend
      exact not_isBlank_of_isSign hsign (by rw [hspelling]; rfl) hblank
  · rcases hc with hdigit | hpoint
    · exact hword (isWordChar_of_isDigit hdigit)
    · exact hnot '.' (by decide) hpoint
  · rcases hc with hstart | hcolon
    · exact hword (isWordChar_of_isWordStart hstart)
    · exact hnot ':' (by decide) hcolon
  · simp only [Lexeme.isMark, Bool.or_eq_true, beq_iff_eq] at hmark
    rcases hmark with (hmark | hmark) | hmark
    · exact hnot '"' (by decide) hmark
    · exact hnot '\x27' (by decide) hmark
    · exact hnot backtick (by decide) hmark

/-- The lexer passes over blanks, if it goes on at all. -/
theorem lexes_blanks (hbefore : ∀ c ∈ before, isBlank c)
    (h : scan .plain (before ++ rest) = some ts) :
    Lexes .plain (before ++ rest) [] .plain rest := by
  induction before with
  | nil => exact .refl
  | cons c cs ih =>
    obtain ⟨hc, hcs⟩ := List.forall_mem_cons.mp hbefore
    by_cases hspace : Lexeme.isSpace c
    · rw [List.cons_append, scan_space hspace] at h
      exact .step (.space hspace) (ih hcs h)
    · have hcomment : c ≠ '#' := by
        rintro rfl
        exact absurd hc (by decide)
      cases hread : Lexeme.read? .plain (c :: (cs ++ rest)) with
      | none =>
        rw [List.cons_append, scan_eq_none hspace hcomment hread] at h
        cases h
      | some l => exact absurd hc (not_isBlank_of_read? hread)

/-- A name in front of a blank is read as the word that it is. -/
theorem lexes_word {w : Text} {c : Char} (hw : isBareMetric w) (hc : isBlank c) :
    Lexes .plain (w ++ c :: rest) [Lexeme.ofWord w] .plain (c :: rest) := by
  have hend : IsBoundary (c :: rest) := by
    rintro d ⟨⟩
    refine ⟨(IsSeparator.of_isBlank hc).1, ?_, ?_⟩
    · rintro rfl
      exact absurd hc (by decide)
    · rintro rfl
      exact absurd hc (by decide)
  have hne : (Lexeme.ofWord w).spelling ≠ [] := by
    rw [Lexeme.spelling_ofWord]
    rintro rfl
    cases hw
  have hstep := LexStep.of_reads hne (Lexeme.reads_ofWord hw hend)
  rw [Lexeme.spelling_ofWord, Lexeme.after_ofWord] at hstep
  exact .of_step hstep

/-- Blanks, and a name between them. -/
theorem lexes_blanks_word {w : Text} {c : Char} (hbefore : ∀ c ∈ before, isBlank c)
    (hw : isBareMetric w) (hc : isBlank c)
    (h : scan .plain (before ++ (w ++ c :: rest)) = some ts) :
    Lexes .plain (before ++ (w ++ c :: rest)) [Lexeme.ofWord w] .plain (c :: rest) :=
  (lexes_blanks hbefore h).trans (lexes_word hw hc)

theorem exists_scan_ahead (hahead : Ahead text) (h : scan .plain text = some ts) :
    ∃ us, ts = .keyword .offset "offset".toList :: us := by
  cases hahead with
  | intro hbefore hc =>
    have hword : Lexeme.ofWord "offset".toList = .keyword .offset "offset".toList := rfl
    obtain ⟨us, -, rfl⟩ :=
      exists_scan_of_lexes h (lexes_blanks_word hbefore.2 rfl hc h)
    exact ⟨us, by rw [hword]; rfl⟩

/-- A closing parenthesis in front of blanks is a token of the text, and what is behind it is
scanned. -/
theorem lexes_of_loose (hscan : scan .plain text = some ts) (hloose : LooseAreTokens text)
    (hbefore : IsBlanks before) (hs : ')' :: (before ++ rest) <:+ text) :
    ∃ us, Lexes .plain text us .plain (')' :: (before ++ rest)) := by
  obtain ⟨c, cs, rfl⟩ := List.exists_cons_of_ne_nil hbefore.1
  have hplace := hloose _ ((List.mem_tails _ _).mpr hs) (hbefore.2 c List.mem_cons_self)
  obtain ⟨us, mode, hlexes⟩ := exists_lexes_of_mem_places hplace
  rw [hlexes.scan] at hscan
  obtain ⟨ws, hws, rfl⟩ := Option.map_eq_some_iff.mp hscan
  obtain ⟨rfl, -⟩ := scan_rightParen hws
  exact ⟨us, hlexes⟩

/-- An offset behind a closing parenthesis is one among the tokens. -/
theorem lexes_of_ahead (hscan : scan .plain text = some ts) (hloose : LooseAreTokens text)
    (hahead : Ahead rest) (hs : ')' :: rest <:+ text) :
    (∃ us, Lexes .plain text us .plain (')' :: rest)) ∧
      ∃ vs, scan .plain (')' :: rest) =
        some (.rightParen :: .keyword .offset "offset".toList :: vs) := by
  obtain ⟨us, hlexes⟩ : ∃ us, Lexes .plain text us .plain (')' :: rest) := by
    cases hahead with
    | intro hbefore => exact lexes_of_loose hscan hloose hbefore hs
  obtain ⟨ws, hws, -⟩ := exists_scan_of_lexes hscan hlexes
  obtain ⟨-, vs, rfl, hvs⟩ := scan_rightParen hws
  obtain ⟨vs, rfl⟩ := exists_scan_ahead hahead hvs
  exact ⟨⟨us, hlexes⟩, vs, hws⟩

/-- The front of a grouping clause behind a closing parenthesis, as tokens. -/
theorem lexes_grouping {word between : Text} (hbefore : IsBlanks before)
    (hword : word = "by".toList ∨ word = "without".toList) (hbetween : IsBlanks between)
    (hscan : scan .plain (')' :: (before ++ (word ++ (between ++ '(' :: rest)))) = some ts) :
    ∃ allBut, Lexes .plain (')' :: (before ++ (word ++ (between ++ '(' :: rest))))
      [.rightParen, .keyword (.grouping allBut) word, .leftParen] .plain rest := by
  obtain ⟨c, cs, rfl⟩ := List.exists_cons_of_ne_nil hbetween.1
  have hc : isBlank c := hbetween.2 c List.mem_cons_self
  have hclose := lexes_sign (c := ')') (t := .rightParen) rfl
    (reads_sign (before ++ (word ++ (c :: cs ++ '(' :: rest))) (.inl ⟨rfl, by simp⟩))
  have hopen := lexes_sign (c := '(') (t := .leftParen) rfl
    (reads_sign rest (.inl ⟨rfl, by simp⟩))
  obtain ⟨allBut, hkeyword, hbare⟩ : ∃ allBut,
      Lexeme.ofWord word = .keyword (.grouping allBut) word ∧ isBareMetric word := by
    rcases hword with rfl | rfl
    · exact ⟨false, rfl, rfl⟩
    · exact ⟨true, rfl, rfl⟩
  obtain ⟨ts₁, hscan₁, -⟩ := exists_scan_of_lexes hscan hclose
  have hfront := lexes_blanks_word hbefore.2 hbare hc hscan₁
  obtain ⟨ts₂, hscan₂, -⟩ := exists_scan_of_lexes hscan₁ hfront
  have hblanks := lexes_blanks hbetween.2 hscan₂
  have hall := hclose.trans (hfront.trans (hblanks.trans hopen))
  rw [hkeyword] at hall
  exact ⟨allBut, hall⟩

/-- What is misplaced in a text is misplaced among its tokens, if every closing parenthesis in front
of a blank is a token. -/
theorem exists_misplaced {s : Text} (hscan : scan .plain text = some ts)
    (hloose : LooseAreTokens text) (hs : s <:+ text) (h : Offset.Misplaced s) :
    ∃ us, us <:+ ts ∧ Misplaced us := by
  cases h with
  | @closed c rest hc hahead =>
    obtain ⟨⟨us, hlexes⟩, vs, hvs⟩ :=
      lexes_of_ahead hscan hloose hahead (List.IsSuffix.trans ⟨[c], rfl⟩ hs)
    obtain ⟨ws, hws, rfl⟩ := exists_scan_of_lexes hscan hlexes
    cases hvs.symm.trans hws
    obtain ⟨front, rfl⟩ := hs
    obtain ⟨us, u, rfl, hu⟩ := hlexes.exists_closes hc rfl rfl
    exact ⟨_, ⟨us, List.append_cons us u _⟩, .closed hu⟩
  | @grouped before word between labels rest hbefore hword hbetween hlabels hahead =>
    obtain ⟨us, hlexes⟩ := lexes_of_loose hscan hloose hbefore hs
    have hparen : ')' :: rest <:+ text := by
      refine List.IsSuffix.trans ⟨')' :: (before ++ (word ++ (between ++ '(' :: labels))), ?_⟩ hs
      simp
    obtain ⟨⟨us', hlexes'⟩, vs, hvs⟩ := lexes_of_ahead hscan hloose hahead hparen
    obtain ⟨ws, hws, rfl⟩ := exists_scan_of_lexes hscan hlexes
    obtain ⟨allBut, hgrouping⟩ := lexes_grouping hbefore hword hbetween hws
    obtain ⟨inside, hinside⟩ := (hlexes.trans hgrouping).between hlexes' (by simp)
    obtain ⟨zs, hzs, rfl⟩ := exists_scan_of_lexes hws (hgrouping.trans hinside)
    cases hvs.symm.trans hzs
    have hgrouped : Misplaced (.rightParen :: .keyword (.grouping allBut) word :: .leftParen ::
        (inside ++ .rightParen :: .keyword .offset "offset".toList :: vs)) :=
      .grouped (hinside.rightParen_not_mem rfl hlabels)
    exact ⟨_, ⟨us, rfl⟩, hgrouped⟩

end Token

namespace Offset

/-- A query that is valid as it stands is not repaired, if every closing parenthesis in front of a
blank is a token of it: none of them stands in a string or in a comment. -/
theorem repair_eq_self {query : Text} {e : Expr}
    (hread : Expr.ofText (Placeholders.mask query) = .ok e)
    (hloose : LooseAreTokens (Placeholders.mask query)) : repair query = query := by
  refine repair_of_not_misplaced fun s hs hmisplaced => ?_
  obtain ⟨ts, hscan, hwhole, -⟩ := Expr.exists_tokens hread
  obtain ⟨s', hs', hmisplaced'⟩ := Placeholders.exists_misplaced_mask hs hmisplaced
  obtain ⟨us, hus, hmis⟩ := Token.exists_misplaced hscan hloose hs' hmisplaced'
  exact Grammar.not_misplaced_of_whole hwhole hus hmis

/-- A query with offsets that are in place, a variable, and parentheses in a string. -/
def ratioQuery : Text :=
  "sum(rate(m\x7ba=~\"(b|c)\"\x7d[5m] offset 1d)) by (x) / on (x) $total offset 1h".toList

/-- The quotient that it stands for, with a placeholder for the variable. -/
def ratioExpr : Expr :=
  .binary .div ⟨false, some (.only ["x".toList]), none⟩
    (.aggregate .sum (some (.only ["x".toList])) none
      (.call "rate".toList
        [.matrix ⟨some "m".toList, ⟨[⟨"a".toList, .regex, "(b|c)".toList⟩], []⟩,
          none, some ⟨false, ⟨86400000000000⟩⟩⟩ ⟨300000000000⟩]))
    (.vector ⟨some "VAR0".toList, .empty, none, some ⟨false, ⟨3600000000000⟩⟩⟩)

theorem repair_ratioQuery : Expr.ofText (Placeholders.mask ratioQuery) = .ok ratioExpr ∧
    LooseAreTokens (Placeholders.mask ratioQuery) ∧ repair ratioQuery = ratioQuery := by
  have hread : Expr.ofText (Placeholders.mask ratioQuery) = .ok ratioExpr := by decide +kernel
  have hloose : LooseAreTokens (Placeholders.mask ratioQuery) := by decide +kernel
  exact ⟨hread, hloose, repair_eq_self hread hloose⟩

/-- A query with a string in which a range is closed by a parenthesis and followed by an offset. -/
def rangeInString : Text := "m\x7ba=\"x[5m]) offset 1d\"\x7d".toList

/-- The selector that it stands for. -/
def rangeInStringExpr : Expr :=
  .vector ⟨some "m".toList, ⟨[⟨"a".toList, .equal, "x[5m]) offset 1d".toList⟩], []⟩, none, none⟩

/-- The repair changes the string, although the query is valid as it stands. -/
theorem repair_rangeInString_ne :
    Expr.ofText (Placeholders.mask rangeInString) = .ok rangeInStringExpr ∧
      repair rangeInString = "m\x7ba=\"x[5m] offset 1d)\"\x7d".toList ∧
      repair rangeInString ≠ rangeInString := by
  refine ⟨?_, ?_, ?_⟩ <;> decide +kernel

end Offset

end PromQL

import Mathlib
import PromQL.Proofs.Expr.Derivation
import PromQL.Proofs.Expr.Soundness
import PromQL.Proofs.Expr.Sums

/-!
# Where an offset may stand

An offset belongs to a selector or subquery. Behind a parenthesis that closes arguments, or an
expression, the grammar has no place for one, and neither has it behind the grouping clause of an
aggregation. So no query has its tokens in this order: every rule keeps away from it, as long as
what is behind its tokens does.
-/

namespace PromQL

/-! ### Misplaced offsets -/

/-- An offset behind a parenthesis that closes more than labels, or behind the labels of a grouping
clause that stands behind a parenthesis. -/
inductive Token.Misplaced : List Token → Prop where
  | closed {t : Token} {word : Text} {ts : List Token} (h : t = .rightBracket ∨ t = .rightParen) :
      Misplaced (t :: .rightParen :: .keyword .offset word :: ts)
  | grouped {allBut : Bool} {word word' : Text} {labels ts : List Token}
      (h : .rightParen ∉ labels) :
      Misplaced (.rightParen :: .keyword (.grouping allBut) word :: .leftParen ::
        (labels ++ .rightParen :: .keyword .offset word' :: ts))

namespace Grammar

open Token (Misplaced)

/-- No misplaced offset starts with a parenthesis in front of the tokens. -/
def Calm (rest : List Token) : Prop := ¬ Misplaced (.rightParen :: rest)

/-- The tokens are calm, and do not start with a parenthesis. -/
def Open (rest : List Token) : Prop := Calm rest ∧ rest.head? ≠ some .leftParen

/-- The tokens do not start with an offset. -/
def NoOffset (rest : List Token) : Prop := ∀ word us, rest ≠ .keyword .offset word :: us

/-- Some tokens are taken away in front of others, and no misplaced offset starts at any of them. -/
structure Clear (ts rest : List Token) : Prop where
  suffix : rest <:+ ts
  clear : ∀ s, s <:+ ts → rest.length < s.length → ¬ Misplaced s

/-- Whether a token closes neither a bracket nor a parenthesis. -/
def isInside : Token → Bool
  | .rightBracket | .rightParen => false
  | _ => true

variable {t : Token} {ts us vs rest taken : List Token} {e : Expr}

theorem calm_of_head (hparen : t ≠ .rightParen) (hgrouping : ∀ b w, t ≠ .keyword (.grouping b) w) :
    Calm (t :: ts) := by
  intro h
  cases h
  · exact hparen rfl
  · exact hgrouping _ _ rfl

theorem open_of_head (hparen : t ≠ .rightParen) (hgrouping : ∀ b w, t ≠ .keyword (.grouping b) w)
    (hopen : t ≠ .leftParen) : Open (t :: ts) :=
  ⟨calm_of_head hparen hgrouping, fun h => hopen (Option.some.inj h)⟩

theorem open_nil : Open [] := ⟨nofun, nofun⟩

/-- A parenthesis in front of tokens that do not start with an offset. -/
theorem open_close (h : NoOffset ts) : Open (.rightParen :: ts) := by
  refine ⟨?_, by simp⟩
  intro hmisplaced
  cases hmisplaced
  exact h _ _ rfl

namespace Clear

theorem refl (ts : List Token) : Clear ts ts :=
  ⟨List.suffix_rfl, fun _ hs hlength => absurd hs.length_le (Nat.not_le_of_lt hlength)⟩

theorem trans (h : Clear ts us) (h' : Clear us vs) : Clear ts vs := by
  refine ⟨h'.suffix.trans h.suffix, fun s hs hlength => ?_⟩
  rcases Nat.lt_or_ge us.length s.length with hlong | hshort
  · exact h.clear s hs hlong
  · exact h'.clear s (List.suffix_of_suffix_length_le hs h.suffix hshort) hlength

theorem cons_of (h : ¬ Misplaced (t :: ts)) : Clear (t :: ts) ts := by
  refine ⟨List.suffix_cons t ts, fun s hs hlength => ?_⟩
  rcases List.suffix_cons_iff.mp hs with rfl | hs
  · exact h
  · exact absurd hs.length_le (Nat.not_le_of_lt hlength)

theorem cons (h : isInside t) : Clear (t :: ts) ts := by
  refine cons_of fun hmisplaced => ?_
  cases hmisplaced with
  | closed ht => rcases ht with rfl | rfl <;> cases h
  | grouped => cases h

theorem close (h : Calm ts) : Clear (.rightParen :: ts) ts := cons_of h

theorem closeBracket (h : Calm ts) : Clear (.rightBracket :: ts) ts := by
  refine cons_of fun hmisplaced => ?_
  cases hmisplaced
  exact h (.closed (.inr rfl))

theorem append (h : ∀ t ∈ taken, isInside t) : Clear (taken ++ rest) rest := by
  induction taken with
  | nil => exact refl rest
  | cons t ts ih =>
    exact (cons (h t List.mem_cons_self)).trans (ih fun u hu => h u (List.mem_cons_of_mem t hu))

end Clear

/-! ### Clauses -/

theorem isInside_of_label? {label : Option Text} (h : t.label? = some label) : isInside t := by
  cases t <;> first | rfl | cases h

theorem isInside_of_metricName? {name : Text} (h : t.metricName? = some name) : isInside t := by
  cases t <;> first | rfl | cases h

theorem isInside_of_binaryOp? {op : BinaryOp} (h : t.binaryOp? = some op) : isInside t := by
  cases t <;> first | rfl | cases h

theorem open_of_binaryOp? {op : BinaryOp} (h : t.binaryOp? = some op) : Open (t :: ts) := by
  refine open_of_head ?_ ?_ ?_
  · rintro rfl
    cases h
  · rintro b w rfl
    cases h
  · rintro rfl
    cases h

theorem rightParen_not_mem (htaken : ∀ t ∈ taken, isInside t) : .rightParen ∉ taken :=
  fun hmem => by cases htaken _ hmem

/-- The first place of a token in some tokens is determined. -/
theorem eq_of_append_cons {a b us vs : List Token} (ha : t ∉ a) (hb : t ∉ b)
    (h : a ++ t :: us = b ++ t :: vs) : a = b ∧ us = vs := by
  have hdrop : ∀ c ws : List Token, t ∉ c → (c ++ t :: ws).dropWhile (· != t) = t :: ws := by
    intro c ws hc
    rw [List.dropWhile_append_of_pos fun u hu => by simpa using ne_of_mem_of_not_mem hu hc]
    simp
  have hbehind := hdrop a us ha
  rw [h, hdrop b vs hb] at hbehind
  cases hbehind
  exact ⟨List.append_cancel_right h, rfl⟩

/-- Labels are read up to the first closing parenthesis. -/
theorem exists_of_labelsRest {labels : Option (List Text)}
    (h : labelsRest ts = .ok (labels, rest)) :
    ∃ taken, (∀ t ∈ taken, isInside t) ∧ ts = taken ++ .rightParen :: rest := by
  fun_induction labelsRest ts generalizing labels rest with
  | case1 ts =>
    cases h
    exact ⟨[], List.forall_mem_nil _, rfl⟩
  | case2 t ts _ label hlabel =>
    cases h
    exact ⟨[t], by simpa using isInside_of_label? hlabel, rfl⟩
  | case3 => cases h
  | case4 t ts _ label hlabel ih =>
    obtain ⟨more, behind, hmore, h⟩ := Reading.bind_pair_eq_ok.mp h
    cases h
    obtain ⟨taken, htaken, rfl⟩ := ih hmore
    refine ⟨t :: .comma :: taken, ?_, rfl⟩
    simp only [List.forall_mem_cons]
    exact ⟨isInside_of_label? hlabel, rfl, htaken⟩
  | case5 => cases h
  | case6 => cases h

theorem exists_of_labelChoice {allBut : Bool} {choice : Option LabelChoice}
    (h : labelChoice allBut ts = .ok (choice, rest)) :
    ∃ taken, (∀ t ∈ taken, isInside t) ∧ ts = .leftParen :: (taken ++ .rightParen :: rest) := by
  obtain ⟨labels, behind, hlabels, h⟩ := Reading.bind_pair_eq_ok.mp h
  cases h
  unfold labelList at hlabels
  split at hlabels
  · obtain ⟨taken, htaken, rfl⟩ := exists_of_labelsRest hlabels
    exact ⟨taken, htaken, rfl⟩
  · cases hlabels

/-- Labels in parentheses, in front of tokens that are calm. -/
theorem clear_labels (htaken : ∀ t ∈ taken, isInside t) (hcalm : Calm rest) :
    Clear (.leftParen :: (taken ++ .rightParen :: rest)) rest :=
  ((Clear.cons rfl).trans (.append htaken)).trans (.close hcalm)

theorem clear_groupModifier {g : Option (Option Grouping)} (h : groupModifier ts = .ok (g, rest))
    (hcalm : Calm rest) : Clear ts rest ∧ Calm ts := by
  unfold groupModifier at h
  split at h
  · obtain ⟨labels, behind, hlabels, h⟩ := Reading.bind_pair_eq_ok.mp h
    cases h
    obtain ⟨taken, htaken, rfl⟩ := exists_of_labelsRest hlabels
    exact ⟨(Clear.cons rfl).trans (clear_labels htaken hcalm), calm_of_head nofun nofun⟩
  · cases h
    exact ⟨.cons rfl, calm_of_head nofun nofun⟩
  · cases h
    exact ⟨.refl _, hcalm⟩

theorem clear_binaryModifiers {m : BinaryModifiers}
    (h : binaryModifiers ts = .ok (some m, rest)) (hcalm : Calm rest) : Clear ts rest := by
  have hbool : Clear ts (afterBool ts).2 := by
    unfold afterBool
    split
    · exact .cons rfl
    · exact .refl _
  rcases binaryModifiers_cases h with
    ⟨rfl, -⟩ | ⟨allBut, word, us, vs, choice, grouping, hafter, hchoice, hgrouping, -⟩
  · exact hbool
  · rw [hafter] at hbool
    obtain ⟨taken, htaken, rfl⟩ := exists_of_labelChoice hchoice
    obtain ⟨hgroup, hcalm⟩ := clear_groupModifier hgrouping hcalm
    have hword : Clear (.keyword (.matching allBut) word :: .leftParen ::
        (taken ++ .rightParen :: vs)) _ := .cons rfl
    exact ((hbool.trans hword).trans (clear_labels htaken hcalm)).trans hgroup

/-- A grouping clause behind a parenthesis is in its place if no offset follows it. -/
theorem clear_grouping {g : Option (Option LabelChoice)} (h : grouping ts = .ok (g, rest))
    (hcalm : Calm rest) :
    Clear ts rest ∧ (NoOffset rest → Calm ts ∧ NoOffset ts) := by
  unfold grouping at h
  split at h
  · obtain ⟨choice, behind, hchoice, h⟩ := Reading.bind_pair_eq_ok.mp h
    cases h
    obtain ⟨taken, htaken, rfl⟩ := exists_of_labelChoice hchoice
    refine ⟨(Clear.cons rfl).trans (clear_labels htaken hcalm), fun hoffset => ⟨?_, nofun⟩⟩
    intro hmisplaced
    generalize hall : taken ++ Token.rightParen :: rest = all at hmisplaced
    cases hmisplaced with
    | grouped hlabels =>
      obtain ⟨-, hrest⟩ := eq_of_append_cons (rightParen_not_mem htaken) hlabels hall
      exact hoffset _ _ hrest
  · cases h
    exact ⟨.refl _, fun hoffset => ⟨hcalm, hoffset⟩⟩

/-! ### Matchers -/

theorem isInside_of_matcherOf? {piece : List Token} {m : Option Matcher}
    (h : matcherOf? piece = some m) : ∀ t ∈ piece, isInside t := by
  unfold matcherOf? at h
  split at h
  · simp [isInside]
  · simp [isInside]
  · simp [isInside]
  · cases h

/-- No bracket and no parenthesis is closed between matchers: the tokens for which one is add up to
nothing. -/
theorem isInside_of_matchersOf? {ms : Matchers} (h : matchersOf? ts = some (some ms)) :
    ∀ t ∈ ts, isInside t := by
  have hpiece : ∀ piece m, matcherOf? piece = some (some m) →
      (piece.map fun t => if isInside t then 0 else 1).sum = 0 := by
    intro piece m hm
    rw [List.sum_eq_zero_iff]
    intro n hn
    obtain ⟨t, ht, rfl⟩ := List.mem_map.mp hn
    rw [if_pos (isInside_of_matcherOf? hm t ht)]
  have hsum := sum_matchersOf? (f := fun t => if isInside t then 0 else 1) rfl rfl (fun _ => 0)
    hpiece h
  intro t ht
  rw [List.map_const', List.sum_replicate, smul_zero, List.sum_eq_zero_iff] at hsum
  by_contra hnot
  have hone := hsum _ (List.mem_map_of_mem ht)
  rw [if_neg hnot] at hone
  cases hone

theorem clear_matchers {ms : Matchers} (h : matchers ts = .ok (some ms, rest)) :
    Clear ts rest := by
  obtain ⟨inner, rfl, hinner⟩ := exists_of_matchers h
  exact ((Clear.cons rfl).trans (.append (isInside_of_matchersOf? hinner))).trans (.cons rfl)

/-! ### Suffixes -/

theorem isInside_of_durationOf {fits : Bool} {d : Option Duration}
    (h : durationOf t fits = .ok d) : isInside t := by
  cases t <;> first | rfl | cases h

theorem clear_signed (ts : List Token) : Clear ts (signed ts).2 := by
  unfold signed
  split
  · exact .cons rfl
  · exact .cons rfl
  · exact .refl _

theorem clear_range {inner : Expr} (h : range (some inner) ts = .ok (some e, rest))
    (hcalm : Calm rest) : Clear ts rest := by
  have hclose : Clear (.rightBracket :: rest) rest := .closeBracket hcalm
  obtain ⟨_, ⟨⟩, hranged⟩ := ranged_of_range h
  cases hranged with
  | range hd => exact (Clear.cons (isInside_of_durationOf hd)).trans hclose
  | subquery hd => exact ((Clear.cons (isInside_of_durationOf hd)).trans (.cons rfl)).trans hclose
  | stepped hd hstep =>
    have hbehind := (Clear.cons (isInside_of_durationOf hstep)).trans hclose
    exact ((Clear.cons (isInside_of_durationOf hd)).trans (.cons rfl)).trans hbehind

theorem clear_offset {inner : Expr} (h : offset (some inner) ts = .ok (some e, rest)) :
    Clear ts rest := by
  have hfront := clear_signed ts
  obtain ⟨_, ⟨⟩, negative, t, d, hsigned, hd, -⟩ := exists_of_offset h
  rw [hsigned] at hfront
  exact hfront.trans (.cons (isInside_of_durationOf hd))

theorem clear_time {inner : Expr} (h : time (some inner) ts = .ok (some e, rest))
    (hcalm : Calm rest) : Clear ts rest := by
  have hparens : Clear (.leftParen :: .rightParen :: rest) rest :=
    (Clear.cons rfl).trans (.close hcalm)
  obtain ⟨_, ⟨⟩, instant, hdated, -⟩ := dated_of_time h
  cases hdated with
  | queryStart => exact (Clear.cons rfl).trans hparens
  | queryEnd => exact (Clear.cons rfl).trans hparens
  | @seconds _ _ _ t _ _ hsigned hv =>
    have hfront := clear_signed ts
    rw [hsigned] at hfront
    have hinside : isInside t := by cases t <;> first | rfl | cases hv
    exact hfront.trans (.cons hinside)

/-! ### Expressions -/

/-- An offset behind an operand is one that the operand can take. -/
theorem noOffset_of_suffixes {inner : Expr} (h : Derives (.suffixes inner e) ts rest)
    (hinner : ∀ o, inner.withOffset? o = none) : NoOffset ts := by
  rintro word us rfl
  cases h with
  | suffixEnd hend => exact (hend _ rfl).2.2 word rfl
  | offset hoffset =>
    obtain ⟨_, ⟨⟩, negative, t, d, -, -, hwith⟩ := exists_of_offset hoffset
    rw [hinner] at hwith
    cases hwith

theorem open_of_suffixes {inner : Expr} (h : Derives (.suffixes inner e) ts rest)
    (hopen : Open rest) : Open ts := by
  cases h with
  | suffixEnd => exact hopen
  | range => exact open_of_head nofun nofun nofun
  | offset => exact open_of_head nofun nofun nofun
  | time => exact open_of_head nofun nofun nofun

theorem open_of_operators {level : Nat} {left : Expr}
    (h : Derives (.operators level left e) ts rest) (hopen : Open rest) : Open ts := by
  cases h with
  | operatorEnd => exact hopen
  | operator hop => exact open_of_binaryOp? hop

/-- No expression starts with a closing parenthesis. A word of a grouping clause may be the name of
a metric, but then no parenthesis behind it is read. -/
theorem calm_of_expression {level : Nat} (h : Derives (.expression level e) ts rest)
    (hopen : rest.head? ≠ some .leftParen) : Calm ts := by
  intro hmisplaced
  cases h with
  | expression hfront hoperators =>
    cases hfront with
    | minus => cases hmisplaced
    | plus => cases hmisplaced
    | unsigned hprimary hsuffixes =>
      cases hprimary with
      | named hname =>
        cases hmisplaced with
        | closed => cases hname
        | grouped =>
          cases hsuffixes
          cases hoperators with
          | operatorEnd => exact hopen rfl
          | operator hop => cases hop
      | namedMatchers hname hms =>
        cases hmisplaced with
        | closed => cases hname
        | grouped => cases hms
      | _ => cases hmisplaced

/-- Tokens are taken away so that no misplaced offset starts at one of them, if what is behind them
lets it be: it does not go on with an offset behind what has no place for one. -/
def Phrase.Clears : Phrase → List Token → List Token → Prop
  | .primary e, ts, rest =>
    Open rest → ((∀ o, e.withOffset? o = none) → NoOffset rest) → Clear ts rest
  | .arguments _, ts, rest | .moreArguments _, ts, rest => Calm rest → NoOffset rest → Clear ts rest
  | _, ts, rest => Open rest → Clear ts rest

theorem withOffset?_of_aggregateOf? {op : AggregateOp} {g : Option LabelChoice} {es : List Expr}
    (h : Expr.aggregateOf? op g es = some e) (o : Offset) : e.withOffset? o = none := by
  unfold Expr.aggregateOf? at h
  split at h
  · split at h <;> cases h
    rfl
  · split at h <;> cases h
    rfl
  · cases h

theorem Derives.clears {p : Phrase} (h : Derives p ts rest) : p.Clears ts rest := by
  induction h with
  | number => exact fun _ _ => .cons rfl
  | duration => exact fun _ _ => .cons rfl
  | string => exact fun _ _ => .cons rfl
  | paren _ ih =>
    intro hopen hoffset
    exact ((Clear.cons rfl).trans (ih (open_close (hoffset fun _ => rfl)))).trans (.close hopen.1)
  | unnamed hms => exact fun _ _ => clear_matchers hms
  | named hname => exact fun _ _ => .cons (isInside_of_metricName? hname)
  | namedMatchers hname hms =>
    exact fun _ _ => (Clear.cons (isInside_of_metricName? hname)).trans (clear_matchers hms)
  | call _ ih =>
    intro hopen hoffset
    exact ((Clear.cons rfl).trans (.cons rfl)).trans (ih hopen.1 (hoffset fun _ => rfl))
  | aggregate _ _ hgrouping haggregate ih =>
    intro hopen hoffset
    obtain ⟨hclear, hfront⟩ := clear_grouping hgrouping hopen.1
    obtain ⟨hcalm, hnone⟩ := hfront (hoffset (withOffset?_of_aggregateOf? haggregate))
    exact (((Clear.cons rfl).trans (.cons rfl)).trans (ih hcalm hnone)).trans hclear
  | groupedAggregate _ hgrouping _ haggregate ih =>
    intro hopen hoffset
    have hclear := (clear_grouping hgrouping (calm_of_head nofun nofun)).1
    have hnone := hoffset (withOffset?_of_aggregateOf? haggregate)
    exact (((Clear.cons rfl).trans hclear).trans (.cons rfl)).trans (ih hopen.1 hnone)
  | suffixEnd => exact fun _ => .refl _
  | range hrange hbehind ih =>
    intro hopen
    have hbetween := open_of_suffixes hbehind hopen
    exact ((Clear.cons rfl).trans (clear_range hrange hbetween.1)).trans (ih hopen)
  | offset hoffset _ ih =>
    exact fun hopen => ((Clear.cons rfl).trans (clear_offset hoffset)).trans (ih hopen)
  | time htime hbehind ih =>
    intro hopen
    have hbetween := open_of_suffixes hbehind hopen
    exact ((Clear.cons rfl).trans (clear_time htime hbetween.1)).trans (ih hopen)
  | minus _ ih => exact fun hopen => (Clear.cons rfl).trans (ih hopen)
  | plus _ ih => exact fun hopen => (Clear.cons rfl).trans (ih hopen)
  | unsigned _ hbehind ihfront ih =>
    intro hopen
    exact (ihfront (open_of_suffixes hbehind hopen) (noOffset_of_suffixes hbehind)).trans (ih hopen)
  | expression _ hbehind ihfront ih =>
    exact fun hopen => (ihfront (open_of_operators hbehind hopen)).trans (ih hopen)
  | operatorEnd => exact fun _ => .refl _
  | operator hop _ hmodifiers hoperand hbehind ihoperand ih =>
    intro hopen
    have hbetween := open_of_operators hbehind hopen
    have hcalm := calm_of_expression hoperand hbetween.2
    exact (((Clear.cons (isInside_of_binaryOp? hop)).trans
      (clear_binaryModifiers hmodifiers hcalm)).trans (ihoperand hbetween)).trans (ih hopen)
  | noArguments => exact fun hcalm _ => .close hcalm
  | someArguments _ ih => exact ih
  | lastArgument _ ih =>
    exact fun hcalm hoffset => (ih (open_close hoffset)).trans (.close hcalm)
  | moreArguments _ _ ihfirst ih =>
    intro hcalm hoffset
    exact ((ihfirst (open_of_head nofun nofun nofun)).trans (.cons rfl)).trans (ih hcalm hoffset)

/-- No query has a misplaced offset among its tokens. -/
theorem not_misplaced_of_whole (h : whole ts = .ok (some e)) {s : List Token} (hs : s <:+ ts) :
    ¬ Misplaced s := by
  intro hmisplaced
  have hne : s ≠ [] := by
    rintro rfl
    cases hmisplaced
  exact ((derives_whole h).clears open_nil).clear s hs (List.length_pos_iff.mpr hne) hmisplaced

end Grammar

end PromQL

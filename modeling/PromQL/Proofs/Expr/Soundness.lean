import PromQL.Proofs.Expr.Derivation
import PromQL.Proofs.Expr.Taking

/-!
# What is read is well formed

An expression that has been read, and makes sense, has the shape in which it can be written without
further parentheses: every operand binds tightly enough for its place. It weighs no more than the
tokens that it has been read from.
-/

namespace PromQL

namespace Expr

/-- An expression that binds so tightly has been read from some tokens up to others. -/
structure Found (level : Nat) (ts : List Token) (e : Expr) (rest : List Token) : Prop where
  takes : Takes e.weight ts rest
  formed : Lexed .plain ts → e.wellTyped → e.Formed
  level : level ≤ e.level

/-- Expressions have been read from some tokens up to others. -/
structure FoundAll (ts : List Token) (es : List Expr) (rest : List Token) : Prop where
  takes : Takes (weights es) ts rest
  formed : Lexed .plain ts → allWellTyped es → AllFormed es

theorem level_le (e : Expr) : e.level ≤ 7 := by
  unfold level
  split
  · next op _ _ _ => cases op <;> simp [BinaryOp.precedence]
  all_goals simp

theorem isNumber_of_type {e : Expr} (h : e.type = .vector) : e.isNumber = false := by
  cases e <;> first | rfl | cases h

/-! ### Numbers -/

theorem level_ofUnits (num den : Nat) : (number (Double.ofUnits false num den)).level = 7 := by
  unfold Double.ofUnits
  split <;> rfl

theorem level_ofDecimal (d : Decimal) : (number (Double.ofDecimal false d)).level = 7 := by
  unfold Double.ofDecimal
  split_ifs
  · rfl
  · rfl
  · rfl
  · exact level_ofUnits _ _
  · exact level_ofUnits _ _

theorem level_ofInteger? {n : Option Nat} {v : Double} (h : Double.ofInteger? n = some v) :
    (number v).level = 7 := by
  obtain ⟨n, -, h⟩ := Option.bind_eq_some_iff.mp h
  split at h
  · cases h
    exact level_ofUnits _ _
  · cases h

/-- A literal has no sign. -/
theorem level_ofNumeral? {text : Text} {v : Double} (h : Double.ofNumeral? text = some v) :
    (number v).level = 7 := by
  unfold Double.ofNumeral? at h
  simp only at h
  split at h
  · exact level_ofInteger? h
  · split at h
    · exact level_ofInteger? h
    · split at h
      · cases h
        rfl
      · split at h
        · cases h
          rfl
        · obtain ⟨d, -, rfl⟩ := Option.map_eq_some_iff.mp h
          exact level_ofDecimal d

theorem weight_number_le (v : Double) : (number v).weight ≤ 1 := by
  cases v <;> simp [weight, Double.weight]

/-! ### Modifiers -/

theorem modify?_eq_some {change : Modifiers → Option Modifiers} {e e' : Expr}
    (hchange : ∀ m m', change m = some m' → m'.weight = m.weight + 1)
    (h : e.modify? change = some e') :
    e'.weight = e.weight + 1 ∧ e'.wellTyped = e.wellTyped ∧ (e.Formed → e'.Formed) ∧
      e'.level = 7 := by
  cases e
  case vector s =>
    obtain ⟨m, hm, rfl⟩ := Option.map_eq_some_iff.mp h
    exact ⟨hchange _ _ hm, rfl, fun h => ⟨h.name, h.matchers, h.nonempty⟩, rfl⟩
  case matrix s range =>
    obtain ⟨m, hm, rfl⟩ := Option.map_eq_some_iff.mp h
    refine ⟨?_, rfl, fun h => ⟨h.name, h.matchers, h.nonempty⟩, rfl⟩
    simp only [weight, hchange _ _ hm]
    rfl
  case subquery inner range step m =>
    obtain ⟨m', hm, rfl⟩ := Option.map_eq_some_iff.mp h
    refine ⟨?_, rfl, fun h => h, rfl⟩
    simp only [weight, hchange _ _ hm]
    rfl
  all_goals cases h

theorem withOffset?_eq_some {e e' : Expr} {o : Offset} (h : e.withOffset? o = some e') :
    e'.weight = e.weight + 1 ∧ e'.wellTyped = e.wellTyped ∧ (e.Formed → e'.Formed) ∧
      e'.level = 7 := by
  refine modify?_eq_some (fun m m' hm => ?_) h
  split at hm
  · cases hm
  · next hnone =>
    cases hm
    simp_all [Modifiers.weight]

theorem withTime?_eq_some {e e' : Expr} {t : Instant} (h : e.withTime? t = some e') :
    e'.weight = e.weight + 1 ∧ e'.wellTyped = e.wellTyped ∧ (e.Formed → e'.Formed) ∧
      e'.level = 7 := by
  refine modify?_eq_some (fun m m' hm => ?_) h
  split at hm
  · cases hm
  · next hnone =>
    cases hm
    simp_all [Modifiers.weight]
    omega

end Expr

namespace Grammar

open PromQL.Expr

variable {ts us rest : List Token} {inner e e' : Expr}

/-! ### Behind an operand -/

/-- A modifier goes on the selector or subquery in front of it. -/
theorem Found.modified (he : Found 7 ts e us) (htakes : Takes 1 us rest)
    (h : e'.weight = e.weight + 1 ∧ e'.wellTyped = e.wellTyped ∧ (e.Formed → e'.Formed) ∧
      e'.level = 7) : Found 7 ts e' rest := by
  obtain ⟨hweight, htyped, hformed, hlevel⟩ := h
  refine ⟨?_, ?_, hlevel.ge⟩
  · rw [hweight]
    exact he.takes.trans htakes
  · intro hts he'
    rw [htyped] at he'
    exact hformed (he.formed hts he')

theorem found_offset {word : Text} (hinner : Found 7 ts inner (.keyword .offset word :: us))
    (h : offset (some inner) us = .ok (some e, rest)) : Found 7 ts e rest := by
  have hfront := (Takes.keyword (k := .offset) (by simp) word us).trans (takes_signed us)
  obtain ⟨_, ⟨⟩, negative, t, d, heq, hd, hwith⟩ := exists_of_offset h
  rw [heq] at hfront
  obtain ⟨hweight, hgroup, hafter⟩ := weight_of_durationOf hd
  have htoken : Takes 1 (t :: rest) rest := .cons hgroup (hafter _) hweight.ge
  exact Found.modified hinner (hfront.trans htoken) (withOffset?_eq_some hwith)

theorem takes_dated {instant : Instant} (h : Dated instant us rest) : Takes 1 us rest := by
  have hparens {word : Keyword} (hword : ∀ many, word ≠ .group many) (spelling : Text)
      (vs : List Token) : Takes 1 (.keyword word spelling :: .leftParen :: .rightParen :: vs) vs :=
    ((Takes.keyword hword spelling _).trans (.paren _)).trans (.close vs)
  cases h with
  | queryStart => exact hparens (by simp) _ _
  | queryEnd => exact hparens (by simp) _ _
  | @seconds negative v _ t _ _ hsigned hv hinstant =>
    have hfront := takes_signed us
    rw [hsigned] at hfront
    have hweight : v.weight = 1 := by
      have := weight_of_ofSeconds? hinstant
      split at this
      · rwa [weight_negate] at this
      · exact this
    have hall := hfront.trans (takes_number? hv hweight rest)
    rwa [Nat.zero_add] at hall

theorem found_time (hinner : Found 7 ts inner (.atSign :: us))
    (h : time (some inner) us = .ok (some e, rest)) : Found 7 ts e rest := by
  have hat : Takes 0 (.atSign :: us) us := .cons (by simp [Token.IsGroupWord]) rfl (Nat.zero_le _)
  obtain ⟨_, ⟨⟩, instant, hdated, hwith⟩ := dated_of_time h
  exact Found.modified hinner (hat.trans (takes_dated hdated)) (withTime?_eq_some hwith)

/-- Behind a token in brackets, everything is as it was in front of the brackets. -/
theorem takes_range {t : Token} (hgroup : ¬ t.IsGroupWord) (hweight : t.weight = 1) :
    Takes 1 (.leftBracket :: t :: .rightBracket :: rest) rest := by
  refine ⟨fun h => h.2.2.2, ?_⟩
  rw [tally_bracket, tally_cons hgroup, tally_closeBracket, hweight]

theorem takes_subquery {t : Token} (hgroup : ¬ t.IsGroupWord) (hweight : t.weight = 1) :
    Takes 1 (.leftBracket :: t :: .colon :: .rightBracket :: rest) rest := by
  refine ⟨fun h => h.2.2.2.2, ?_⟩
  rw [tally_bracket, tally_cons hgroup, tally_colon, tally_closeBracket, hweight]

theorem takes_subquery_step {t u : Token} (hgroup : ¬ t.IsGroupWord) (hweight : t.weight = 1)
    (hgroup' : ¬ u.IsGroupWord) (hweight' : u.weight = 1) :
    Takes 2 (.leftBracket :: t :: .colon :: u :: .rightBracket :: rest) rest := by
  refine ⟨fun h => h.2.2.2.2.2, ?_⟩
  rw [tally_bracket, tally_cons hgroup, tally_colon, tally_cons hgroup', tally_closeBracket,
    hweight, hweight', ← Nat.add_assoc]

/-- A subquery is over an expression that binds tightly and is no number. -/
theorem Found.subquery (he : Found 7 ts e us) {n : Nat} (htakes : Takes n us rest)
    (range : Duration) (step : Option Duration) (hn : 1 + step.isSome.toNat = n) :
    Found 7 ts (.subquery e range step .empty) rest := by
  refine ⟨?_, ?_, Nat.le_refl 7⟩
  · refine (he.takes.trans htakes).weaken ?_
    rw [Expr.weight, ← hn]
    simp [Modifiers.weight, Modifiers.empty, Nat.add_assoc]
  · intro hts hwellTyped
    simp only [wellTyped, Bool.and_eq_true, beq_iff_eq] at hwellTyped
    exact ⟨he.formed hts hwellTyped.1, Nat.le_antisymm (level_le e) he.level,
      isNumber_of_type hwellTyped.2⟩

theorem found_range (hinner : Found 7 ts inner (.leftBracket :: us))
    (h : range (some inner) us = .ok (some e, rest)) : Found 7 ts e rest := by
  obtain ⟨_, ⟨⟩, hranged⟩ := ranged_of_range h
  cases hranged with
  | range hd hover =>
    obtain ⟨hweight, hgroup, -⟩ := weight_of_durationOf hd
    unfold overRange? at hover
    split at hover
    · split at hover
      · cases hover
        refine ⟨?_, hinner.formed, Nat.le_refl 7⟩
        refine (hinner.takes.trans (takes_range hgroup hweight)).weaken ?_
        rw [Expr.weight, Expr.weight, Nat.add_comm]
      · cases hover
    · cases hover
  | subquery hd =>
    obtain ⟨hweight, hgroup, -⟩ := weight_of_durationOf hd
    exact Found.subquery hinner (takes_subquery hgroup hweight) _ none rfl
  | stepped hd hstep =>
    obtain ⟨hweight, hgroup, -⟩ := weight_of_durationOf hd
    obtain ⟨hweight', hgroup', -⟩ := weight_of_durationOf hstep
    exact Found.subquery hinner (takes_subquery_step hgroup hweight hgroup' hweight') _ (some _) rfl

/-! ### Operands -/

theorem found_number {t : Token} {v : Double} (hgroup : ¬ t.IsGroupWord)
    (hafter : LexMode.plain.after t = .plain) (hweight : v.weight ≤ t.weight)
    (hlevel : (number v).level = 7) : Found 7 (t :: rest) (.number v) rest :=
  ⟨.cons hgroup hafter hweight, fun _ _ => trivial, hlevel.ge⟩

/-- A selector without a name has a matcher, or it makes no sense. -/
theorem found_vector {name : Option Text} {ms : Matchers} (htakes : Takes 0 ts rest)
    (hname : Lexed .plain ts → ∀ n ∈ name, IsMetricWord n) (hms : ms.Formed) :
    Found 7 ts (.vector ⟨name, ms, .empty⟩) rest := by
  refine ⟨htakes, fun hts hwellTyped => ⟨hname hts, hms, ?_⟩, Nat.le_refl 7⟩
  rintro hnone hflatten
  simp only at hnone hflatten
  simp [wellTyped, Selector.wellFormed, hnone, hflatten] at hwellTyped

/-- The name in front of matchers is a word of the lexer that may be one. -/
theorem isMetricWord_of_lexed {t : Token} {name : Text} (h : t.metricName? = some name)
    (hlexed : Lexed .plain (t :: ts)) : ∀ n ∈ some name, IsMetricWord n := by
  intro n hn
  cases hn
  obtain ⟨hbare, hof⟩ := hlexed.1 (by simp) name (takes_name h ts).2
  exact ⟨hbare, by rw [hof, h]⟩

theorem found_paren (h : Found 0 ts e (.rightParen :: rest)) :
    Found 7 (.leftParen :: ts) (.paren e) rest := by
  have hopen := Takes.paren ts
  refine ⟨(hopen.trans h.takes).trans (.close rest), ?_, Nat.le_refl 7⟩
  exact fun hlexed => h.formed (hopen.lexed hlexed)

theorem found_call {name : Text} {es : List Expr} (h : FoundAll ts es rest) :
    Found 7 (.identifier name :: .leftParen :: ts) (.call name es) rest := by
  have hname : Takes 0 (.identifier name :: .leftParen :: ts) (.leftParen :: ts) :=
    .cons (by simp [Token.IsGroupWord]) rfl (Nat.zero_le _)
  have hopen := hname.trans (.paren ts)
  refine ⟨(hopen.trans h.takes).weaken (by simp [weight]), ?_, Nat.le_refl 7⟩
  intro hlexed hwellTyped
  simp only [wellTyped, Bool.and_eq_true] at hwellTyped
  exact ⟨hlexed.1 (by simp) name rfl, h.formed (hopen.lexed hlexed) hwellTyped.1⟩

theorem aggregateOf?_eq_some {op : AggregateOp} {g : Option LabelChoice} {es : List Expr}
    (hop : op.reserved = false) (h : aggregateOf? op g es = some e) :
    e.weight = g.isSome.toNat + 1 + weights es ∧ (e.wellTyped → allWellTyped es) ∧
      (AllFormed es → e.Formed) ∧ e.level = 7 := by
  unfold aggregateOf? at h
  split at h
  · split at h
    · cases h
    · next hparameter =>
      cases h
      refine ⟨by simp [weight, weights, parameterWeight], ?_, ?_, rfl⟩
      · simp only [wellTyped, allWellTyped, Bool.and_eq_true]
        rintro ⟨⟨hinner, -⟩, -⟩
        exact ⟨hinner, trivial⟩
      · rintro ⟨hinner, -⟩
        exact ⟨hop, by simpa using hparameter, trivial, hinner⟩
  · split at h
    · next hparameter =>
      cases h
      refine ⟨by simp [weight, weights, parameterWeight, Nat.add_assoc], ?_, ?_, rfl⟩
      · simp only [wellTyped, allWellTyped, parameterWellTyped, Bool.and_eq_true]
        rintro ⟨⟨hinner, -⟩, ⟨-, hp⟩, -⟩
        exact ⟨hp, hinner, trivial⟩
      · rintro ⟨hp, hinner, -⟩
        exact ⟨hop, hparameter.symm, hp, hinner⟩
    · cases h
  · cases h

theorem found_aggregate {op : AggregateOp} {g : Option LabelChoice} {es : List Expr} {n : Nat}
    (hop : ¬ op.reserved) (h : aggregateOf? op g es = some e) (htakes : Takes n ts rest)
    (hn : g.isSome.toNat + 1 + weights es ≤ n)
    (hes : Lexed .plain ts → allWellTyped es → AllFormed es) : Found 7 ts e rest := by
  obtain ⟨hweight, htyped, hformed, hlevel⟩ := aggregateOf?_eq_some (by simpa using hop) h
  refine ⟨htakes.weaken (hweight ▸ hn), ?_, hlevel.ge⟩
  intro hts he
  exact hformed (hes hts (htyped he))

/-! ### Expressions -/

/-- Whether an expression may be the left operand of the operator behind it, if there is one. -/
def Admits (e : Expr) (rest : List Token) : Prop :=
  ∀ op, rest.head?.bind Token.binaryOp? = some op → op.leftPrecedence ≤ e.level

/-- What the grammar gives on some tokens is found there, and goes on as far as it can. -/
def Sound (ts : List Token) : Prop :=
  ∀ level e rest, level ≤ 6 → readExpression level ts = .ok (some e, rest) →
    Found level ts e rest ∧ Stops level rest

theorem leftPrecedence_lt {op : BinaryOp} {level : Nat} (hlevel : level ≤ 6)
    (h : op.precedence < level) : op.leftPrecedence < level := by
  cases op
  case pow => exact absurd (Nat.lt_of_lt_of_le h hlevel) (Nat.lt_irrefl 6)
  all_goals exact h

theorem Stops.admits {level : Nat} (h : Stops level rest) (hlevel : level ≤ 6)
    (he : level ≤ e.level) : Admits e rest := by
  intro op hop
  exact Nat.le_trans (Nat.le_of_lt (leftPrecedence_lt hlevel (h op hop))) he

theorem admits_of_level (he : 7 ≤ e.level) (rest : List Token) : Admits e rest := by
  intro op _
  apply Nat.le_trans _ he
  cases op <;> simp [BinaryOp.leftPrecedence, BinaryOp.precedence]

theorem rightPrecedence_le (op : BinaryOp) :
    op.rightPrecedence ≤ op.precedence + 1 ∧ op.rightPrecedence ≤ 6 := by
  cases op <;> simp [BinaryOp.rightPrecedence, BinaryOp.precedence]

theorem grouping_of_admit {op : BinaryOp} {m : BinaryModifiers} {l r : ValueType}
    (h : BinaryModifiers.admit m op l r) (hop : op.isSetOp) : m.grouping = none := by
  simp only [ BinaryModifiers.admit, hop, Bool.and_eq_true, Bool.not_true, Bool.false_or] at h
  simpa using h.1.1.2.2

theorem found_cons {es : List Expr} {vs : List Token} (h : Found 0 ts e us) (htakes : Takes 0 us vs)
    (hes : FoundAll vs es rest) : FoundAll ts (e :: es) rest := by
  have hfront := h.takes.trans htakes
  refine ⟨hfront.trans hes.takes, ?_⟩
  intro hlexed hwellTyped
  simp only [allWellTyped, Bool.and_eq_true] at hwellTyped
  exact ⟨h.formed hlexed hwellTyped.1, hes.formed (hfront.lexed hlexed) hwellTyped.2⟩

/-- A sign in front of an expression makes it a negative number or a node of its own. -/
theorem found_negated (h : Found 6 ts e rest) :
    Found 6 (.operator .sub :: ts) e.negated rest := by
  have hsign : Takes 0 (.operator .sub :: ts) ts := .binaryOp rfl ts
  have htakes := hsign.trans h.takes
  rw [Nat.zero_add] at htakes
  by_cases hnumber : e.isNumber
  · cases e
    case number v =>
      refine ⟨?_, fun _ _ => trivial, ?_⟩
      · refine htakes.weaken (Nat.le_of_eq ?_)
        exact weight_negate v
      · cases v with
        | nan => simp [negated, Double.negate, Expr.level]
        | infinite negative => cases negative <;> simp [negated, Double.negate, Expr.level]
        | finite negative rank => cases negative <;> simp [negated, Double.negate, Expr.level]
    all_goals cases hnumber
  · have hnegated : e.negated = .negate e := by
      cases e <;> first | rfl | exact absurd rfl hnumber
    rw [hnegated]
    refine ⟨htakes, ?_, Nat.le_refl 6⟩
    intro hlexed hwellTyped
    simp only [wellTyped, Bool.and_eq_true] at hwellTyped
    exact ⟨h.formed (hsign.lexed hlexed) hwellTyped.1, h.level, by simpa using hnumber⟩

theorem found_plus {level : Nat} (h : Found level ts e rest) :
    Found level (.operator .add :: ts) e rest := by
  have hsign : Takes 0 (.operator .add :: ts) ts := .binaryOp rfl ts
  refine ⟨(hsign.trans h.takes).weaken (Nat.zero_add _).ge, ?_, h.level⟩
  exact fun hlexed => h.formed (hsign.lexed hlexed)

/-- Behind an operator and its right operand, the grammar goes on with a larger left operand. -/
theorem found_binary {op : BinaryOp} {m : BinaryModifiers} {l r : Expr} {t : Token} {level : Nat}
    {vs : List Token} (hop : t.binaryOp? = some op) (hleft : Found level ts l (t :: us))
    (hadmits : Admits l (t :: us)) (hmodifiers : binaryModifiers us = .ok (some m, vs))
    (hright : Found op.rightPrecedence vs r rest) (hlevel : level ≤ op.precedence) :
    Found level ts (.binary op m l r) rest := by
  have hfront := (hleft.takes.trans (.binaryOp hop us)).trans (takes_binaryModifiers hmodifiers)
  refine ⟨(hfront.trans hright.takes).weaken (Nat.le_of_eq rfl), ?_, hlevel⟩
  intro hlexed hwellTyped
  simp only [wellTyped, Bool.and_eq_true] at hwellTyped
  obtain ⟨⟨hl, hr⟩, hadmit⟩ := hwellTyped
  exact ⟨hleft.formed hlexed hl, hright.formed (hfront.lexed hlexed) hr, hadmits op hop,
    hright.level, grouping_of_admit hadmit⟩

/-- The right operand goes on as far as it can, so what has been read may be the left operand of the
operator behind it. -/
theorem admits_binary {op : BinaryOp} (m : BinaryModifiers) (l r : Expr)
    (h : Stops op.rightPrecedence rest) : Admits (.binary op m l r) rest := by
  intro op' hop'
  obtain ⟨hnext, hsix⟩ := rightPrecedence_le op
  exact Nat.le_of_lt_succ (Nat.lt_of_lt_of_le (leftPrecedence_lt hsix (h op' hop')) hnext)

/-- A phrase has been found in its tokens. What goes on behind an operand finds a larger one, an
operand may be the left one of the operator behind it, and an expression goes on as far as it
can. -/
def Phrase.Sound : Phrase → List Token → List Token → Prop
  | .expression level e, ts, rest => level ≤ 6 → Found level ts e rest ∧ Stops level rest
  | .operators level left e, us, rest =>
    ∀ ts, Found level ts left us → Admits left us → Found level ts e rest ∧ Stops level rest
  | .operand e, ts, rest => Found 6 ts e rest ∧ Admits e rest
  | .primary e, ts, rest => Found 7 ts e rest
  | .suffixes inner e, us, rest => ∀ ts, Found 7 ts inner us → Found 7 ts e rest
  | .arguments es, ts, rest | .moreArguments es, ts, rest => FoundAll ts es rest

theorem Derives.sound {p : Phrase} (h : Derives p ts rest) : p.Sound ts rest := by
  induction h with
  | @number spelling v ts h =>
    refine found_number (by simp [Token.IsGroupWord]) rfl ?_ (level_ofNumeral? h)
    simp [Token.weight, h]
  | duration =>
    exact found_number (by simp [Token.IsGroupWord]) rfl (weight_number_le _) (level_ofUnits _ _)
  | string =>
    exact ⟨.cons (by simp [Token.IsGroupWord]) rfl (Nat.zero_le _), fun _ _ => trivial,
      Nat.le_refl 7⟩
  | paren _ ih => exact found_paren (ih (Nat.zero_le 6)).1
  | unnamed h => exact found_vector (takes_matchers h) (by simp) (formed_matchers h)
  | named hname =>
    exact found_vector (takes_name hname _).1 (isMetricWord_of_lexed hname) (.inl rfl)
  | namedMatchers hname h =>
    have htakes := (takes_name hname _).1.trans (takes_matchers h)
    exact found_vector htakes (isMetricWord_of_lexed hname) (formed_matchers h)
  | call _ ih => exact found_call ih
  | @aggregate op word _ _ _ ts _ _ hop _ hgrouping h ih =>
    have hopen := (Takes.keyword (k := .aggregate op) (by simp) word _).trans (.paren ts)
    refine found_aggregate hop h ((hopen.trans ih.takes).trans (takes_grouping hgrouping))
      (by omega) ?_
    exact fun hlexed => ih.formed (hopen.lexed hlexed)
  | @groupedAggregate op word _ _ _ ts us _ hop hgrouping _ h ih =>
    have hword := Takes.keyword (k := .aggregate op) (by simp) word ts
    have hopen := (hword.trans (takes_grouping hgrouping)).trans (.paren us)
    refine found_aggregate hop h (hopen.trans ih.takes) (by omega) ?_
    exact fun hlexed => ih.formed (hopen.lexed hlexed)
  | suffixEnd => exact fun _ hinner => hinner
  | range h _ ih => exact fun ts hinner => ih ts (found_range hinner h)
  | offset h _ ih => exact fun ts hinner => ih ts (found_offset hinner h)
  | time h _ ih => exact fun ts hinner => ih ts (found_time hinner h)
  | minus _ ih =>
    obtain ⟨hfound, hstops⟩ := ih (Nat.le_refl 6)
    have hnegated := found_negated hfound
    exact ⟨hnegated, hstops.admits (Nat.le_refl 6) hnegated.level⟩
  | plus _ ih =>
    obtain ⟨hfound, hstops⟩ := ih (Nat.le_refl 6)
    exact ⟨found_plus hfound, hstops.admits (Nat.le_refl 6) hfound.level⟩
  | unsigned _ _ ihfront ih =>
    have hfound := ih _ ihfront
    exact ⟨⟨hfound.takes, hfound.formed, Nat.le_of_succ_le hfound.level⟩,
      admits_of_level hfound.level _⟩
  | expression _ _ ihfront ih =>
    intro hlevel
    obtain ⟨hfound, hadmits⟩ := ihfront
    exact ih _ ⟨hfound.takes, hfound.formed, Nat.le_trans hlevel hfound.level⟩ hadmits
  | operatorEnd h => exact fun _ hleft _ => ⟨hleft, h⟩
  | operator hop hlevel hmodifiers _ _ ihoperand ih =>
    intro ts hleft hadmits
    obtain ⟨hright, hstops⟩ := ihoperand (rightPrecedence_le _).2
    exact ih ts (found_binary hop hleft hadmits hmodifiers hright hlevel)
      (admits_binary _ _ _ hstops)
  | noArguments => exact ⟨.close _, fun _ _ => trivial⟩
  | someArguments _ ih => exact ih
  | lastArgument _ ih =>
    exact found_cons (ih (Nat.zero_le 6)).1 (.close _) ⟨.refl _, fun _ _ => trivial⟩
  | moreArguments _ _ ihfirst ih => exact found_cons (ihfirst (Nat.zero_le 6)).1 (.comma _) ih

/-- Every expression that the grammar gives has been found in its tokens. -/
theorem sound (ts : List Token) : Sound ts :=
  fun level e rest hlevel h => (derivable ts level e rest h).sound hlevel

/-- What all of some tokens are read as weighs no more than these, and is well formed if it makes
sense. -/
theorem whole_sound (h : whole ts = .ok (some e)) :
    e.weight ≤ tally ts ∧ (Lexed .plain ts → e.wellTyped → e.Formed) := by
  rw [whole_eq] at h
  obtain ⟨e?, us, he, h⟩ := Reading.bind_pair_eq_ok.mp h
  cases us with
  | cons u us => cases h
  | nil =>
    cases h
    obtain ⟨hfound, -⟩ := sound ts 0 e [] (Nat.zero_le 6) he
    exact ⟨hfound.takes.weight, hfound.formed⟩

end Grammar

/-- A query is scanned, and all of its tokens make up an expression that makes sense. -/
theorem Expr.exists_tokens {query : Text} {e : Expr} (h : Expr.ofText query = .ok e) :
    ∃ ts, Token.scan .plain query = some ts ∧ Grammar.whole ts = .ok (some e) ∧ e.wellTyped := by
  unfold Expr.ofText at h
  split at h
  · cases h
  · next ts hts =>
    rw [Token.ofText?_eq] at hts
    obtain ⟨us, hscan, hbalanced⟩ := Option.bind_eq_some_iff.mp hts
    obtain ⟨e?, he, h⟩ := Reading.bind_eq_ok.mp h
    split at hbalanced
    · cases hbalanced
      cases e? with
      | none => cases h
      | some e' =>
        simp only at h
        split at h
        · next hwellTyped =>
          cases h
          exact ⟨ts, hscan, he, hwellTyped⟩
        · cases h
    · cases hbalanced

/-- An expression that a query stands for makes sense and is well formed. -/
theorem Expr.ofText_sound {query : Text} {e : Expr} (h : Expr.ofText query = .ok e) :
    e.wellTyped ∧ e.Formed := by
  obtain ⟨ts, hscan, hwhole, hwellTyped⟩ := Expr.exists_tokens h
  exact ⟨hwellTyped, (Grammar.whole_sound hwhole).2 (lexed_of_scan hscan) hwellTyped⟩

end PromQL

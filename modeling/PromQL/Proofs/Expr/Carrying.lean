import Mathlib
import PromQL.Proofs.Expr.Derivation
import PromQL.Proofs.Expr.Variables

/-!
# What is read has the variables of its tokens

A reader takes tokens away, and what it reads has their variables: names, labels and strings are
kept as they are, and the tokens that are not kept have none. So an expression is written with the
variables that it has been read with, rule by rule.
-/

namespace PromQL

namespace Grammar

open Placeholders

variable {m : Placeholders} {n : Nat} {t : Token} {ts us vs rest : List Token} {e : Expr}
  {x y : Multiset Text}

/-- Tokens with the given variables are taken away in front of others, if what they stand for has
their variables. -/
def Carries (m : Placeholders) (x : Multiset Text) (ts rest : List Token) : Prop :=
  ∃ taken, ts = taken ++ rest ∧ ((∀ t ∈ taken, t.Transparent m) → m.tokensRestored taken = x)

namespace Carries

theorem refl (ts : List Token) : Carries m 0 ts ts := ⟨[], rfl, fun _ => rfl⟩

theorem trans (h : Carries m x ts us) (h' : Carries m y us vs) : Carries m (x + y) ts vs := by
  obtain ⟨taken, rfl, hx⟩ := h
  obtain ⟨taken', rfl, hy⟩ := h'
  refine ⟨taken ++ taken', (List.append_assoc _ _ _).symm, fun hall => ?_⟩
  rw [List.forall_mem_append] at hall
  rw [tokensRestored_append, hx hall.1, hy hall.2]

theorem cons (h : t.Transparent m → m.restored t.spelling = x) : Carries m x (t :: ts) ts := by
  refine ⟨[t], rfl, fun hall => ?_⟩
  rw [tokensRestored_cons, tokensRestored_nil, add_zero, h (hall t List.mem_cons_self)]

/-- A token in front that counts nothing. -/
theorem skip (ht : t.Transparent m → m.restored t.spelling = 0) (h : Carries m x ts rest) :
    Carries m x (t :: ts) rest := by
  have hall := (cons ht : Carries m 0 (t :: ts) ts).trans h
  rwa [zero_add] at hall

theorem sign (hstem : m.stem = stemOf n) (ht : t.isSign) (h : Carries m x ts rest) :
    Carries m x (t :: ts) rest :=
  skip (fun _ => restored_of_isSign hstem ht) h

theorem keyword {k : Keyword} {word : Text} (h : Carries m x ts rest) :
    Carries m x (.keyword k word :: ts) rest :=
  skip id h

end Carries

/-! ### Clauses -/

theorem restored_of_label? {label : Text} (h : t.label? = some (some label))
    (ht : t.Transparent m) : m.restored t.spelling = m.restored label := by
  cases t
  case identifier => cases h; rfl
  case keyword k word =>
    rw [Token.label?] at h
    split at h
    · cases h; rfl
    · cases h
  case string mark body => exact ht label (Option.some.inj h)
  all_goals cases h

theorem restored_of_metricName? {name : Text} (h : t.metricName? = some name) :
    m.restored t.spelling = m.restored name := by
  cases t
  case identifier => cases h; rfl
  case metric => cases h; rfl
  case keyword k word =>
    rw [Token.metricName?] at h
    split at h
    · cases h; rfl
    · cases h
  all_goals cases h

theorem carries_labelsRest (hstem : m.stem = stemOf n) {labels : List Text}
    (h : labelsRest ts = .ok (some labels, rest)) :
    Carries m (labels.map m.restored).sum ts rest := by
  have hclose : ∀ us : List Token, Carries m 0 (.rightParen :: us) us :=
    fun us => .sign hstem rfl (.refl us)
  fun_induction labelsRest ts generalizing labels rest with
  | case1 ts =>
    cases h
    exact hclose _
  | case2 t ts _ label hlabel =>
    simp only [Except.ok.injEq, Prod.mk.injEq] at h
    obtain ⟨hmap, rfl⟩ := h
    obtain ⟨name, rfl, rfl⟩ := Option.map_eq_some_iff.mp hmap
    have hall := (Carries.cons (restored_of_label? hlabel)).trans (hclose ts)
    simpa using hall
  | case3 => cases h
  | case4 t ts _ label hlabel ih =>
    obtain ⟨more, behind, hmore, h⟩ := Reading.bind_pair_eq_ok.mp h
    simp only [Except.ok.injEq, Prod.mk.injEq] at h
    obtain ⟨hbind, rfl⟩ := h
    obtain ⟨name, rfl, hmap⟩ := Option.bind_eq_some_iff.mp hbind
    obtain ⟨names, rfl, rfl⟩ := Option.map_eq_some_iff.mp hmap
    exact (Carries.cons (restored_of_label? hlabel)).trans (.sign hstem rfl (ih hmore))
  | case5 => cases h
  | case6 => cases h

theorem carries_labelChoice (hstem : m.stem = stemOf n) {allBut : Bool} {choice : LabelChoice}
    (h : labelChoice allBut ts = .ok (some choice, rest)) :
    Carries m (choice.labels.map m.restored).sum ts rest := by
  obtain ⟨labels, hlabels, rfl⟩ := Reading.map_pair_eq_ok.mp h
  have hchoice : ((if allBut then LabelChoice.allBut else .only) labels).labels = labels := by
    cases allBut <;> rfl
  unfold labelList at hlabels
  split at hlabels
  · rw [hchoice]
    exact .sign hstem rfl (carries_labelsRest hstem hlabels)
  · cases hlabels

theorem carries_grouping (hstem : m.stem = stemOf n) {g : Option LabelChoice}
    (h : grouping ts = .ok (some g, rest)) :
    Carries m (((g.map LabelChoice.labels).getD []).map m.restored).sum ts rest := by
  unfold grouping at h
  split at h
  · obtain ⟨choice, hchoice, rfl⟩ := Reading.map_pair_eq_ok.mp h
    exact .keyword (carries_labelChoice hstem hchoice)
  · cases h
    exact .refl _

theorem carries_groupModifier (hstem : m.stem = stemOf n) {g : Option Grouping}
    (h : groupModifier ts = .ok (some g, rest)) :
    Carries m (((g.map Grouping.labels).getD []).map m.restored).sum ts rest := by
  unfold groupModifier at h
  split at h
  · obtain ⟨labels, hlabels, rfl⟩ := Reading.map_pair_eq_ok.mp h
    exact .keyword (.sign hstem rfl (carries_labelsRest hstem hlabels))
  · cases h
    exact .keyword (.refl _)
  · cases h
    exact .refl _

theorem carries_binaryModifiers (hstem : m.stem = stemOf n) {modifiers : BinaryModifiers}
    (h : binaryModifiers ts = .ok (some modifiers, rest)) :
    Carries m (modifiers.labels.map m.restored).sum ts rest := by
  have hbool : Carries m 0 ts (afterBool ts).2 := by
    unfold afterBool
    split
    · exact .keyword (.refl _)
    · exact .refl _
  rcases binaryModifiers_cases h with
    ⟨rfl, rfl⟩ | ⟨allBut, word, us, vs, choice, grouping, hafter, hchoice, hgrouping, rfl⟩
  · exact hbool
  · rw [hafter] at hbool
    have hclauses : Carries m ((choice.labels.map m.restored).sum +
        (((grouping.map Grouping.labels).getD []).map m.restored).sum)
        (.keyword (.matching allBut) word :: us) rest :=
      .keyword ((carries_labelChoice hstem hchoice).trans (carries_groupModifier hstem hgrouping))
    have hboth := hbool.trans hclauses
    rw [zero_add, ← List.sum_append, ← List.map_append] at hboth
    exact hboth

/-! ### Matchers -/

/-- The variables of a token, or of the text that it stands for if it is a string. -/
def valueRestored (m : Placeholders) : Token → Multiset Text
  | .string mark body =>
    ((unquote? mark body).map m.restored).getD (m.restored (Token.string mark body).spelling)
  | t => m.restored t.spelling

theorem valueRestored_of_transparent (ht : t.Transparent m) :
    valueRestored m t = m.restored t.spelling := by
  cases t
  case string mark body =>
    cases hvalue : unquote? mark body with
    | none => simp only [valueRestored, hvalue, Option.map_none, Option.getD_none]
    | some value =>
      simp only [valueRestored, hvalue, Option.map_some, Option.getD_some]
      exact (ht value hvalue).symm
  all_goals rfl

theorem valueRestored_string {mark : Char} {body value : Text}
    (h : unquote? mark body = some value) :
    valueRestored m (.string mark body) = m.restored value := by
  simp only [valueRestored, h, Option.map_some, Option.getD_some]

theorem sum_valueRestored (hstem : m.stem = stemOf n) {piece : List Token} {matcher : Matcher}
    (h : matcherOf? piece = some (some matcher)) :
    (piece.map (valueRestored m)).sum = m.matcherRestored matcher := by
  have hmetric : m.restored metricLabel = 0 := restored_of_isFixed hstem (by decide)
  have hop : ∀ op, valueRestored m (.matchOp op) = 0 := fun op => restored_of_isSign hstem rfl
  unfold matcherOf? at h
  split at h
  · obtain ⟨value, hvalue, rfl⟩ := Option.map_eq_some_iff.mp (Option.some.inj h)
    simp [valueRestored_string hvalue, matcherRestored, hmetric]
  · obtain ⟨value, hvalue, rfl⟩ := Option.map_eq_some_iff.mp (Option.some.inj h)
    rw [List.map_cons, List.map_cons, List.map_singleton, List.sum_cons, List.sum_cons,
      List.sum_singleton, hop, zero_add, valueRestored_string hvalue]
    rfl
  · obtain ⟨name, hname, hmap⟩ := Option.bind_eq_some_iff.mp (Option.some.inj h)
    obtain ⟨value, hvalue, rfl⟩ := Option.map_eq_some_iff.mp hmap
    simp [valueRestored_string hname, valueRestored_string hvalue, matcherRestored, hop]
  · cases h

/-- The tokens between braces have the variables of the matchers that they are read as. -/
theorem tokensRestored_of_matchersOf? (hstem : m.stem = stemOf n) {ms : Matchers}
    (h : matchersOf? ts = some (some ms)) (hall : ∀ t ∈ ts, t.Transparent m) :
    m.tokensRestored ts = (ms.flatten.map m.matcherRestored).sum := by
  have hcomma : valueRestored m .comma = 0 := restored_of_isSign hstem rfl
  have hor : valueRestored m .orWord = 0 := restored_of_isSign hstem rfl
  rw [← sum_matchersOf? hcomma hor m.matcherRestored
    (fun piece matcher => sum_valueRestored hstem) h]
  exact congrArg List.sum
    (List.map_congr_left fun t ht => (valueRestored_of_transparent (hall t ht)).symm)

theorem carries_matchers (hstem : m.stem = stemOf n) {ms : Matchers}
    (h : matchers ts = .ok (some ms, rest)) : Carries m (m.tokensRestored ms.tokens) ts rest := by
  obtain ⟨inner, rfl, hinner⟩ := exists_of_matchers h
  have hclose : Carries m 0 (.rightBrace :: rest) rest := .sign hstem rfl (.refl rest)
  have hinside : Carries m (m.tokensRestored ms.tokens) (inner ++ .rightBrace :: rest)
      (.rightBrace :: rest) := by
    refine ⟨inner, rfl, fun hall => ?_⟩
    rw [tokensRestored_matchersTokens hstem]
    exact tokensRestored_of_matchersOf? hstem hinner hall
  have hall := Carries.sign hstem (t := .leftBrace) rfl (hinside.trans hclose)
  rwa [add_zero] at hall

/-! ### Behind an operand -/

theorem restored_of_durationOf {fits : Bool} {d : Option Duration} (h : durationOf t fits = .ok d)
    (ht : t.Transparent m) : m.restored t.spelling = 0 := by
  cases t
  case number => exact ht
  case duration => exact ht
  all_goals cases h

theorem restored_of_number? {v : Option Double} (h : t.number? = some v) (ht : t.Transparent m) :
    m.restored t.spelling = 0 := by
  cases t
  case number => exact ht
  case duration => exact ht
  all_goals cases h

theorem carries_signed (hstem : m.stem = stemOf n) (ts : List Token) :
    Carries m 0 ts (signed ts).2 := by
  unfold signed
  split
  · exact .sign hstem rfl (.refl _)
  · exact .sign hstem rfl (.refl _)
  · exact .refl _

theorem tokensRestored_modify? (hstem : m.stem = stemOf n) {change : Modifiers → Option Modifiers}
    {e' : Expr} (h : e.modify? change = some e') :
    m.tokensRestored e'.tokens = m.tokensRestored e.tokens := by
  cases e
  case vector s =>
    obtain ⟨modifiers, -, rfl⟩ := Option.map_eq_some_iff.mp h
    rw [tokensRestored_vector hstem, tokensRestored_vector hstem]
    rfl
  case matrix s range =>
    obtain ⟨modifiers, -, rfl⟩ := Option.map_eq_some_iff.mp h
    rw [tokensRestored_matrix hstem, tokensRestored_matrix hstem]
    rfl
  case subquery inner range step modifiers =>
    obtain ⟨modifiers', -, rfl⟩ := Option.map_eq_some_iff.mp h
    rw [tokensRestored_subquery hstem, tokensRestored_subquery hstem]
  all_goals cases h

theorem carries_range (hstem : m.stem = stemOf n) {inner : Expr}
    (h : range (some inner) ts = .ok (some e, rest)) :
    Carries m 0 ts rest ∧ m.tokensRestored e.tokens = m.tokensRestored inner.tokens := by
  have hclose : Carries m 0 (.rightBracket :: rest) rest := .sign hstem rfl (.refl rest)
  obtain ⟨_, ⟨⟩, hranged⟩ := ranged_of_range h
  cases hranged with
  | range hd hover =>
    refine ⟨.skip (restored_of_durationOf hd) hclose, ?_⟩
    unfold Expr.overRange? at hover
    split at hover
    · split_ifs at hover
      cases hover
      rw [tokensRestored_matrix hstem, tokensRestored_vector hstem]
    · cases hover
  | subquery hd =>
    exact ⟨.skip (restored_of_durationOf hd) (.sign hstem rfl hclose),
      tokensRestored_subquery hstem ..⟩
  | stepped hd hstep =>
    have hbehind := Carries.sign hstem (t := .colon) rfl (.skip (restored_of_durationOf hstep) hclose)
    exact ⟨.skip (restored_of_durationOf hd) hbehind, tokensRestored_subquery hstem ..⟩

theorem carries_offset (hstem : m.stem = stemOf n) {inner : Expr}
    (h : offset (some inner) ts = .ok (some e, rest)) :
    Carries m 0 ts rest ∧ m.tokensRestored e.tokens = m.tokensRestored inner.tokens := by
  have hfront := carries_signed (m := m) hstem ts
  obtain ⟨_, ⟨⟩, negative, t, d, hsigned, hd, hwith⟩ := exists_of_offset h
  rw [hsigned] at hfront
  exact ⟨hfront.trans (.skip (restored_of_durationOf hd) (.refl _)),
    tokensRestored_modify? hstem hwith⟩

theorem carries_time (hstem : m.stem = stemOf n) {inner : Expr}
    (h : time (some inner) ts = .ok (some e, rest)) :
    Carries m 0 ts rest ∧ m.tokensRestored e.tokens = m.tokensRestored inner.tokens := by
  have hparens : Carries m 0 (.leftParen :: .rightParen :: rest) rest :=
    .sign hstem rfl (.sign hstem rfl (.refl rest))
  obtain ⟨_, ⟨⟩, instant, hdated, hwith⟩ := dated_of_time h
  refine ⟨?_, tokensRestored_modify? hstem hwith⟩
  cases hdated with
  | queryStart => exact .keyword hparens
  | queryEnd => exact .keyword hparens
  | seconds hsigned hv =>
    have hfront := carries_signed (m := m) hstem ts
    rw [hsigned] at hfront
    exact hfront.trans (.skip (restored_of_number? hv) (.refl _))

/-! ### Expressions -/

theorem restored_of_binaryOp? (hstem : m.stem = stemOf n) {op : BinaryOp}
    (h : t.binaryOp? = some op) (ht : t.Transparent m) : m.restored t.spelling = 0 := by
  cases t
  case operator => exact restored_of_isSign hstem rfl
  case keyword => exact ht
  all_goals cases h

theorem tokensRestored_negated (hstem : m.stem = stemOf n) (e : Expr) :
    m.tokensRestored e.negated.tokens = m.tokensRestored e.tokens := by
  cases e with
  | number v =>
    have hnumber : ∀ v : Double, m.tokensRestored (Expr.number v).tokens = 0 :=
      fun v => tokensRestored_of_allFixed hstem (.doubleTokens v)
    exact (hnumber _).trans (hnumber v).symm
  | _ => exact tokensRestored_negate hstem _

/-- The arguments of an aggregation are its parameter and what it aggregates. -/
theorem tokensRestored_aggregateOf? (hstem : m.stem = stemOf n) {op : AggregateOp}
    {g : Option LabelChoice} {es : List Expr} (h : Expr.aggregateOf? op g es = some e) :
    m.tokensRestored e.tokens = (((g.map LabelChoice.labels).getD []).map m.restored).sum +
      (es.map fun e => m.tokensRestored e.tokens).sum := by
  unfold Expr.aggregateOf? at h
  split at h
  · split_ifs at h
    cases h
    exact tokensRestored_aggregate hstem ..
  · split_ifs at h
    cases h
    exact tokensRestored_aggregate hstem ..
  · cases h

/-- A phrase has the variables of the tokens that it is read from; what is behind an operand adds
those that it is read from. -/
def Phrase.Carried (m : Placeholders) : Phrase → List Token → List Token → Prop
  | .expression _ e, ts, rest | .operand e, ts, rest | .primary e, ts, rest =>
    Carries m (m.tokensRestored e.tokens) ts rest
  | .operators _ inner e, ts, rest | .suffixes inner e, ts, rest =>
    ∃ x, Carries m x ts rest ∧ m.tokensRestored e.tokens = m.tokensRestored inner.tokens + x
  | .arguments es, ts, rest | .moreArguments es, ts, rest =>
    Carries m (es.map fun e => m.tokensRestored e.tokens).sum ts rest

theorem Derives.carried (hstem : m.stem = stemOf n) {p : Phrase} (h : Derives p ts rest) :
    p.Carried m ts rest := by
  have hclose : ∀ us : List Token, Carries m 0 (.rightParen :: us) us :=
    fun us => .sign hstem rfl (.refl us)
  have hnumber : ∀ v : Double, m.tokensRestored (Expr.number v).tokens = 0 :=
    fun v => tokensRestored_of_allFixed hstem (.doubleTokens v)
  induction h with
  | number => exact .cons fun ht => ht.trans (hnumber _).symm
  | duration => exact .cons fun ht => ht.trans (hnumber _).symm
  | @string mark body value ts h =>
    refine .cons fun ht => ?_
    rw [ht value h, Expr.tokens, tokensRestored_cons, tokensRestored_nil, add_zero]
    exact (restored_quote hstem value).symm
  | paren _ ih =>
    have hall := ih.trans (hclose _)
    rw [add_zero, ← tokensRestored_paren hstem] at hall
    exact .sign hstem rfl hall
  | unnamed hms =>
    have hall := carries_matchers hstem hms
    rw [Phrase.Carried, tokensRestored_vector hstem]
    exact hall
  | named hname =>
    rw [Phrase.Carried, tokensRestored_vector hstem]
    refine .cons fun _ => ?_
    rw [restored_of_metricName? hname]
    simp [Selector.tokens, Matchers.tokens, Matchers.groups, Matchers.empty, Lexeme.spelling_ofWord]
  | namedMatchers hname hms =>
    have hall := (Carries.cons fun _ => restored_of_metricName? (m := m) hname).trans
      (carries_matchers hstem hms)
    rw [Phrase.Carried, tokensRestored_vector hstem]
    simpa [Selector.tokens, Lexeme.spelling_ofWord] using hall
  | @call name es ts us _ ih =>
    have hname :
        Carries m (m.restored name) (.identifier name :: .leftParen :: ts) (.leftParen :: ts) :=
      .cons fun _ => rfl
    rw [Phrase.Carried, tokensRestored_call hstem]
    exact hname.trans (.sign hstem rfl ih)
  | aggregate _ _ hgrouping haggregate ih =>
    have hall := ih.trans (carries_grouping hstem hgrouping)
    rw [Phrase.Carried, tokensRestored_aggregateOf? hstem haggregate, add_comm]
    exact .keyword (.sign hstem rfl hall)
  | groupedAggregate _ hgrouping _ haggregate ih =>
    have hall := (carries_grouping hstem hgrouping).trans (.sign hstem rfl ih)
    rw [Phrase.Carried, tokensRestored_aggregateOf? hstem haggregate]
    exact .keyword hall
  | suffixEnd => exact ⟨0, .refl _, (add_zero _).symm⟩
  | range hrange _ ih =>
    obtain ⟨x, hx, he⟩ := ih
    obtain ⟨hfront, hbetween⟩ := carries_range hstem hrange
    have hall := hfront.trans hx
    rw [zero_add] at hall
    exact ⟨x, .sign hstem rfl hall, hbetween ▸ he⟩
  | offset hoffset _ ih =>
    obtain ⟨x, hx, he⟩ := ih
    obtain ⟨hfront, hbetween⟩ := carries_offset hstem hoffset
    have hall := hfront.trans hx
    rw [zero_add] at hall
    exact ⟨x, .keyword hall, hbetween ▸ he⟩
  | time htime _ ih =>
    obtain ⟨x, hx, he⟩ := ih
    obtain ⟨hfront, hbetween⟩ := carries_time hstem htime
    have hall := hfront.trans hx
    rw [zero_add] at hall
    exact ⟨x, .sign hstem rfl hall, hbetween ▸ he⟩
  | minus _ ih =>
    rw [Phrase.Carried, tokensRestored_negated hstem]
    exact .sign hstem rfl ih
  | plus _ ih => exact .sign hstem rfl ih
  | unsigned _ _ ihfront ih =>
    obtain ⟨x, hx, he⟩ := ih
    rw [Phrase.Carried, he]
    exact ihfront.trans hx
  | expression _ _ ihfront ih =>
    obtain ⟨x, hx, he⟩ := ih
    rw [Phrase.Carried, he]
    exact ihfront.trans hx
  | operatorEnd => exact ⟨0, .refl _, (add_zero _).symm⟩
  | operator hop _ hmodifiers _ _ ihoperand ih =>
    obtain ⟨x, hx, he⟩ := ih
    have hright := (carries_binaryModifiers hstem hmodifiers).trans ihoperand
    refine ⟨_, .skip (restored_of_binaryOp? hstem hop) (hright.trans hx), ?_⟩
    rw [he, tokensRestored_binary hstem, add_assoc]
  | noArguments => exact hclose _
  | someArguments _ ih => exact ih
  | lastArgument _ ih =>
    have hall := ih.trans (hclose _)
    rw [add_zero] at hall
    rw [Phrase.Carried, List.map_singleton, List.sum_singleton]
    exact hall
  | moreArguments _ _ ihfirst ih =>
    rw [Phrase.Carried, List.map_cons, List.sum_cons]
    exact ihfirst.trans (.sign hstem rfl ih)

/-- All of the tokens of an expression have its variables. -/
theorem tokensRestored_of_whole (hstem : m.stem = stemOf n) (h : whole ts = .ok (some e))
    (hts : ∀ t ∈ ts, t.Transparent m) : m.tokensRestored ts = m.tokensRestored e.tokens := by
  obtain ⟨taken, htaken, hrestored⟩ := (derives_whole h).carried hstem
  rw [List.append_nil] at htaken
  rw [htaken] at hts ⊢
  exact hrestored hts

end Grammar

end PromQL

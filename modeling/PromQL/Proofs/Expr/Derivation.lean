import Mathlib
import PromQL.Proofs.Expr.Readers

/-!
# The grammar as a relation

The readers of the grammar give a value and the tokens behind it. What they read successfully is
described here by rules, one for each way to go on, in which neither faults nor missing values are
left. A property of what is read, and of the tokens that it is read from, is proved rule by rule.
-/

namespace PromQL

namespace Grammar

/-! ### Rules -/

/-- What the tokens between two places are read as. -/
inductive Phrase where
  | expression (level : Nat) (e : Expr)
  /-- What is behind a left operand makes a larger expression of it. -/
  | operators (level : Nat) (left e : Expr)
  | operand (e : Expr)
  | primary (e : Expr)
  /-- What is behind an operand makes a selector or subquery of it, or modifies it. -/
  | suffixes (inner e : Expr)
  | arguments (es : List Expr)
  | moreArguments (es : List Expr)

/-- Whether nothing that belongs to an operand stands behind it. -/
def IsSuffixEnd (ts : List Token) : Prop :=
  ∀ t ∈ ts.head?, t ≠ .leftBracket ∧ t ≠ .atSign ∧ ∀ word, t ≠ .keyword .offset word

/-- Some tokens are read as a phrase, up to others. -/
inductive Derives : Phrase → List Token → List Token → Prop where
  | number {spelling : Text} {v : Double} {ts : List Token}
      (h : Double.ofNumeral? spelling = some v) :
      Derives (.primary (.number v)) (.number spelling :: ts) ts
  | duration {spelling : Text} {d : Duration} {ts : List Token}
      (h : Duration.ofText? spelling = some d) :
      Derives (.primary (.number d.toSeconds)) (.duration spelling :: ts) ts
  | string {mark : Char} {body value : Text} {ts : List Token}
      (h : unquote? mark body = some value) :
      Derives (.primary (.string value)) (.string mark body :: ts) ts
  | paren {e : Expr} {ts us : List Token}
      (inner : Derives (.expression 0 e) ts (.rightParen :: us)) :
      Derives (.primary (.paren e)) (.leftParen :: ts) us
  | unnamed {ms : Matchers} {ts us : List Token}
      (h : matchers (.leftBrace :: ts) = .ok (some ms, us)) :
      Derives (.primary (.vector ⟨none, ms, .empty⟩)) (.leftBrace :: ts) us
  | named {t : Token} {name : Text} {ts : List Token} (hname : t.metricName? = some name) :
      Derives (.primary (.vector ⟨some name, .empty, .empty⟩)) (t :: ts) ts
  | namedMatchers {t : Token} {name : Text} {ms : Matchers} {ts us : List Token}
      (hname : t.metricName? = some name) (h : matchers ts = .ok (some ms, us)) :
      Derives (.primary (.vector ⟨some name, ms, .empty⟩)) (t :: ts) us
  | call {name : Text} {es : List Expr} {ts us : List Token}
      (arguments : Derives (.arguments es) ts us) :
      Derives (.primary (.call name es)) (.identifier name :: .leftParen :: ts) us
  | aggregate {op : AggregateOp} {word : Text} {g : Option LabelChoice} {es : List Expr} {e : Expr}
      {ts us vs : List Token} (hop : ¬ op.reserved) (arguments : Derives (.arguments es) ts us)
      (hgrouping : grouping us = .ok (some g, vs)) (h : Expr.aggregateOf? op g es = some e) :
      Derives (.primary e) (.keyword (.aggregate op) word :: .leftParen :: ts) vs
  | groupedAggregate {op : AggregateOp} {word : Text} {g : Option LabelChoice} {es : List Expr}
      {e : Expr} {ts us vs : List Token} (hop : ¬ op.reserved)
      (hgrouping : grouping ts = .ok (some g, .leftParen :: us))
      (arguments : Derives (.arguments es) us vs) (h : Expr.aggregateOf? op g es = some e) :
      Derives (.primary e) (.keyword (.aggregate op) word :: ts) vs
  | suffixEnd {e : Expr} {ts : List Token} (h : IsSuffixEnd ts) : Derives (.suffixes e e) ts ts
  | range {inner between e : Expr} {ts us vs : List Token}
      (h : range (some inner) ts = .ok (some between, us))
      (behind : Derives (.suffixes between e) us vs) :
      Derives (.suffixes inner e) (.leftBracket :: ts) vs
  | offset {inner between e : Expr} {word : Text} {ts us vs : List Token}
      (h : offset (some inner) ts = .ok (some between, us))
      (behind : Derives (.suffixes between e) us vs) :
      Derives (.suffixes inner e) (.keyword .offset word :: ts) vs
  | time {inner between e : Expr} {ts us vs : List Token}
      (h : time (some inner) ts = .ok (some between, us))
      (behind : Derives (.suffixes between e) us vs) :
      Derives (.suffixes inner e) (.atSign :: ts) vs
  | minus {e : Expr} {ts us : List Token}
      (inner : Derives (.expression BinaryOp.pow.precedence e) ts us) :
      Derives (.operand e.negated) (.operator .sub :: ts) us
  | plus {e : Expr} {ts us : List Token}
      (inner : Derives (.expression BinaryOp.pow.precedence e) ts us) :
      Derives (.operand e) (.operator .add :: ts) us
  | unsigned {inner e : Expr} {ts us vs : List Token} (front : Derives (.primary inner) ts us)
      (behind : Derives (.suffixes inner e) us vs) : Derives (.operand e) ts vs
  | expression {level : Nat} {left e : Expr} {ts us vs : List Token}
      (front : Derives (.operand left) ts us) (behind : Derives (.operators level left e) us vs) :
      Derives (.expression level e) ts vs
  | operatorEnd {level : Nat} {e : Expr} {ts : List Token} (h : Stops level ts) :
      Derives (.operators level e e) ts ts
  | operator {level : Nat} {op : BinaryOp} {m : BinaryModifiers} {left right e : Expr} {t : Token}
      {ts us vs ws : List Token} (hop : t.binaryOp? = some op) (hlevel : level ≤ op.precedence)
      (hmodifiers : binaryModifiers ts = .ok (some m, us))
      (operand : Derives (.expression op.rightPrecedence right) us vs)
      (behind : Derives (.operators level (.binary op m left right) e) vs ws) :
      Derives (.operators level left e) (t :: ts) ws
  | noArguments {ts : List Token} : Derives (.arguments []) (.rightParen :: ts) ts
  | someArguments {es : List Expr} {ts us : List Token}
      (arguments : Derives (.moreArguments es) ts us) : Derives (.arguments es) ts us
  | lastArgument {e : Expr} {ts us : List Token}
      (first : Derives (.expression 0 e) ts (.rightParen :: us)) :
      Derives (.moreArguments [e]) ts us
  | moreArguments {e : Expr} {es : List Expr} {ts us vs : List Token}
      (first : Derives (.expression 0 e) ts (.comma :: us))
      (others : Derives (.moreArguments es) us vs) : Derives (.moreArguments (e :: es)) ts vs

/-! ### Behind an operand -/

variable {e : Expr} {ts us rest : List Token}

/-- What is in brackets behind an operand is its range, or makes a subquery of it. -/
inductive Ranged (inner : Expr) : Expr → List Token → List Token → Prop where
  | range {d : Duration} {e : Expr} {t : Token} {ts : List Token}
      (hd : durationOf t true = .ok (some d)) (h : inner.overRange? d = some e) :
      Ranged inner e (t :: .rightBracket :: ts) ts
  | subquery {d : Duration} {t : Token} {ts : List Token} (hd : durationOf t true = .ok (some d)) :
      Ranged inner (.subquery inner d none .empty) (t :: .colon :: .rightBracket :: ts) ts
  | stepped {d step : Duration} {t u : Token} {ts : List Token}
      (hd : durationOf t true = .ok (some d)) (hstep : durationOf u true = .ok (some step)) :
      Ranged inner (.subquery inner d (some step) .empty)
        (t :: .colon :: u :: .rightBracket :: ts) ts

/-- The tokens of a time behind its sign. -/
inductive Dated : Instant → List Token → List Token → Prop where
  | queryStart {word : Text} {ts : List Token} :
      Dated .queryStart (.keyword .queryStart word :: .leftParen :: .rightParen :: ts) ts
  | queryEnd {word : Text} {ts : List Token} :
      Dated .queryEnd (.keyword .queryEnd word :: .leftParen :: .rightParen :: ts) ts
  | seconds {negative : Bool} {v : Double} {instant : Instant} {t : Token} {ts us : List Token}
      (hsigned : signed ts = (negative, t :: us)) (hv : t.number? = some (some v))
      (h : Instant.ofSeconds? (if negative then v.negate else v) = some instant) :
      Dated instant ts us

theorem ranged_of_range {inner? : Option Expr} (h : range inner? ts = .ok (some e, rest)) :
    ∃ inner, inner? = some inner ∧ Ranged inner e ts rest := by
  unfold range at h
  split at h
  · obtain ⟨d?, hd, h⟩ := Reading.bind_eq_ok.mp h
    simp only [Reading.pure_eq_ok, Prod.mk.injEq] at h
    obtain ⟨hsome, rfl⟩ := h
    obtain ⟨inner, rfl, hbind⟩ := Option.bind_eq_some_iff.mp hsome
    obtain ⟨d, rfl, hover⟩ := Option.bind_eq_some_iff.mp hbind
    exact ⟨inner, rfl, .range hd hover⟩
  · obtain ⟨d?, hd, h⟩ := Reading.bind_eq_ok.mp h
    split at h
    · simp only [Reading.pure_eq_ok, Prod.mk.injEq] at h
      obtain ⟨hsome, rfl⟩ := h
      obtain ⟨inner, rfl, hmap⟩ := Option.bind_eq_some_iff.mp hsome
      obtain ⟨d, rfl, rfl⟩ := Option.map_eq_some_iff.mp hmap
      exact ⟨inner, rfl, .subquery hd⟩
    · obtain ⟨step?, hstep, h⟩ := Reading.bind_eq_ok.mp h
      simp only [Reading.pure_eq_ok, Prod.mk.injEq] at h
      obtain ⟨hsome, rfl⟩ := h
      obtain ⟨inner, rfl, hbind⟩ := Option.bind_eq_some_iff.mp hsome
      obtain ⟨d, rfl, hmap⟩ := Option.bind_eq_some_iff.mp hbind
      obtain ⟨step, rfl, rfl⟩ := Option.map_eq_some_iff.mp hmap
      exact ⟨inner, rfl, .stepped hd hstep⟩
    · cases h
  · cases h

theorem exists_of_offset {inner? : Option Expr} (h : offset inner? ts = .ok (some e, rest)) :
    ∃ inner, inner? = some inner ∧ ∃ negative t d, signed ts = (negative, t :: rest) ∧
      durationOf t (mayFollow rest) = .ok (some d) ∧
      inner.withOffset? ⟨negative, d⟩ = some e := by
  unfold offset at h
  split at h
  · next negative t us hsigned =>
    obtain ⟨d?, hd, h⟩ := Reading.bind_eq_ok.mp h
    simp only [Reading.pure_eq_ok, Prod.mk.injEq] at h
    obtain ⟨hsome, rfl⟩ := h
    obtain ⟨inner, rfl, hbind⟩ := Option.bind_eq_some_iff.mp hsome
    obtain ⟨d, rfl, hwith⟩ := Option.bind_eq_some_iff.mp hbind
    exact ⟨inner, rfl, negative, t, d, hsigned, hd, hwith⟩
  · cases h

theorem dated_of_time {inner? : Option Expr} (h : time inner? ts = .ok (some e, rest)) :
    ∃ inner, inner? = some inner ∧ ∃ instant, Dated instant ts rest ∧
      inner.withTime? instant = some e := by
  unfold time at h
  split at h
  · simp only [Except.ok.injEq, Prod.mk.injEq] at h
    obtain ⟨hsome, rfl⟩ := h
    obtain ⟨inner, rfl, hwith⟩ := Option.bind_eq_some_iff.mp hsome
    exact ⟨inner, rfl, _, .queryStart, hwith⟩
  · simp only [Except.ok.injEq, Prod.mk.injEq] at h
    obtain ⟨hsome, rfl⟩ := h
    obtain ⟨inner, rfl, hwith⟩ := Option.bind_eq_some_iff.mp hsome
    exact ⟨inner, rfl, _, .queryEnd, hwith⟩
  · split at h
    · next hsigned =>
      split at h
      · next hv =>
        simp only [Except.ok.injEq, Prod.mk.injEq] at h
        obtain ⟨hsome, rfl⟩ := h
        obtain ⟨inner, rfl, hbind⟩ := Option.bind_eq_some_iff.mp hsome
        obtain ⟨v, hmap, hbind⟩ := Option.bind_eq_some_iff.mp hbind
        obtain ⟨v, rfl, rfl⟩ := Option.map_eq_some_iff.mp hmap
        obtain ⟨instant, hinstant, hwith⟩ := Option.bind_eq_some_iff.mp hbind
        exact ⟨inner, rfl, instant, .seconds hsigned hv hinstant, hwith⟩
      · cases h
    · cases h

/-! ### Reading by rules -/

/-- Every expression that is read from the tokens has a derivation. -/
def Derivable (ts : List Token) : Prop :=
  ∀ level e rest, readExpression level ts = .ok (some e, rest) →
    Derives (.expression level e) ts rest

theorem derives_moreArguments {es : List Expr} {n : Nat}
    (ih : ∀ us : List Token, us.length < n → Derivable us) (hts : ts.length < n)
    (h : readMoreArguments ts = .ok (some es, rest)) : Derives (.moreArguments es) ts rest := by
  induction hm : ts.length using Nat.strongRecOn generalizing ts es with
  | ind m ih' =>
    subst hm
    rw [readMoreArguments_eq] at h
    obtain ⟨e?, us, he, h⟩ := Reading.bind_pair_eq_ok.mp h
    have hlength := length_readExpression he
    simp only at h
    split at h
    · simp only [Reading.pure_eq_ok, Prod.mk.injEq] at h
      obtain ⟨hmap, rfl⟩ := h
      obtain ⟨e, rfl, rfl⟩ := Option.map_eq_some_iff.mp hmap
      exact .lastArgument (ih ts hts 0 e _ he)
    · next vs =>
      obtain ⟨es?, ws, hes, h⟩ := Reading.bind_pair_eq_ok.mp h
      simp only [Reading.pure_eq_ok, Prod.mk.injEq] at h
      obtain ⟨hbind, rfl⟩ := h
      obtain ⟨e, rfl, hmap⟩ := Option.bind_eq_some_iff.mp hbind
      obtain ⟨es, rfl, rfl⟩ := Option.map_eq_some_iff.mp hmap
      rw [List.length_cons] at hlength
      exact .moreArguments (ih ts hts 0 e _ he) (ih' vs.length (by omega) (by omega) hes rfl)
    · cases h

theorem derives_arguments {es : List Expr} {n : Nat}
    (ih : ∀ us : List Token, us.length < n → Derivable us) (hts : ts.length < n)
    (h : readArguments ts = .ok (some es, rest)) : Derives (.arguments es) ts rest := by
  by_cases hclose : ts.head? = some .rightParen
  · obtain ⟨us, rfl⟩ := List.head?_eq_some_iff.mp hclose
    cases h
    exact .noArguments
  · rw [readArguments_cons hclose] at h
    exact .someArguments (derives_moreArguments ih hts h)

theorem eq_of_expect {t : Token} (h : expect t ts = .ok rest) : ts = t :: rest := by
  unfold expect at h
  split at h
  · split at h
    · next heq =>
      cases h
      rw [heq]
    · cases h
  · cases h

theorem derives_primary (ih : ∀ us : List Token, us.length < ts.length → Derivable us)
    (h : readPrimary ts = .ok (some e, rest)) : Derives (.primary e) ts rest := by
  rw [readPrimary_eq] at h
  split at h
  case h_1 spelling us =>
    simp only [Except.ok.injEq, Prod.mk.injEq] at h
    obtain ⟨hmap, rfl⟩ := h
    obtain ⟨v, hv, rfl⟩ := Option.map_eq_some_iff.mp hmap
    exact .number hv
  case h_2 spelling us =>
    simp only [Except.ok.injEq, Prod.mk.injEq] at h
    obtain ⟨hmap, rfl⟩ := h
    obtain ⟨d, hd, rfl⟩ := Option.map_eq_some_iff.mp hmap
    exact .duration hd
  case h_3 mark body us =>
    simp only [Except.ok.injEq, Prod.mk.injEq] at h
    obtain ⟨hmap, rfl⟩ := h
    obtain ⟨v, hv, rfl⟩ := Option.map_eq_some_iff.mp hmap
    exact .string hv
  case h_4 us =>
    obtain ⟨e?, vs, he, h⟩ := Reading.bind_pair_eq_ok.mp h
    obtain ⟨ws, hclose, h⟩ := Reading.bind_eq_ok.mp h
    simp only [Reading.pure_eq_ok, Prod.mk.injEq] at h
    obtain ⟨hmap, rfl⟩ := h
    obtain ⟨e, rfl, rfl⟩ := Option.map_eq_some_iff.mp hmap
    obtain rfl := eq_of_expect hclose
    exact .paren (ih us (by simp) 0 e _ he)
  case h_5 us =>
    obtain ⟨ms, hms, rfl⟩ := Reading.map_pair_eq_ok.mp h
    exact .unnamed hms
  case h_6 name us =>
    obtain ⟨es, hes, rfl⟩ := Reading.map_pair_eq_ok.mp h
    exact .call (derives_arguments ih (by simp only [List.length_cons]; omega) hes)
  case h_7 op word us =>
    split at h
    · cases h
    · next hop =>
      obtain ⟨es?, vs, hes, h⟩ := Reading.bind_pair_eq_ok.mp h
      obtain ⟨g?, ws, hg, h⟩ := Reading.bind_pair_eq_ok.mp h
      simp only [Reading.pure_eq_ok, Prod.mk.injEq] at h
      obtain ⟨hbind, rfl⟩ := h
      obtain ⟨es, rfl, hchoice⟩ := Option.bind_eq_some_iff.mp hbind
      obtain ⟨g, rfl, haggregate⟩ := Option.bind_eq_some_iff.mp hchoice
      exact .aggregate hop (derives_arguments ih (by simp only [List.length_cons]; omega) hes) hg
        haggregate
  case h_8 op word allBut word' us =>
    split at h
    · cases h
    · next hop =>
      obtain ⟨g?, vs, hg, h⟩ := Reading.bind_pair_eq_ok.mp h
      obtain ⟨ws, hparen, h⟩ := Reading.bind_eq_ok.mp h
      obtain ⟨es?, xs, hes, h⟩ := Reading.bind_pair_eq_ok.mp h
      simp only [Reading.pure_eq_ok, Prod.mk.injEq] at h
      obtain ⟨hbind, rfl⟩ := h
      obtain ⟨es, rfl, hchoice⟩ := Option.bind_eq_some_iff.mp hbind
      obtain ⟨g, rfl, haggregate⟩ := Option.bind_eq_some_iff.mp hchoice
      obtain rfl := eq_of_expect hparen
      have hlength := length_grouping hg
      simp only [List.length_cons] at hlength
      exact .groupedAggregate hop hg
        (derives_arguments ih (by simp only [List.length_cons]; omega) hes) haggregate
  case h_9 t us _ _ _ _ _ _ _ _ =>
    split at h
    · next name hname =>
      unfold selector at h
      split at h
      · obtain ⟨ms, hms, rfl⟩ := Reading.map_pair_eq_ok.mp h
        exact .namedMatchers hname hms
      · cases h
        exact .named hname
    · cases h
  case h_10 => cases h

theorem derives_suffixes {inner? : Option Expr} (h : readSuffixes inner? ts = .ok (some e, rest)) :
    ∃ inner, inner? = some inner ∧ Derives (.suffixes inner e) ts rest := by
  induction hn : ts.length using Nat.strongRecOn generalizing ts inner? with
  | ind n ih =>
    subst hn
    rw [readSuffixes_eq] at h
    split at h
    · obtain ⟨e₁, us, hrange, h⟩ := Reading.bind_pair_eq_ok.mp h
      have hlength := length_range hrange
      obtain ⟨between, rfl, hbehind⟩ := ih us.length (by rw [List.length_cons]; omega) h rfl
      obtain ⟨inner, rfl, -⟩ := ranged_of_range hrange
      exact ⟨inner, rfl, .range hrange hbehind⟩
    · obtain ⟨e₁, us, hoffset, h⟩ := Reading.bind_pair_eq_ok.mp h
      have hlength := length_offset hoffset
      obtain ⟨between, rfl, hbehind⟩ := ih us.length (by rw [List.length_cons]; omega) h rfl
      obtain ⟨inner, rfl, -⟩ := exists_of_offset hoffset
      exact ⟨inner, rfl, .offset hoffset hbehind⟩
    · obtain ⟨e₁, us, htime, h⟩ := Reading.bind_pair_eq_ok.mp h
      have hlength := length_time htime
      obtain ⟨between, rfl, hbehind⟩ := ih us.length (by rw [List.length_cons]; omega) h rfl
      obtain ⟨inner, rfl, -⟩ := dated_of_time htime
      exact ⟨inner, rfl, .time htime hbehind⟩
    · next hbracket hoffset htime =>
      cases h
      refine ⟨e, rfl, .suffixEnd fun t ht => ?_⟩
      obtain ⟨us, rfl⟩ := List.head?_eq_some_iff.mp ht
      refine ⟨?_, ?_, ?_⟩
      · rintro rfl
        exact hbracket us rfl
      · rintro rfl
        exact htime us rfl
      · rintro word rfl
        exact hoffset word us rfl

theorem derives_operand (ih : ∀ us : List Token, us.length < ts.length → Derivable us)
    (h : readOperand ts = .ok (some e, rest)) : Derives (.operand e) ts rest := by
  by_cases hminus : ts.head? = some (.operator .sub)
  · obtain ⟨us, rfl⟩ := List.head?_eq_some_iff.mp hminus
    rw [readOperand_minus] at h
    obtain ⟨e, he, rfl⟩ := Reading.map_pair_eq_ok.mp h
    exact .minus (ih us (Nat.lt_succ_self _) _ e rest he)
  · by_cases hplus : ts.head? = some (.operator .add)
    · obtain ⟨us, rfl⟩ := List.head?_eq_some_iff.mp hplus
      rw [readOperand_plus] at h
      exact .plus (ih us (Nat.lt_succ_self _) _ e rest h)
    · rw [readOperand_unsigned hminus hplus] at h
      obtain ⟨inner?, us, hinner, h⟩ := Reading.bind_pair_eq_ok.mp h
      obtain ⟨inner, rfl, hbehind⟩ := derives_suffixes h
      exact .unsigned (derives_primary ih hinner) hbehind

theorem derives_operators {level n : Nat} {left? : Option Expr}
    (ih : ∀ us : List Token, us.length < n → Derivable us) (hts : ts.length ≤ n)
    (h : readOperators level left? ts = .ok (some e, rest)) :
    ∃ left, left? = some left ∧ Derives (.operators level left e) ts rest := by
  induction hm : ts.length using Nat.strongRecOn generalizing ts left? with
  | ind m ih' =>
    subst hm
    by_cases hstops : Stops level ts
    · rw [readOperators_stops hstops] at h
      cases h
      exact ⟨e, rfl, .operatorEnd hstops⟩
    · obtain ⟨op, hhead, hprecedence⟩ : ∃ op, ts.head?.bind Token.binaryOp? = some op ∧
          level ≤ op.precedence := by
        simpa [Stops] using hstops
      cases ts with
      | nil => cases hhead
      | cons t us =>
        have hop : t.binaryOp? = some op := hhead
        rw [readOperators_operator hop hprecedence] at h
        obtain ⟨m?, vs, hmodifiers, h⟩ := Reading.bind_pair_eq_ok.mp h
        obtain ⟨r?, ws, hr, h⟩ := Reading.bind_pair_eq_ok.mp h
        have h₁ := length_binaryModifiers hmodifiers
        have h₂ := length_readExpression hr
        rw [List.length_cons] at hts ih'
        obtain ⟨b, hb, hbehind⟩ := ih' ws.length (by omega) (by omega) h rfl
        obtain ⟨l, rfl, hbind⟩ := Option.bind_eq_some_iff.mp hb
        obtain ⟨m, rfl, hmap⟩ := Option.bind_eq_some_iff.mp hbind
        obtain ⟨r, rfl, rfl⟩ := Option.map_eq_some_iff.mp hmap
        exact ⟨l, rfl, .operator hop hprecedence hmodifiers (ih vs (by omega) _ r ws hr) hbehind⟩

/-- Whatever is read has a derivation. -/
theorem derivable (ts : List Token) : Derivable ts := by
  induction hn : ts.length using Nat.strongRecOn generalizing ts with
  | ind n ih =>
    subst hn
    have ih : ∀ us : List Token, us.length < ts.length → Derivable us :=
      fun us hus => ih _ hus us rfl
    intro level e rest h
    rw [readExpression_eq] at h
    obtain ⟨left?, us, hleft, h⟩ := Reading.bind_pair_eq_ok.mp h
    have hlength := (shortens _).operand hleft
    obtain ⟨left, rfl, hbehind⟩ := derives_operators ih (Nat.le_of_lt hlength) h
    exact .expression (derives_operand ih hleft) hbehind

/-- All of the tokens of an expression are derived. -/
theorem derives_whole (h : whole ts = .ok (some e)) : Derives (.expression 0 e) ts [] := by
  rw [whole_eq] at h
  obtain ⟨e?, us, he, h⟩ := Reading.bind_pair_eq_ok.mp h
  cases us with
  | cons u us => cases h
  | nil =>
    cases h
    exact derivable ts 0 e [] he

end Grammar

end PromQL

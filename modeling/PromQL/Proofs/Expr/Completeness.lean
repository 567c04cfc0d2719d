import PromQL.Proofs.Expr.Matchers
import PromQL.Proofs.Expr.Rereading

/-!
# Written expressions are read back

The grammar gives on the tokens of an expression what can be said of the expression without its
tokens, in front of any tokens that do not go on it. The proof is by recursion on the expression. An
operand is read back in front of brackets as well, since it may be the inner part of a subquery.
-/

namespace PromQL

/-! ### What follows -/

namespace Grammar

/-- An expression may end in front of the tokens. -/
def Ends (rest : List Token) : Prop :=
  ∀ t ∈ rest.head?, t.binaryOp?.isSome ∨ t = .rightParen ∨ t = .comma

/-- An operand may end in front of the tokens, or go on with brackets. -/
def Continues (rest : List Token) : Prop :=
  ∀ t ∈ rest.head?, t.binaryOp?.isSome ∨ t = .rightParen ∨ t = .comma ∨ t = .leftBracket

/-- The tokens do not go on a name. -/
structure Apart (rest : List Token) : Prop where
  brace : rest.head? ≠ some .leftBrace
  paren : rest.head? ≠ some .leftParen
  ungrouped : Ungrouped rest

theorem Ends.continues {rest : List Token} (h : Ends rest) : Continues rest := by
  intro t ht
  rcases h t ht with h | h | h <;> simp [h]

theorem Continues.apart {rest : List Token} (h : Continues rest) : Apart rest := by
  constructor
  · intro hhead
    rcases h _ hhead with h | h | h | h <;> simp [Token.binaryOp?] at h
  · intro hhead
    rcases h _ hhead with h | h | h | h <;> simp [Token.binaryOp?] at h
  · intro allBut word hhead
    rcases h _ hhead with h | h | h | h <;> simp [Token.binaryOp?] at h

theorem readSuffixes_ends {rest : List Token} (h : Ends rest) (e : Option Expr) :
    readSuffixes e rest = .ok (e, rest) := by
  rw [readSuffixes_eq]
  split
  · rcases h _ rfl with h | h | h <;> simp [Token.binaryOp?] at h
  · rcases h _ rfl with h | h | h <;> simp [Token.binaryOp?] at h
  · rcases h _ rfl with h | h | h <;> simp [Token.binaryOp?] at h
  · rfl

theorem ends_rightParen (rest : List Token) : Ends (.rightParen :: rest) := by simp [Ends]

theorem ends_comma (rest : List Token) : Ends (.comma :: rest) := by simp [Ends]

theorem stops_rightParen (level : Nat) (rest : List Token) :
    Stops level (.rightParen :: rest) := by simp [Stops, Token.binaryOp?]

theorem stops_comma (level : Nat) (rest : List Token) : Stops level (.comma :: rest) := by
  simp [Stops, Token.binaryOp?]

theorem Stops.mono {level level' : Nat} {rest : List Token} (h : Stops level rest)
    (hle : level ≤ level') : Stops level' rest :=
  fun op hop => Nat.lt_of_lt_of_le (h op hop) hle

/-! ### Selectors -/

theorem readPrimary_name {t : Token} {name : Text} (ht : t.metricName? = some name)
    {ts : List Token} (hparen : ts.head? ≠ some .leftParen) (hgroup : Ungrouped ts) :
    readPrimary (t :: ts) = selector (some name) ts := by
  rw [readPrimary_eq]
  split
  case h_9 t us _ _ _ _ _ _ _ _ heq =>
    cases heq
    rw [ht]
  case h_6 heq =>
    cases heq
    exact absurd rfl hparen
  case h_7 heq =>
    cases heq
    exact absurd rfl hparen
  case h_8 heq =>
    cases heq
    exact absurd rfl (hgroup _ _)
  case h_10 heq => cases heq
  all_goals
    next heq =>
      cases heq
      cases ht

theorem readPrimary_selector {s : Selector} (hs : s.Formed) {rest : List Token}
    (hrest : Apart rest) :
    readPrimary (s.tokens ++ rest) = .ok (some (.vector ⟨s.name, s.matchers, .empty⟩), rest) := by
  cases hname : s.name with
  | none =>
    have hne : s.matchers.groups ≠ [] := by
      intro hgroups
      apply hs.nonempty hname
      rw [Matchers.eq_empty_of_groups hgroups]
      rfl
    have hread := matchers_tokens hs.matchers hne rest
    rw [Selector.tokens, hname]
    simp only [Option.map_none, Option.getD_none, List.nil_append]
    rw [Matchers.tokens, if_neg hne, List.cons_append, List.cons_append] at hread ⊢
    rw [readPrimary_eq]
    simp only [selector]
    rw [hread]
    rfl
  | some name =>
    have hword := (hs.name name hname).2
    rw [Selector.tokens, hname, Option.map_some, Option.getD_some, List.append_assoc,
      List.singleton_append]
    by_cases hne : s.matchers.groups = []
    · rw [Matchers.eq_empty_of_groups hne]
      simp only [Matchers.tokens, Matchers.groups, Matchers.empty, List.isEmpty_nil, if_true,
        List.nil_append]
      rw [readPrimary_name hword hrest.paren hrest.ungrouped]
      unfold selector
      split
      · exact absurd rfl hrest.brace
      · rfl
    · have hread := matchers_tokens hs.matchers hne rest
      rw [Matchers.tokens, if_neg hne, List.cons_append, List.cons_append] at hread ⊢
      rw [readPrimary_name hword (by simp) (by simp [Ungrouped])]
      simp only [selector]
      rw [hread]
      rfl

/-! ### Expressions -/

/-- An operand that is read back, and then what is behind it. -/
def OperandBack (e : Expr) : Prop :=
  ∀ rest, Continues rest → (do
    let (x, us) ← readPrimary (e.tokens ++ rest)
    readSuffixes x us) = (do
    let x ← e.reread
    readSuffixes x rest)

/-- An expression is read back in front of tokens that do not go on it. -/
def ExpressionBack (e : Expr) : Prop :=
  ∀ level rest, level ≤ e.level → level ≤ 6 → Ends rest → Stops e.stop rest →
    readExpression level (e.tokens ++ rest) = (do
      let x ← e.reread
      readOperators level x rest)

/-- How an expression is read back, as an operand if it is one, and as an expression. -/
structure ReadBack (e : Expr) : Prop where
  operand : e.level = 7 → e ≠ .number (.infinite false) → OperandBack e
  expression : ExpressionBack e

theorem OperandBack.expressionBack {e : Expr} (h : OperandBack e) {t : Token} {ts : List Token}
    (htokens : e.tokens = t :: ts) (ht : ∀ op, t ≠ .operator op) : ExpressionBack e := by
  intro level rest _ _ hrest _
  rw [readExpression_eq, htokens, List.cons_append,
    readOperand_unsigned (by simp [ht]) (by simp [ht]), ← List.cons_append, ← htokens,
    h rest hrest.continues]
  cases e.reread with
  | error error => rfl
  | ok x =>
    simp only [Reading.ok_bind, readSuffixes_ends hrest]

theorem OperandBack.readBack {e : Expr} (he : e.Formed) (hlevel : e.level = 7)
    (hne : e ≠ .number (.infinite false)) (h : OperandBack e) : ReadBack e := by
  obtain ⟨t, ts, htokens, hhead⟩ := e.exists_head he
  exact ⟨fun _ _ => h, h.expressionBack htokens (hhead.unsigned hlevel hne)⟩

/-- An operand that is read in one piece. -/
theorem ReadBack.ofPrimary {e : Expr} (he : e.Formed) (hlevel : e.level = 7)
    (hne : e ≠ .number (.infinite false))
    (h : ∀ rest, Continues rest → readPrimary (e.tokens ++ rest) = (do
      let x ← e.reread
      pure (x, rest))) : ReadBack e := by
  apply OperandBack.readBack he hlevel hne
  intro rest hrest
  rw [h rest hrest]
  cases e.reread <;> rfl

theorem ReadBack.ofSigned {e : Expr} (hlevel : e.level = 6) (h : ExpressionBack e) : ReadBack e :=
  ⟨fun h7 => absurd (hlevel.symm.trans h7) (by decide), h⟩

/-- Operators that bind less tightly take up what is left by ones that bind more tightly. -/
theorem readOperators_readOperators {level level' : Nat} (hle : level ≤ level') (e : Option Expr)
    (ts : List Token) : (do
      let (x, us) ← readOperators level' e ts
      readOperators level x us) = readOperators level e ts := by
  induction h : ts.length using Nat.strongRecOn generalizing e ts with
  | ind n ih =>
    subst h
    by_cases hstop : Stops level' ts
    · rw [readOperators_stops hstop]
      rfl
    · simp only [Stops, not_forall, Nat.not_lt] at hstop
      obtain ⟨op, hop, hprecedence⟩ := hstop
      cases ts with
      | nil => cases hop
      | cons t ts =>
        simp only [List.head?_cons, Option.bind_some] at hop
        rw [readOperators_operator hop hprecedence,
          readOperators_operator hop (Nat.le_trans hle hprecedence), bind_assoc]
        apply Reading.bind_congr rfl
        intro a ha
        rw [bind_assoc]
        apply Reading.bind_congr rfl
        intro b hb
        have h₁ := length_binaryModifiers ha
        have h₂ := length_readExpression hb
        exact ih b.2.length (by simp only [List.length_cons]; omega) _ _ rfl

/-! ### Literals -/

theorem readExpression_number (level : Nat) (spelling : Text) {rest : List Token}
    (hrest : Ends rest) : readExpression level (.number spelling :: rest) =
      readOperators level ((Double.ofNumeral? spelling).map .number) rest := by
  rw [readExpression_eq, readOperand_unsigned (by simp) (by simp), readPrimary_eq]
  simp only [Reading.ok_bind, readSuffixes_ends hrest]

/-- A number behind a sign is read as a number. -/
theorem readBack_negative {v : Double} {spelling : Text} (hlevel : (Expr.number v).level = 6)
    (htokens : v.tokens = [.operator .sub, .number spelling])
    (hvalue : Double.ofNumeral? spelling = some v.negate) : ReadBack (.number v) := by
  apply ReadBack.ofSigned hlevel
  intro level rest _ _ hrest hstop
  have hstop6 : Stops BinaryOp.pow.precedence rest := hstop.mono (Nat.le_of_eq hlevel)
  rw [Expr.tokens, htokens, List.cons_append, List.singleton_append, readExpression_eq,
    readOperand_minus, readExpression_number _ _ hrest, hvalue, readOperators_stops hstop6]
  simp [Expr.reread, Expr.negated, Reading.ok_bind, pure, Except.pure]

theorem readBack_number (v : Double) : ReadBack (.number v) := by
  have hnan : Double.ofNumeral? "NaN".toList = some .nan := by decide
  have hinf : Double.ofNumeral? "Inf".toList = some (.infinite false) := by decide
  cases v with
  | nan =>
    apply ReadBack.ofPrimary (by simp [Expr.Formed]) rfl (by simp)
    intro rest _
    rw [Expr.tokens, Double.tokens, List.singleton_append, readPrimary_eq]
    simp only [hnan]
    rfl
  | infinite negative =>
    cases negative with
    | true => exact readBack_negative rfl rfl hinf
    | false =>
      refine ⟨fun _ hne => absurd rfl hne, ?_⟩
      intro level rest _ hlevel hrest _
      rw [Expr.tokens, Double.tokens, List.cons_append, List.singleton_append, if_neg (by simp),
        readExpression_eq, readOperand_plus, readExpression_number _ _ hrest, hinf]
      exact readOperators_readOperators hlevel _ rest
  | finite negative rank =>
    cases negative with
    | true => exact readBack_negative rfl rfl (Double.ofNumeral?_magnitude rank)
    | false =>
      apply ReadBack.ofPrimary (by simp [Expr.Formed]) rfl (by simp)
      intro rest _
      rw [Expr.tokens, Double.tokens, signTokens, if_neg (by simp), List.nil_append,
        List.singleton_append, readPrimary_eq]
      simp only [Double.ofNumeral?_magnitude]
      rfl

theorem readBack_string (v : Text) : ReadBack (.string v) := by
  apply ReadBack.ofPrimary (by simp [Expr.Formed]) rfl (by simp)
  intro rest _
  rw [Expr.tokens, quotedToken, List.singleton_append, readPrimary_eq]
  simp only [unquote?_escape]
  rfl

/-! ### Selectors with what is behind them -/

/-- The modifiers of a selector do not go on it. -/
theorem apart_modifiers (m : Modifiers) {rest : List Token} (hrest : Continues rest) :
    Apart (m.tokens ++ rest) := by
  obtain ⟨t, o⟩ := m
  cases t with
  | some t => cases t <;> constructor <;> simp [Modifiers.tokens, Instant.tokens, Ungrouped]
  | none =>
    cases o with
    | some o => constructor <;> simp [Modifiers.tokens, Offset.tokens, Ungrouped]
    | none => exact hrest.apart

theorem readBack_vector {s : Selector} (hs : s.Formed) (hm : s.modifiers.Separate) :
    ReadBack (.vector s) := by
  have he : (Expr.vector s).Formed := hs
  apply OperandBack.readBack he rfl (by simp)
  intro rest hrest
  rw [Expr.tokens, List.append_assoc, readPrimary_selector hs (apart_modifiers _ hrest),
    Reading.ok_bind]
  simp only
  rw [readSuffixes_modifiers (by simp [Expr.modifiers?]) hm]
  rw [Expr.reread, Reading.ok_bind]
  cases s.modifiers.reread <;> rfl

theorem readBack_matrix {s : Selector} (hs : s.Formed) (hm : s.modifiers.Separate)
    (range : Duration) : ReadBack (.matrix s range) := by
  have he : (Expr.matrix s range).Formed := hs
  apply OperandBack.readBack he rfl (by simp)
  intro rest hrest
  have hbracket :
      Continues (.leftBracket :: (range.tokens ++ .rightBracket :: s.modifiers.tokens) ++ rest) := by
    simp [Continues]
  rw [Expr.tokens, List.append_assoc, readPrimary_selector hs hbracket.apart, Reading.ok_bind]
  simp only [List.cons_append, List.append_assoc]
  rw [readSuffixes_range, Expr.reread]
  split
  · rfl
  · rw [Reading.ok_bind]
    cases range.reread with
    | none => exact readSuffixes_modifiers (by simp) hm rest
    | some d =>
      have h := readSuffixes_modifiers (e := some (.matrix ⟨s.name, s.matchers, .empty⟩ d))
        (by simp [Expr.modifiers?]) hm rest
      refine h.trans ?_
      cases s.modifiers.reread <;> rfl

theorem readBack_subquery {inner : Expr} (hformed : inner.Formed) (hinner : ReadBack inner)
    (hlevel : inner.level = 7) (hnumber : inner.isNumber = false) (range : Duration)
    (step : Option Duration) {m : Modifiers} (hm : m.Separate) :
    ReadBack (.subquery inner range step m) := by
  have hne : inner ≠ .number (.infinite false) := by
    rintro rfl
    cases hnumber
  have he : (Expr.subquery inner range step m).Formed := ⟨hformed, hlevel, hnumber⟩
  apply OperandBack.readBack he rfl (by simp)
  intro rest hrest
  have hback := hinner.operand hlevel hne (.leftBracket :: (range.tokens ++ .colon ::
      ((step.map Duration.tokens).getD [] ++ .rightBracket :: (m.tokens ++ rest))))
    (by simp [Continues])
  rw [Expr.tokens, List.append_assoc]
  simp only [List.cons_append, List.append_assoc] at hback ⊢
  rw [hback, Expr.reread, bind_assoc]
  apply Reading.bind_congr rfl
  intro x _
  rw [readSuffixes_subquery]
  split
  · rfl
  · rw [Reading.ok_bind]
    generalize hbase : (x.bind fun e => range.reread.bind fun d =>
      (Duration.rereadStep step).map fun s => Expr.subquery e d s .empty) = base
    have hempty : ∀ e ∈ base, e.modifiers? = some .empty := by
      intro e he
      rw [← hbase] at he
      simp only [Option.mem_def, Option.bind_eq_some_iff, Option.map_eq_some_iff] at he
      obtain ⟨_, -, _, -, _, -, rfl⟩ := he
      rfl
    rw [readSuffixes_modifiers hempty hm, ← hbase]
    cases x with
    | none => rfl
    | some e =>
      cases range.reread with
      | none => rfl
      | some d =>
        cases Duration.rereadStep step with
        | none => rfl
        | some s => cases m.reread <;> rfl

/-! ### Parentheses and signs -/

theorem readBack_paren {inner : Expr} (hformed : inner.Formed) (hinner : ReadBack inner) :
    ReadBack (.paren inner) := by
  have he : (Expr.paren inner).Formed := hformed
  apply ReadBack.ofPrimary he rfl (by simp)
  intro rest _
  have hback := hinner.expression 0 (.rightParen :: rest) (Nat.zero_le _) (by simp)
    (ends_rightParen rest) (stops_rightParen _ rest)
  simp only [readOperators_stops (stops_rightParen 0 rest)] at hback
  rw [Expr.tokens, List.cons_append, List.append_assoc, List.singleton_append, readPrimary_eq]
  simp only
  rw [hback, Expr.reread, bind_assoc, bind_assoc]
  apply Reading.bind_congr rfl
  intro x _
  rfl

theorem precedence_lt_of_leftPrecedence {op : BinaryOp} {level : Nat} (hlevel : 6 ≤ level)
    (h : op.leftPrecedence ≤ level) : op.precedence < level := by
  cases op <;> simp only [BinaryOp.leftPrecedence, BinaryOp.precedence] at h ⊢ <;> omega

theorem precedence_lt_rightPrecedence {op op' : BinaryOp}
    (h : op.leftPrecedence ≤ op'.precedence) : op.precedence < op'.rightPrecedence := by
  have hop : op.precedence < op.leftPrecedence ∨
      op.leftPrecedence = op.precedence ∧ op.precedence < 6 := by
    cases op <;> decide
  have hop' : op'.precedence < op'.rightPrecedence ∨
      op'.precedence = op'.rightPrecedence ∧ op'.precedence = 6 := by
    cases op' <;> decide
  omega

/-- Only operators bind less tightly than signs, or stop at another level than their own. -/
theorem stop_eq_level {e : Expr} (h : ∀ op m left right, e ≠ .binary op m left right) :
    e.stop = e.level ∧ 6 ≤ e.level := by
  constructor
  · unfold Expr.stop
    split
    · exact absurd rfl (h _ _ _ _)
    · rfl
  · unfold Expr.level
    split
    · exact absurd rfl (h _ _ _ _)
    all_goals decide

theorem level_le_stop (e : Expr) : e.level ≤ e.stop := by
  by_cases h : ∀ op m left right, e ≠ .binary op m left right
  · rw [(stop_eq_level h).1]
  · simp only [not_forall, not_not] at h
    obtain ⟨op, m, left, right, rfl⟩ := h
    change op.precedence ≤ op.rightPrecedence
    cases op <;> decide

/-- An operator with its left operand does not go on that operand. -/
theorem precedence_lt_stop {op : BinaryOp} {left : Expr} (h : op.leftPrecedence ≤ left.level) :
    op.precedence < left.stop := by
  by_cases hleft : ∀ op m l r, left ≠ .binary op m l r
  · obtain ⟨hstop, hsix⟩ := stop_eq_level hleft
    rw [hstop]
    exact precedence_lt_of_leftPrecedence hsix h
  · simp only [not_forall, not_not] at hleft
    obtain ⟨op', m, l, r, rfl⟩ := hleft
    exact precedence_lt_rightPrecedence h

theorem readBack_negate {inner : Expr} (hinner : ReadBack inner) (hlevel : 6 ≤ inner.level) :
    ReadBack (.negate inner) := by
  apply ReadBack.ofSigned rfl
  intro level rest _ _ hrest hstop
  have hstop6 : Stops BinaryOp.pow.precedence rest := hstop
  have hback := hinner.expression BinaryOp.pow.precedence rest hlevel (Nat.le_refl 6) hrest
    (hstop6.mono (Nat.le_trans hlevel (level_le_stop inner)))
  simp only [readOperators_stops hstop6] at hback
  rw [Expr.tokens, List.cons_append, readExpression_eq, readOperand_minus, hback, Expr.reread,
    bind_assoc, bind_assoc, bind_assoc]
  apply Reading.bind_congr rfl
  intro x _
  rfl

/-! ### Operators -/

theorem binaryOp?_token (op : BinaryOp) : op.token.binaryOp? = some op := by cases op <;> rfl

theorem readBack_binary {op : BinaryOp} {m : BinaryModifiers} {left right : Expr}
    (hformed : right.Formed) (hleft : ReadBack left) (hright : ReadBack right)
    (hleftLevel : op.leftPrecedence ≤ left.level) (hrightLevel : op.rightPrecedence ≤ right.level)
    (hbare : m.isBare → right.opens = false) : ReadBack (.binary op m left right) := by
  constructor
  · intro hlevel
    cases op <;> cases hlevel
  intro level rest hlevel hsix hrest hstop
  obtain ⟨t, ts, htokens, hhead⟩ := right.exists_head hformed
  have hunmodified : Unmodified (right.tokens ++ rest) := by
    intro u hu
    rw [htokens] at hu
    cases hu
    exact Token.isModifier_of_starts hhead.starts
  have hparen : m.isBare → (right.tokens ++ rest).head? ≠ some .leftParen := by
    intro hm
    rw [htokens, List.cons_append, List.head?_cons, Ne, Option.some.injEq, hhead.paren]
    simp [hbare hm]
  have hprecedence : op.precedence ≤ op.leftPrecedence ∧ op.rightPrecedence ≤ 6 := by
    cases op <;> decide
  have hl := hleft.expression level (op.token :: (m.tokens ++ (right.tokens ++ rest)))
    (Nat.le_trans hlevel (Nat.le_trans hprecedence.1 hleftLevel)) hsix
    (by simp [Ends, binaryOp?_token])
    (by simpa [Stops, binaryOp?_token] using precedence_lt_stop hleftLevel)
  have hr := hright.expression op.rightPrecedence rest hrightLevel hprecedence.2 hrest
    (hstop.mono (Nat.le_trans hrightLevel (level_le_stop right)))
  have hstop : Stops op.rightPrecedence rest := hstop
  simp only [readOperators_stops hstop] at hr
  rw [Expr.tokens, List.append_assoc, List.cons_append, List.append_assoc, hl, Expr.reread,
    bind_assoc]
  apply Reading.bind_congr rfl
  intro l _
  rw [readOperators_operator (binaryOp?_token op) hlevel]
  refine (modifiers_operand_tokens m op.rightPrecedence (fun modifiers r us =>
    readOperators level (l.bind fun l => modifiers.bind fun m => r.map fun r =>
      .binary op m l r) us) hunmodified hparen).trans ?_
  split
  · rw [hr, bind_assoc, bind_assoc]
    apply Reading.bind_congr rfl
    intro r _
    rfl
  · rfl

/-! ### Arguments -/

theorem readMoreArguments_tokens {es : List Expr} (hne : es ≠ []) (hes : ∀ e ∈ es, ReadBack e)
    (rest : List Token) :
    readMoreArguments ([Token.comma].intercalate (es.map Expr.tokens) ++ .rightParen :: rest) =
      (do
        let xs ← Expr.rereads es
        pure (xs, rest)) := by
  induction es with
  | nil => exact absurd rfl hne
  | cons e es ih =>
    have he := hes e List.mem_cons_self
    cases es with
    | nil =>
      have hback := he.expression 0 (.rightParen :: rest) (Nat.zero_le _) (by simp)
        (ends_rightParen rest) (stops_rightParen _ rest)
      simp only [readOperators_stops (stops_rightParen 0 rest)] at hback
      rw [List.map_singleton, List.intercalate_singleton, readMoreArguments_eq, hback,
        Expr.rereads, bind_assoc, bind_assoc]
      apply Reading.bind_congr rfl
      intro x _
      cases x <;> rfl
    | cons e' es =>
      have ih := ih (List.cons_ne_nil e' es) fun e he => hes e (List.mem_cons_of_mem _ he)
      have hback := he.expression 0 (.comma :: ([Token.comma].intercalate
        ((e' :: es).map Expr.tokens) ++ .rightParen :: rest)) (Nat.zero_le _) (by simp)
        (ends_comma _) (stops_comma _ _)
      simp only [readOperators_stops (stops_comma 0 _)] at hback
      rw [List.map_cons] at ih hback
      rw [List.map_cons, List.map_cons, List.intercalate_cons_cons, List.append_assoc,
        List.append_assoc, List.singleton_append, readMoreArguments_eq, hback, Expr.rereads,
        bind_assoc, bind_assoc]
      apply Reading.bind_congr rfl
      intro x _
      simp only [Reading.ok_bind, pure, Except.pure]
      rw [ih, bind_assoc, bind_assoc]
      apply Reading.bind_congr rfl
      intro xs _
      rfl

/-- Arguments are read back up to the closing parenthesis. -/
theorem readArguments_tokens {es : List Expr} (hformed : ∀ e ∈ es, e.Formed)
    (hes : ∀ e ∈ es, ReadBack e) (rest : List Token) :
    readArguments ([Token.comma].intercalate (es.map Expr.tokens) ++ .rightParen :: rest) =
      (do
        let xs ← Expr.rereads es
        pure (xs, rest)) := by
  cases es with
  | nil => rfl
  | cons e es =>
    rw [readArguments_cons, readMoreArguments_tokens (List.cons_ne_nil e es) hes]
    obtain ⟨t, ts, htokens, hhead⟩ := e.exists_head (hformed e List.mem_cons_self)
    have hne : t ≠ .rightParen := by
      rintro rfl
      cases hhead.starts
    cases es <;> simp [htokens, hne, List.intercalate_cons_cons]

theorem readBack_call {function : Text} {arguments : List Expr} (hname : IsPlainWord function)
    (hformed : ∀ e ∈ arguments, e.Formed) (hes : ∀ e ∈ arguments, ReadBack e)
    (he : (Expr.call function arguments).Formed) : ReadBack (.call function arguments) := by
  apply ReadBack.ofPrimary he rfl (by simp)
  intro rest _
  rw [Expr.tokens, hname.2, Expr.tokensOf_eq_map, List.cons_append, List.cons_append,
    List.append_assoc, List.singleton_append, readPrimary_eq]
  simp only
  rw [readArguments_tokens hformed hes, Expr.reread, bind_assoc, bind_assoc]
  apply Reading.bind_congr rfl
  intro xs _
  rfl

theorem aggregateOf?_rereads {op : AggregateOp} {parameter : Option Expr} (inner : Expr)
    (g : Option LabelChoice) (hparameter : parameter.isSome = op.hasParameter) :
    (do
      let xs ← Expr.rereads (parameter.toList ++ [inner])
      pure (xs.bind fun es => Expr.aggregateOf? op g es)) = (do
        let p ← Expr.rereadOption parameter
        let e ← inner.reread
        pure (p.bind fun p => e.map (.aggregate op g p))) := by
  cases parameter with
  | none =>
    have hop : op.hasParameter = false := hparameter.symm
    simp only [Option.toList_none, List.nil_append, Expr.rereads, Expr.rereadOption,
      Reading.ok_bind, bind_assoc]
    apply Reading.bind_congr rfl
    intro e _
    cases e <;> simp [Expr.aggregateOf?, hop, pure, Except.pure, Reading.ok_bind]
  | some p =>
    have hop : op.hasParameter = true := hparameter.symm
    simp only [Option.toList_some, List.singleton_append, Expr.rereads, Expr.rereadOption,
      Reading.ok_bind, bind_assoc]
    apply Reading.bind_congr rfl
    intro p _
    simp only [pure, Except.pure, Reading.ok_bind]
    apply Reading.bind_congr rfl
    intro e _
    cases p <;> cases e <;> simp [Expr.aggregateOf?, hop]

theorem readBack_aggregate {op : AggregateOp} (g : Option LabelChoice) {parameter : Option Expr}
    {inner : Expr} (hparameter : ∀ e ∈ parameter, ReadBack e) (hinner : ReadBack inner)
    (he : (Expr.aggregate op g parameter inner).Formed) :
    ReadBack (.aggregate op g parameter inner) := by
  obtain ⟨hop, hsome, hformed, hinnerFormed⟩ := id he
  apply ReadBack.ofPrimary he rfl (by simp)
  intro rest hrest
  have harguments (us : List Token) : readArguments (Expr.parameterTokens parameter ++
      (inner.tokens ++ .rightParen :: us)) = (do
        let xs ← Expr.rereads (parameter.toList ++ [inner])
        pure (xs, us)) := by
    rw [← List.append_assoc, ← Expr.intercalate_parameter]
    have hmem {P : Expr → Prop} (hp : ∀ e ∈ parameter, P e) (hi : P inner) :
        ∀ e ∈ parameter.toList ++ [inner], P e := by
      intro e he
      rcases List.mem_append.mp he with he | he
      · exact hp e (Option.mem_toList.mp he)
      · exact List.mem_singleton.mp he ▸ hi
    apply readArguments_tokens (hmem ?_ hinnerFormed) (hmem hparameter hinner)
    rintro e rfl
    exact hformed
  have hvalue := aggregateOf?_rereads inner g hsome
  have hgroup := grouping_tokens g hrest.apart.ungrouped
  rw [Expr.tokens, List.cons_append, Expr.reread, readPrimary_eq]
  simp only [List.append_assoc, List.cons_append, List.nil_append]
  cases g with
  | none =>
    simp only [Option.map_none, Option.getD_none, List.nil_append, Option.all_none, if_true, hop,
      Bool.false_eq_true, if_false] at hgroup ⊢
    rw [harguments, ← hvalue, bind_assoc, bind_assoc]
    apply Reading.bind_congr rfl
    intro xs _
    simp only [pure, Except.pure, Reading.ok_bind]
    rw [hgroup]
    cases xs <;> rfl
  | some c =>
    have hclause : grouping (c.groupingTokens ++ (.leftParen :: (Expr.parameterTokens parameter ++
        (inner.tokens ++ .rightParen :: rest)))) =
        if c.isLegible then .ok (some (some c), .leftParen :: (Expr.parameterTokens parameter ++
        (inner.tokens ++ .rightParen :: rest))) else malformed :=
      grouping_tokens (some c) (by simp [Ungrouped])
    have htokens : ∃ allBut word us, c.groupingTokens = .keyword (.grouping allBut) word :: us := by
      cases c <;> exact ⟨_, _, _, rfl⟩
    obtain ⟨allBut, word, us, hus⟩ := htokens
    rw [hus, List.cons_append] at hclause
    simp only [Option.map_some, Option.getD_some, hus, List.cons_append, Option.all_some, hop,
      Bool.false_eq_true, if_false]
    rw [hclause]
    split
    · simp only [Reading.ok_bind, expect, if_true]
      rw [harguments, ← hvalue, bind_assoc, bind_assoc]
      apply Reading.bind_congr rfl
      intro xs _
      cases xs <;> rfl
    · rfl

end Grammar

/-! ### The theorem -/

namespace Expr

open Grammar

mutual

/-- The tokens of an expression are read back. -/
theorem readBack (e : Expr) (he : e.Formed) (hs : e.Separate) : ReadBack e := by
  match e with
  | number v => exact readBack_number v
  | string v => exact readBack_string v
  | vector s => exact readBack_vector he hs
  | matrix s range => exact readBack_matrix he hs range
  | subquery inner range step modifiers =>
    obtain ⟨hinner, hlevel, hnumber⟩ := he
    exact readBack_subquery hinner (readBack inner hinner hs.1) hlevel hnumber range step hs.2
  | paren inner => exact readBack_paren he (readBack inner he hs)
  | negate inner => exact readBack_negate (readBack inner he.1 hs) he.2.1
  | call function arguments =>
    have hboth := readBacks arguments he.2 hs
    exact readBack_call he.1 (fun e h => (hboth e h).1) (fun e h => (hboth e h).2) he
  | aggregate op grouping parameter inner =>
    refine readBack_aggregate grouping ?_ (readBack inner he.2.2.2 hs.2) he
    match parameter, he.2.2.1, hs.1 with
    | none, _, _ => simp
    | some p, hp, hsp =>
      intro e he
      cases he
      exact readBack p hp hsp
  | binary op modifiers left right =>
    obtain ⟨hleft, hright, hleftLevel, hrightLevel, -⟩ := he
    exact readBack_binary hright (readBack left hleft hs.1) (readBack right hright hs.2.1)
      hleftLevel hrightLevel hs.2.2

theorem readBacks (es : List Expr) (hes : AllFormed es) (hs : AllSeparate es) :
    ∀ e ∈ es, e.Formed ∧ ReadBack e := by
  match es, hes, hs with
  | [], _, _ => simp
  | e :: es, ⟨he, hes⟩, ⟨hse, hs⟩ =>
    exact List.forall_mem_cons.mpr ⟨⟨he, readBack e he hse⟩, readBacks es hes hs⟩

end

/-- The tokens of an expression make up what they are read as, and nothing else. -/
theorem whole_tokens {e : Expr} (he : e.Formed) (hs : e.Separate) : whole e.tokens = e.reread := by
  have h := (readBack e he hs).expression 0 [] (Nat.zero_le _) (by simp) (by simp [Ends])
    (by simp [Stops])
  rw [List.append_nil] at h
  rw [whole_eq, h, bind_assoc]
  cases e.reread with
  | error error => rfl
  | ok x => rfl

end Expr

end PromQL

import PromQL.Proofs.Expr.Progress

/-!
# Readers without a count of steps

The readers of expressions with as many steps as they can need. They have the equations of the
grammar, in which no count of steps is left.
-/

namespace PromQL

namespace Grammar

/-! ### Readers -/

/-- An operand without what is behind it. -/
def readPrimary (ts : List Token) : Reading (Read Expr) := primary (4 * ts.length + 1) ts

/-- Everything behind an operand. -/
def readSuffixes (e : Option Expr) (ts : List Token) : Reading (Read Expr) :=
  suffixes (ts.length + 1) e ts

/-- An operand with its signs and with what is behind it. -/
def readOperand (ts : List Token) : Reading (Read Expr) := operand (4 * ts.length + 2) ts

/-- An expression of operators that bind at least so tightly. -/
def readExpression (level : Nat) (ts : List Token) : Reading (Read Expr) :=
  expression (4 * ts.length + 3) level ts

/-- What is behind the left operand of operators that bind at least so tightly. -/
def readOperators (level : Nat) (left : Option Expr) (ts : List Token) : Reading (Read Expr) :=
  operators (4 * ts.length + 1) level left ts

/-- Arguments up to the closing parenthesis. -/
def readArguments (ts : List Token) : Reading (Read (List Expr)) :=
  arguments (4 * ts.length + 5) ts

/-- At least one argument, and the others up to the closing parenthesis. -/
def readMoreArguments (ts : List Token) : Reading (Read (List Expr)) :=
  moreArguments (4 * ts.length + 4) ts

theorem whole_eq (ts : List Token) : whole ts = (do
    match ← readExpression 0 ts with
    | (e, []) => pure e
    | _ => .error .malformed) := by
  rw [whole, (settled ts).expression 0 (by omega) (Nat.le_refl _)]
  rfl

theorem readExpression_eq (level : Nat) (ts : List Token) : readExpression level ts = (do
    let (left, us) ← readOperand ts
    readOperators level left us) := by
  rw [readExpression, expression]
  refine Reading.bind_congr rfl fun a ha => ?_
  have := (shortens _).operand ha
  exact (settled a.2).operators _ _ (by omega) (Nat.le_refl _)

theorem length_readExpression {level : Nat} {ts rest : List Token} {e : Option Expr}
    (h : readExpression level ts = .ok (e, rest)) : rest.length < ts.length :=
  (shortens _).expression h

theorem readOperand_minus (ts : List Token) : readOperand (.operator .sub :: ts) = (do
    let (e, us) ← readExpression BinaryOp.pow.precedence ts
    pure (e.map Expr.negated, us)) := by
  rw [readOperand, operand]
  refine Reading.bind_congr ?_ fun a ha => rfl
  exact (settled ts).expression _ (by simp only [List.length_cons]; omega) (Nat.le_refl _)

theorem readOperand_plus (ts : List Token) :
    readOperand (.operator .add :: ts) = readExpression BinaryOp.pow.precedence ts := by
  rw [readOperand, operand]
  exact (settled ts).expression _ (by simp only [List.length_cons]; omega) (Nat.le_refl _)

theorem readOperand_unsigned {ts : List Token} (hminus : ts.head? ≠ some (.operator .sub))
    (hplus : ts.head? ≠ some (.operator .add)) : readOperand ts = (do
      let (e, us) ← readPrimary ts
      readSuffixes e us) := by
  rw [readOperand, operand.eq_def]
  simp only
  split
  · exact absurd rfl hminus
  · exact absurd rfl hplus
  · exact Reading.bind_congr ((settled ts).primary (by omega) (Nat.le_refl _)) fun a ha => rfl

theorem readOperators_operator {level : Nat} {left : Option Expr} {t : Token} {ts : List Token}
    {op : BinaryOp} (hop : t.binaryOp? = some op) (hlevel : level ≤ op.precedence) :
    readOperators level left (t :: ts) = (do
      let (modifiers, us) ← binaryModifiers ts
      let (right, vs) ← readExpression op.rightPrecedence us
      readOperators level
        (left.bind fun l => modifiers.bind fun m => right.map fun r => .binary op m l r) vs) := by
  rw [readOperators, operators]
  simp only [List.head?_cons, Option.bind_some, hop, if_pos hlevel, List.tail_cons]
  refine Reading.bind_congr rfl fun a ha => ?_
  have h₁ := length_binaryModifiers ha
  have hright := (settled a.2).expression op.rightPrecedence (m := 4 * (t :: ts).length)
    (by simp only [List.length_cons]; omega) (Nat.le_refl _)
  refine Reading.bind_congr hright fun b hb => ?_
  have h₂ := (shortens _).expression hb
  exact (settled b.2).operators _ _ (by simp only [List.length_cons]; omega) (Nat.le_refl _)

/-- Whether no operator that binds at least so tightly starts some tokens. -/
def Stops (level : Nat) (ts : List Token) : Prop :=
  ∀ op, ts.head?.bind Token.binaryOp? = some op → op.precedence < level

theorem readOperators_stops {level : Nat} {left : Option Expr} {ts : List Token}
    (h : Stops level ts) : readOperators level left ts = .ok (left, ts) := by
  rw [readOperators, operators.eq_def]
  simp only
  split
  · next op hop =>
    have := h op hop
    rw [if_neg (by omega)]
  · rfl

theorem readArguments_cons {ts : List Token} (h : ts.head? ≠ some .rightParen) :
    readArguments ts = readMoreArguments ts := by
  rw [readArguments, arguments.eq_def]
  simp only
  split
  · exact absurd rfl h
  · exact (settled ts).moreArguments (by omega) (Nat.le_refl _)

theorem readMoreArguments_eq (ts : List Token) : readMoreArguments ts = (do
    let (e, us) ← readExpression 0 ts
    match us with
    | .rightParen :: us => pure (e.map ([·]), us)
    | .comma :: us =>
      let (es, vs) ← readMoreArguments us
      pure (e.bind fun e => es.map (e :: ·), vs)
    | _ => malformed) := by
  rw [readMoreArguments, moreArguments]
  refine Reading.bind_congr rfl fun a ha => ?_
  have h := (shortens _).expression ha
  obtain ⟨e, us⟩ := a
  simp only at h ⊢
  split
  · rfl
  · simp only [List.length_cons] at h
    refine Reading.bind_congr ?_ fun _ _ => rfl
    exact (settled _).moreArguments (by omega) (Nat.le_refl _)
  · -- No rule fits: what is behind the argument is neither a comma nor a parenthesis.
    grind

/-! ### Operands -/

theorem readPrimary_eq (ts : List Token) : readPrimary ts =
    match ts with
    | .number spelling :: ts => .ok ((Double.ofNumeral? spelling).map .number, ts)
    | .duration spelling :: ts =>
      .ok ((Duration.ofText? spelling).map fun d => .number d.toSeconds, ts)
    | .string mark body :: ts => .ok ((unquote? mark body).map .string, ts)
    | .leftParen :: ts => do
      let (e, ts) ← readExpression 0 ts
      pure (e.map .paren, ← expect .rightParen ts)
    | .leftBrace :: _ => selector none ts
    | .identifier name :: .leftParen :: ts => do
      let (es, ts) ← readArguments ts
      pure (es.map (.call name), ts)
    | .keyword (.aggregate op) _ :: .leftParen :: ts =>
      if op.reserved then malformed
      else do
        let (es, ts) ← readArguments ts
        let (choice, ts) ← grouping ts
        pure (es.bind fun es => choice.bind fun g => Expr.aggregateOf? op g es, ts)
    | .keyword (.aggregate op) _ :: .keyword (.grouping allBut) word :: ts =>
      if op.reserved then malformed
      else do
        let (choice, ts) ← grouping (.keyword (.grouping allBut) word :: ts)
        let ts ← expect .leftParen ts
        let (es, ts) ← readArguments ts
        pure (es.bind fun es => choice.bind fun g => Expr.aggregateOf? op g es, ts)
    | t :: ts =>
      match t.metricName? with
      | some name => selector (some name) ts
      | none => malformed
    | [] => malformed := by
  rw [readPrimary, primary.eq_def]
  simp only
  split
  case h_4 =>
    exact Reading.bind_congr ((settled _).expression 0 (by simp only [List.length_cons]; omega)
      (Nat.le_refl _)) fun _ _ => rfl
  case h_6 =>
    exact Reading.bind_congr ((settled _).arguments (by simp only [List.length_cons]; omega)
      (Nat.le_refl _)) fun _ _ => rfl
  case h_7 =>
    refine ite_congr rfl (fun _ => rfl) fun _ => ?_
    exact Reading.bind_congr ((settled _).arguments (by simp only [List.length_cons]; omega)
      (Nat.le_refl _)) fun _ _ => rfl
  case h_8 =>
    refine ite_congr rfl (fun _ => rfl) fun _ => ?_
    refine Reading.bind_congr rfl fun a ha => Reading.bind_congr rfl fun us hus => ?_
    have h₁ := length_grouping ha
    have h₂ := length_expect hus
    simp only [List.length_cons] at h₁ ⊢
    exact Reading.bind_congr ((settled us).arguments (by omega) (Nat.le_refl _)) fun _ _ => rfl
  case h_9 =>
    -- None of the heads that have a rule of their own fits.
    grind
  all_goals rfl

theorem readSuffixes_eq (e : Option Expr) (ts : List Token) : readSuffixes e ts =
    match ts with
    | .leftBracket :: ts => do
      let (e, ts) ← range e ts
      readSuffixes e ts
    | .keyword .offset _ :: ts => do
      let (e, ts) ← offset e ts
      readSuffixes e ts
    | .atSign :: ts => do
      let (e, ts) ← time e ts
      readSuffixes e ts
    | ts => .ok (e, ts) := by
  rw [readSuffixes, suffixes.eq_def]
  simp only
  split
  case h_1 =>
    refine Reading.bind_congr rfl fun a ha => suffixes_eq_suffixes ?_ (Nat.lt_succ_self _)
    have := length_range ha
    simp only [List.length_cons]
    omega
  case h_2 =>
    refine Reading.bind_congr rfl fun a ha => suffixes_eq_suffixes ?_ (Nat.lt_succ_self _)
    have := length_offset ha
    simp only [List.length_cons]
    omega
  case h_3 =>
    refine Reading.bind_congr rfl fun a ha => suffixes_eq_suffixes ?_ (Nat.lt_succ_self _)
    have := length_time ha
    simp only [List.length_cons]
    omega
  case h_4 => grind

end Grammar

end PromQL

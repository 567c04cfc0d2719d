import PromQL.Proofs.Expr.Legible
import PromQL.Proofs.Expr.Matchers

/-!
# The weight of expressions

The parentheses, durations and finite numbers of an expression weigh one each, and so do those of
its tokens, apart from the parenthesis behind a group modifier. An expression never weighs less than
its tokens, and more only if some part of it runs into the next one.
-/

namespace PromQL

/-! ### Tokens -/

/-- Finite numbers weigh one. -/
def Double.weight : Double → Nat
  | .finite _ _ => 1
  | _ => 0

/-- Left parentheses, durations and finite numbers weigh one. -/
def Token.weight : Token → Nat
  | leftParen | duration _ => 1
  | number spelling => ((Double.ofNumeral? spelling).map Double.weight).getD 0
  | _ => 0

/-- The weight of tokens, in which a parenthesis behind a group modifier does not count. -/
def tally : List Token → Nat
  | [] => 0
  | .keyword (.group _) _ :: .leftParen :: ts => tally ts
  | t :: ts => t.weight + tally ts

/-- Whether a token is the word of a group modifier. -/
def Token.IsGroupWord (t : Token) : Prop := ∃ many word, t = .keyword (.group many) word

@[simp] theorem tally_nil : tally [] = 0 := rfl

theorem tally_cons_of {t : Token} {ts : List Token}
    (h : t.IsGroupWord → ts.head? ≠ some .leftParen) : tally (t :: ts) = t.weight + tally ts := by
  rw [tally.eq_def]
  split
  · next heq => cases heq
  · next heq =>
    cases heq
    exact absurd rfl (h ⟨_, _, rfl⟩)
  · next heq =>
    cases heq
    rfl

theorem tally_cons {t : Token} (h : ¬ t.IsGroupWord) (ts : List Token) :
    tally (t :: ts) = t.weight + tally ts :=
  tally_cons_of fun ht => absurd ht h

theorem tally_group (many : Side) (word : Text) (ts : List Token) :
    tally (.keyword (.group many) word :: .leftParen :: ts) = tally ts := rfl

theorem tally_append_of_weightless {xs : List Token}
    (h : ∀ t ∈ xs, ¬ t.IsGroupWord ∧ t.weight = 0) (ys : List Token) :
    tally (xs ++ ys) = tally ys := by
  induction xs with
  | nil => rfl
  | cons x xs ih =>
    have hx := h x List.mem_cons_self
    rw [List.cons_append, tally_cons hx.1, hx.2, ih fun t ht => h t (List.mem_cons_of_mem x ht),
      Nat.zero_add]

/-- No tokens in front of others take away from their weight, unless those start with a
parenthesis. -/
theorem tally_le_append {ys : List Token} (h : ys.head? ≠ some .leftParen) (xs : List Token) :
    tally ys ≤ tally (xs ++ ys) := by
  induction xs using tally.induct with
  | case1 => exact Nat.le_refl _
  | case2 _ _ xs ih => exact ih
  | case3 t xs hnot ih =>
    rw [List.cons_append, tally_cons_of]
    · exact Nat.le_trans ih (Nat.le_add_left _ _)
    · rintro ⟨many, word, rfl⟩ hhead
      cases xs with
      | nil => exact h hhead
      | cons x xs =>
        cases hhead
        exact hnot many word xs rfl rfl

/-! ### Expressions -/

/-- The number of a selector's modifiers. -/
def Modifiers.weight (m : Modifiers) : Nat := m.time.isSome.toNat + m.offset.isSome.toNat

namespace Expr

mutual

/-- The weight of an expression: its parentheses, durations and finite numbers. -/
def weight : Expr → Nat
  | number value => value.weight
  | string _ | extension _ => 0
  | vector s => s.modifiers.weight
  | matrix s _ => 1 + s.modifiers.weight
  | subquery inner _ step modifiers => inner.weight + 1 + step.isSome.toNat + modifiers.weight
  | paren inner => 1 + inner.weight
  | negate inner => inner.weight
  | call _ arguments => 1 + weights arguments
  | aggregate _ grouping parameter inner =>
    grouping.isSome.toNat + 1 + parameterWeight parameter + inner.weight
  | binary _ modifiers left right => left.weight + modifiers.matching.isSome.toNat + right.weight

/-- The weight of several expressions. -/
def weights : List Expr → Nat
  | [] => 0
  | e :: es => e.weight + weights es

/-- The weight of an expression that may be missing. -/
def parameterWeight : Option Expr → Nat
  | none => 0
  | some e => e.weight

end

/-- A relation of weights that goes on to sums. -/
structure Additive (r : Nat → Nat → Prop) : Prop where
  refl : ∀ a, r a a
  add : ∀ {a b c d}, r a b → r c d → r (a + c) (b + d)

/-- A change relates the weights of the parts that it gives to those of the parts that it gets. -/
structure Change.Weighs (f : Change) (r : Nat → Nat → Prop) : Prop where
  selector : ∀ s, r (f.selector s).modifiers.weight s.modifiers.weight
  step : ∀ s, r (f.step s).isSome.toNat s.isSome.toNat
  modifiers : ∀ m, r (f.modifiers m).weight m.weight
  operator : ∀ m, r (f.operator m).matching.isSome.toNat m.matching.isSome.toNat

variable {f : Change} {r : Nat → Nat → Prop}

mutual

theorem weight_map (hr : Additive r) (hf : f.Weighs r) (e : Expr) :
    r (e.map f).weight e.weight := by
  match e with
  | number _ | string _ | extension _ => exact hr.refl _
  | vector s => exact hf.selector s
  | matrix s _ => exact hr.add (hr.refl 1) (hf.selector s)
  | subquery inner _ step modifiers =>
    exact hr.add (hr.add (hr.add (weight_map hr hf inner) (hr.refl 1)) (hf.step step))
      (hf.modifiers modifiers)
  | paren inner => exact hr.add (hr.refl 1) (weight_map hr hf inner)
  | negate inner => exact weight_map hr hf inner
  | call _ arguments => exact hr.add (hr.refl 1) (weights_mapAll hr hf arguments)
  | aggregate _ _ none inner => exact hr.add (hr.refl _) (weight_map hr hf inner)
  | aggregate _ _ (some p) inner =>
    exact hr.add (hr.add (hr.refl _) (weight_map hr hf p)) (weight_map hr hf inner)
  | binary _ modifiers left right =>
    exact hr.add (hr.add (weight_map hr hf left) (hf.operator modifiers)) (weight_map hr hf right)

theorem weights_mapAll (hr : Additive r) (hf : f.Weighs r) (es : List Expr) :
    r (weights (mapAll f es)) (weights es) := by
  match es with
  | [] => exact hr.refl 0
  | e :: es => exact hr.add (weight_map hr hf e) (weights_mapAll hr hf es)

end

/-- The canonical form may lack the parentheses of a clause that ignores no labels. -/
theorem weight_canonical_le (e : Expr) : e.canonical.weight ≤ e.weight := by
  refine weight_map ⟨Nat.le_refl, Nat.add_le_add⟩ ⟨?_, ?_, ?_, ?_⟩ e
  · exact fun _ => Nat.le_refl _
  · exact fun _ => Nat.le_refl _
  · exact fun _ => Nat.le_refl _
  · intro m
    simp only [BinaryModifiers.canonical]
    split <;> simp

theorem weight_cut (e : Expr) : e.cut.weight = e.weight := by
  have hmodifiers (m : Modifiers) : m.cut.weight = m.weight := by
    simp [Modifiers.weight, Modifiers.cut]
  refine weight_map ⟨fun _ => rfl, fun h h' => h ▸ h' ▸ rfl⟩ ⟨?_, ?_, ?_, ?_⟩ e
  · exact fun s => hmodifiers s.modifiers
  · simp
  · exact hmodifiers
  · exact fun _ => rfl

end Expr

/-! ### The weight of written parts -/

theorem Double.ofNumeral?_congr {a b : Text} (h : a.map Char.toLower = b.map Char.toLower) :
    ofNumeral? a = ofNumeral? b := by
  rw [ofNumeral?, ofNumeral?, h]

theorem Lexeme.weight_ofWord (w : Text) : (ofWord w).weight = 0 := by
  have hinf : (Token.number "inf".toList).weight = 0 := by decide
  have hnan : (Token.number "nan".toList).weight = 0 := by decide
  unfold ofWord
  simp only
  split
  · rfl
  · split
    · next hnumber =>
      rw [Bool.or_eq_true, beq_iff_eq, beq_iff_eq] at hnumber
      rcases hnumber with h | h
      · have hw : w.map Char.toLower = "inf".toList.map Char.toLower := h
        rw [Token.weight, Double.ofNumeral?_congr hw]
        exact hinf
      · have hw : w.map Char.toLower = "nan".toList.map Char.toLower := h
        rw [Token.weight, Double.ofNumeral?_congr hw]
        exact hnan
    · split <;> rfl

theorem tally_signTokens (negative : Bool) (ts : List Token) :
    tally (signTokens negative ++ ts) = tally ts := by
  apply tally_append_of_weightless
  cases negative <;> simp [signTokens, Token.IsGroupWord, Token.weight]

theorem tally_number (spelling : Text) (ts : List Token) :
    tally (.number spelling :: ts) = (Token.number spelling).weight + tally ts :=
  tally_cons (by simp [Token.IsGroupWord]) ts

theorem tally_doubleTokens (v : Double) (ts : List Token) :
    tally (v.tokens ++ ts) = v.weight + tally ts := by
  have hnan : (Token.number "NaN".toList).weight = 0 := by decide
  have hinf : (Token.number "Inf".toList).weight = 0 := by decide
  cases v with
  | nan => exact (tally_number _ ts).trans (by rw [hnan]; rfl)
  | infinite negative =>
    rw [Double.tokens, List.cons_append, List.singleton_append,
      tally_cons (by simp [Token.IsGroupWord]), tally_number, hinf, Double.weight, Token.weight]
    all_goals simp
  | finite negative rank =>
    have hweight : (Token.number (Double.magnitudeParts rank.val).text).weight = 1 := by
      simp [Token.weight, Double.ofNumeral?_magnitude, Double.weight]
    rw [Double.tokens, List.append_assoc, tally_signTokens, List.singleton_append, tally_number,
      hweight, Double.weight]

theorem tally_placesTokens (v : Double) (ts : List Token) :
    tally (v.placesTokens ++ ts) ≤ 1 + tally ts := by
  obtain ⟨negative, text, htokens, -⟩ := Grammar.exists_placesTokens v
  rw [htokens, List.append_assoc, tally_signTokens, List.singleton_append, tally_number,
    Token.weight]
  have hweight (w : Double) : w.weight ≤ 1 := by cases w <;> simp [Double.weight]
  cases Double.ofNumeral? text with
  | none => simp
  | some w => exact Nat.add_le_add_right (hweight w) _

theorem tally_durationTokens (d : Duration) (ts : List Token) :
    tally (d.tokens ++ ts) = (if d.text = [] then 0 else 1) + tally ts := by
  rw [Duration.tokens]
  split
  · rw [List.nil_append, Nat.zero_add]
  · rw [List.singleton_append, tally_cons (by simp [Token.IsGroupWord]), Token.weight]

theorem tally_stepTokens (step : Option Duration) (ts : List Token) :
    tally ((step.map Duration.tokens).getD [] ++ ts) ≤ step.isSome.toNat + tally ts := by
  cases step with
  | none => simp
  | some s =>
    rw [Option.map_some, Option.getD_some, tally_durationTokens]
    split <;> simp

/-- The modifiers of a selector do not weigh less than their tokens, and more only if nothing is
written of an offset. -/
theorem tally_modifiersTokens (m : Modifiers) (ts : List Token) :
    tally (m.tokens ++ ts) ≤ m.weight + tally ts ∧
      (m.weight + tally ts ≤ tally (m.tokens ++ ts) → m.Separate) := by
  obtain ⟨t, o⟩ := m
  have htime (us : List Token) :
      tally ((t.map Instant.tokens).getD [] ++ us) ≤ t.isSome.toNat + tally us := by
    cases t with
    | none => simp
    | some t =>
      cases t with
      | queryStart => simp [Instant.tokens, tally, Token.weight]
      | queryEnd => simp [Instant.tokens, tally, Token.weight]
      | epoch t =>
        rw [Option.map_some, Option.getD_some, Instant.tokens, List.cons_append,
          tally_cons (by simp [Token.IsGroupWord]), Token.weight, Nat.zero_add]
        · exact tally_placesTokens _ us
        all_goals simp
  have hoffset : tally ((o.map Offset.tokens).getD [] ++ ts) ≤ o.isSome.toNat + tally ts ∧
      (o.isSome.toNat + tally ts ≤ tally ((o.map Offset.tokens).getD [] ++ ts) →
        ∀ o' ∈ o, o'.duration.text ≠ []) := by
    cases o with
    | none => simp
    | some o =>
      have htokens : tally (o.tokens ++ ts) =
          (if o.duration.text = [] then 0 else 1) + tally ts := by
        rw [Offset.tokens, List.cons_append, List.cons_append, List.append_assoc,
          tally_cons (by simp [Token.IsGroupWord]), tally_signTokens, tally_durationTokens,
          Token.weight, Nat.zero_add]
        all_goals simp
      simp only [Option.map_some, Option.getD_some, htokens, Option.isSome_some, Bool.toNat_true]
      split
      · next htext => simp
      · next htext => simp [htext]
  have htime := htime ((o.map Offset.tokens).getD [] ++ ts)
  rw [Modifiers.tokens, List.append_assoc, Modifiers.weight]
  simp only
  constructor
  · omega
  · intro h
    exact hoffset.2 (by omega)

theorem weight_labelToken (name : Text) : (labelToken name).weight = 0 := by
  unfold labelToken
  split
  · exact Lexeme.weight_ofWord name
  · simp [quotedToken, Token.weight]

theorem tally_labels (names : List Text) (ts : List Token) :
    tally ([Token.comma].intercalate (names.map fun name => [labelToken name]) ++
      .rightParen :: ts) = tally ts := by
  induction names with
  | nil => exact (tally_cons (by simp [Token.IsGroupWord]) ts).trans (by simp [Token.weight])
  | cons name names ih =>
    cases names with
    | nil =>
      rw [List.map_singleton, List.intercalate_singleton, List.singleton_append,
        tally_cons_of (by simp), weight_labelToken, Nat.zero_add]
      exact ih
    | cons name' names =>
      rw [List.map_cons] at ih
      rw [List.map_cons, List.map_cons, List.intercalate_cons_cons, List.append_assoc,
        List.append_assoc, List.singleton_append, tally_cons_of (by simp), weight_labelToken,
        List.singleton_append, tally_cons (by simp [Token.IsGroupWord]), ih]
      simp [Token.weight]

theorem tally_labelsTokens (names : List Text) (ts : List Token) :
    tally (labelsTokens names ++ ts) = 1 + tally ts := by
  rw [labelsTokens, List.append_assoc, List.cons_append, tally_cons (by simp [Token.IsGroupWord]),
    List.singleton_append, tally_labels, Token.weight]

theorem tally_groupingTokens (g : Option LabelChoice) (ts : List Token) :
    tally ((g.map LabelChoice.groupingTokens).getD [] ++ ts) = g.isSome.toNat + tally ts := by
  cases g with
  | none => simp
  | some c =>
    cases c
    all_goals
      simp only [Option.map_some, Option.getD_some, LabelChoice.groupingTokens, List.cons_append]
      rw [tally_cons (by simp [Token.IsGroupWord]), tally_labelsTokens]
      simp [Token.weight]

theorem tally_matchingTokens (g : Option LabelChoice) (ts : List Token) :
    tally ((g.map LabelChoice.matchingTokens).getD [] ++ ts) = g.isSome.toNat + tally ts := by
  cases g with
  | none => simp
  | some c =>
    cases c
    all_goals
      simp only [Option.map_some, Option.getD_some, LabelChoice.matchingTokens, List.cons_append]
      rw [tally_cons (by simp [Token.IsGroupWord]), tally_labelsTokens]
      simp [Token.weight]

/-- A group modifier weighs nothing, and takes away the weight of a parenthesis if it is bare. -/
theorem tally_groupTokens (g : Option Grouping) {ts : List Token} (hne : ts ≠ []) :
    tally ((g.map Grouping.tokens).getD [] ++ ts) ≤ tally ts ∧
      (tally ts ≤ tally ((g.map Grouping.tokens).getD [] ++ ts) →
        g.any (fun g => g.labels.isEmpty) → ts.head? ≠ some .leftParen) := by
  cases g with
  | none => simp
  | some g =>
    obtain ⟨many, labels⟩ := g
    cases labels with
    | nil =>
      obtain ⟨t, ts, rfl⟩ := List.exists_cons_of_ne_nil hne
      by_cases ht : t = .leftParen
      · subst ht
        have hopen : tally (.leftParen :: ts) = 1 + tally ts :=
          tally_cons (by simp [Token.IsGroupWord]) ts
        simp only [Option.map_some, Option.getD_some, Grouping.tokens, if_true, List.cons_append,
          List.nil_append, tally_group, hopen]
        constructor
        · omega
        · omega
      · have hgroup : tally (Token.keyword (.group many) many.text.toList :: t :: ts) =
            tally (t :: ts) := by
          rw [tally_cons_of (by simp [ht])]
          simp [Token.weight]
        simp only [Option.map_some, Option.getD_some, Grouping.tokens, if_true, List.cons_append,
          List.nil_append, hgroup]
        simp [ht]
    | cons label labels =>
      have htokens : tally (Grouping.tokens ⟨many, label :: labels⟩ ++ ts) = tally ts := by
        simp only [Grouping.tokens, reduceCtorEq, if_false, labelsTokens, List.cons_append,
          List.append_assoc, List.nil_append, tally_group]
        exact tally_labels (label :: labels) ts
      simp only [Option.map_some, Option.getD_some, htokens]
      simp

theorem tally_operatorTokens (m : BinaryModifiers) {ts : List Token} (hne : ts ≠ []) :
    tally (m.tokens ++ ts) ≤ m.matching.isSome.toNat + tally ts ∧
      (m.matching.isSome.toNat + tally ts ≤ tally (m.tokens ++ ts) →
        m.isBare → ts.head? ≠ some .leftParen) := by
  obtain ⟨hle, hbare⟩ := tally_groupTokens m.grouping hne
  have htokens : tally (m.tokens ++ ts) = m.matching.isSome.toNat +
      tally ((m.grouping.map Grouping.tokens).getD [] ++ ts) := by
    rw [BinaryModifiers.tokens, List.append_assoc, List.append_assoc, ← tally_matchingTokens]
    apply tally_append_of_weightless
    cases m.returnBool <;> simp [Token.IsGroupWord, Token.weight]
  rw [htokens]
  constructor
  · omega
  · intro h
    exact hbare (by omega)

/-! ### Selectors -/

theorem tally_matchersTokens (ms : Matchers) (ts : List Token) :
    tally (ms.tokens ++ ts) = tally ts := by
  apply tally_append_of_weightless
  intro t ht
  have hin := Matchers.isInner_of_mem_tokens ht
  cases t <;> first | cases hin; done | exact ⟨by simp [Token.IsGroupWord], rfl⟩

theorem tally_selectorTokens {s : Selector} (hs : s.Formed) (ts : List Token) :
    tally (s.tokens ++ ts) = tally ts := by
  rw [Selector.tokens, List.append_assoc]
  cases h : s.name with
  | none => exact tally_matchersTokens s.matchers ts
  | some name =>
    have hword := (hs.name name h).2
    have hgroup : ¬ (Lexeme.ofWord name).IsGroupWord := by
      rintro ⟨many, word, heq⟩
      rw [heq] at hword
      cases hword
    rw [Option.map_some, Option.getD_some, List.singleton_append, tally_cons hgroup,
      Lexeme.weight_ofWord, Nat.zero_add]
    exact tally_matchersTokens s.matchers ts

/-! ### Expressions -/

/-- An expression does not weigh less than its tokens, and more only if some part of it runs into
the next one. -/
def Expr.Outweighs (e : Expr) : Prop :=
  ∀ rest, tally (e.tokens ++ rest) ≤ e.weight + tally rest ∧
    (e.weight + tally rest ≤ tally (e.tokens ++ rest) → e.Separate)

theorem tally_sign {t : Token} (h : ¬ t.IsGroupWord) (hweight : t.weight = 0) (ts : List Token) :
    tally (t :: ts) = tally ts := by
  rw [tally_cons h, hweight, Nat.zero_add]

theorem tally_open (ts : List Token) : tally (.leftParen :: ts) = 1 + tally ts :=
  tally_cons (by simp [Token.IsGroupWord]) ts

theorem tally_close (ts : List Token) : tally (.rightParen :: ts) = tally ts :=
  tally_sign (by simp [Token.IsGroupWord]) (by simp [Token.weight]) ts

theorem tally_comma (ts : List Token) : tally (.comma :: ts) = tally ts :=
  tally_sign (by simp [Token.IsGroupWord]) (by simp [Token.weight]) ts

theorem tally_bracket (ts : List Token) : tally (.leftBracket :: ts) = tally ts :=
  tally_sign (by simp [Token.IsGroupWord]) (by simp [Token.weight]) ts

theorem tally_colon (ts : List Token) : tally (.colon :: ts) = tally ts :=
  tally_sign (by simp [Token.IsGroupWord]) (by simp [Token.weight]) ts

theorem tally_operatorToken (op : BinaryOp) (ts : List Token) :
    tally (op.token :: ts) = tally ts := by
  apply tally_sign
  · cases op <;> simp [Token.IsGroupWord, BinaryOp.token]
  · cases op <;> rfl

theorem tally_closeBracket (ts : List Token) : tally (.rightBracket :: ts) = tally ts :=
  tally_sign (by simp [Token.IsGroupWord]) (by simp [Token.weight]) ts

namespace Expr

theorem Outweighs.arguments {es : List Expr} (hes : ∀ e ∈ es, e.Outweighs) (rest : List Token) :
    tally ([Token.comma].intercalate (es.map tokens) ++ .rightParen :: rest) ≤
      weights es + tally rest ∧
      (weights es + tally rest ≤
        tally ([Token.comma].intercalate (es.map tokens) ++ .rightParen :: rest) →
        AllSeparate es) := by
  induction es with
  | nil => simp [AllSeparate, tally_close, weights]
  | cons e es ih =>
    have he := hes e List.mem_cons_self
    have ih := ih fun e he => hes e (List.mem_cons_of_mem _ he)
    cases es with
    | nil =>
      have he := he (.rightParen :: rest)
      rw [tally_close] at he
      simp only [List.map_singleton, List.intercalate_singleton, weights, Nat.add_zero]
      exact ⟨he.1, fun h => ⟨he.2 h, trivial⟩⟩
    | cons e' es =>
      have he := he (.comma :: ([Token.comma].intercalate ((e' :: es).map tokens) ++
        .rightParen :: rest))
      rw [tally_comma] at he
      rw [List.map_cons] at he ih
      rw [List.map_cons, List.map_cons, List.intercalate_cons_cons, List.append_assoc,
        List.append_assoc, List.singleton_append, weights]
      constructor
      · omega
      · intro h
        exact ⟨he.2 (by omega), ih.2 (by omega)⟩

theorem Outweighs.matrix {s : Selector} (hs : s.Formed) (range : Duration) :
    (matrix s range).Outweighs := by
  intro rest
  obtain ⟨hle, hseparate⟩ := tally_modifiersTokens s.modifiers rest
  have hrange : (if range.text = [] then 0 else 1) ≤ 1 := by split <;> simp
  rw [tokens, List.append_assoc, tally_selectorTokens hs, List.cons_append, List.append_assoc,
    List.cons_append, tally_bracket, tally_durationTokens, tally_closeBracket, weight]
  constructor
  · omega
  · intro h
    exact hseparate (by omega)

theorem Outweighs.subquery {inner : Expr} (hinner : inner.Outweighs) (range : Duration)
    (step : Option Duration) (modifiers : Modifiers) :
    (subquery inner range step modifiers).Outweighs := by
  intro rest
  have hinner := hinner (.leftBracket :: (range.tokens ++ .colon ::
    ((step.map Duration.tokens).getD [] ++ .rightBracket :: (modifiers.tokens ++ rest))))
  have hrange : (if range.text = [] then 0 else 1) ≤ 1 := by split <;> simp
  have hstep := tally_stepTokens step (.rightBracket :: (modifiers.tokens ++ rest))
  have hmodifiers := tally_modifiersTokens modifiers rest
  rw [tally_closeBracket] at hstep
  rw [tally_bracket, tally_durationTokens, tally_colon] at hinner
  rw [tokens]
  simp only [List.append_assoc, List.cons_append, weight]
  constructor
  · omega
  · intro h
    exact ⟨hinner.2 (by omega), hmodifiers.2 (by omega)⟩

theorem Outweighs.paren {inner : Expr} (hinner : inner.Outweighs) : (paren inner).Outweighs := by
  intro rest
  have hinner := hinner (.rightParen :: rest)
  rw [tally_close] at hinner
  rw [tokens, List.cons_append, List.append_assoc, List.singleton_append, tally_open, weight]
  constructor
  · omega
  · intro h
    exact hinner.2 (by omega)

theorem Outweighs.call {function : Text} {es : List Expr} (hfunction : IsPlainWord function)
    (hes : ∀ e ∈ es, e.Outweighs) : (call function es).Outweighs := by
  intro rest
  have harguments := Outweighs.arguments hes rest
  rw [tokens, hfunction.2, tokensOf_eq_map, List.cons_append, List.cons_append, List.append_assoc,
    List.singleton_append, tally_sign (by simp [Token.IsGroupWord]) (by simp [Token.weight]),
    tally_open, weight]
  constructor
  · omega
  · intro h
    exact harguments.2 (by omega)

/-- An aggregation weighs what its arguments weigh, of which its parameter is one. -/
theorem Outweighs.aggregate {parameter : Option Expr} {inner : Expr}
    (hparameter : ∀ p ∈ parameter, p.Outweighs) (hinner : inner.Outweighs) (op : AggregateOp)
    (grouping : Option LabelChoice) : (aggregate op grouping parameter inner).Outweighs := by
  intro rest
  have hall : ∀ e ∈ parameter.toList ++ [inner], e.Outweighs := by
    intro e he
    rcases List.mem_append.mp he with he | he
    · exact hparameter e (Option.mem_toList.mp he)
    · exact List.mem_singleton.mp he ▸ hinner
  have harguments := Outweighs.arguments hall rest
  have hweights : weights (parameter.toList ++ [inner]) =
      parameterWeight parameter + inner.weight := by
    cases parameter <;> simp [weights, parameterWeight]
  have hseparate : AllSeparate (parameter.toList ++ [inner]) →
      (Expr.aggregate op grouping parameter inner).Separate := by
    cases parameter <;> simp [AllSeparate, Separate, ParameterSeparate]
  rw [intercalate_parameter, hweights, List.append_assoc] at harguments
  rw [tokens, List.cons_append, tally_sign (by simp [Token.IsGroupWord]) (by simp [Token.weight]),
    List.append_assoc, tally_groupingTokens, List.cons_append, tally_open, weight]
  simp only [List.append_assoc, List.singleton_append]
  constructor
  · omega
  · intro h
    exact hseparate (harguments.2 (by omega))

/-- A bare group modifier runs into a right operand in parentheses, and only into such a one. -/
theorem Outweighs.binary {left right : Expr} (hleft : left.Outweighs) (hright : right.Outweighs)
    (hformed : right.Formed) (op : BinaryOp) (modifiers : BinaryModifiers) :
    (binary op modifiers left right).Outweighs := by
  intro rest
  obtain ⟨t, ts, htokens, hhead⟩ := right.exists_head hformed
  have hne : right.tokens ++ rest ≠ [] := by simp [htokens]
  have hleft := hleft (op.token :: (modifiers.tokens ++ (right.tokens ++ rest)))
  have hright := hright rest
  have hmodifiers := tally_operatorTokens modifiers hne
  rw [tally_operatorToken] at hleft
  rw [tokens, List.append_assoc, List.cons_append, List.append_assoc, weight]
  constructor
  · omega
  · intro h
    refine ⟨hleft.2 (by omega), hright.2 (by omega), fun hbare => ?_⟩
    have hparen := hmodifiers.2 (by omega) hbare
    rw [htokens, List.cons_append, List.head?_cons, Ne, Option.some.injEq, hhead.paren] at hparen
    simpa using hparen

mutual

theorem outweighs (e : Expr) (he : e.Formed) : e.Outweighs := by
  match e with
  | number v =>
    intro rest
    rw [tokens, tally_doubleTokens]
    exact ⟨Nat.le_refl _, fun _ => trivial⟩
  | string v =>
    intro rest
    rw [tokens, List.singleton_append, quotedToken,
      tally_sign (by simp [Token.IsGroupWord]) (by simp [Token.weight]), weight, Nat.zero_add]
    exact ⟨Nat.le_refl _, fun _ => trivial⟩
  | vector s =>
    intro rest
    rw [tokens, List.append_assoc, tally_selectorTokens he]
    exact tally_modifiersTokens s.modifiers rest
  | matrix s range => exact .matrix he range
  | subquery inner range step modifiers => exact (outweighs inner he.1).subquery range step modifiers
  | paren inner => exact .paren (outweighs inner he)
  | negate inner =>
    intro rest
    have hinner := outweighs inner he.1 rest
    rw [tokens, List.cons_append, tally_sign (by simp [Token.IsGroupWord]) (by simp [Token.weight])]
    exact hinner
  | call function arguments => exact .call he.1 (allOutweigh arguments he.2)
  | aggregate op grouping none inner =>
    obtain ⟨-, -, -, hinner⟩ := he
    exact .aggregate (by simp) (outweighs inner hinner) op grouping
  | aggregate op grouping (some parameter) inner =>
    obtain ⟨-, -, hparameter, hinner⟩ := he
    have hparameter := outweighs parameter hparameter
    exact .aggregate (by simpa using hparameter) (outweighs inner hinner) op grouping
  | binary op modifiers left right =>
    obtain ⟨hleft, hright, -⟩ := he
    exact (outweighs left hleft).binary (outweighs right hright) hright op modifiers

theorem allOutweigh (es : List Expr) (hes : AllFormed es) : ∀ e ∈ es, e.Outweighs := by
  match es with
  | [] => simp
  | e :: es => exact List.forall_mem_cons.mpr ⟨outweighs e hes.1, allOutweigh es hes.2⟩

end

end Expr

end PromQL

import PromQL.Proofs.Expr.Readers
import PromQL.Proofs.Expr.Tokens
import PromQL.Proofs.Text.Quoted

/-!
# Clauses are read back

The tokens of labels and of the modifiers of operators are read as what they were written for. A
few words are no labels, although they look like names, and a group modifier is nothing without the
clause of labels in front of it.
-/

namespace PromQL

/-! ### Labels -/

/-- The words that no label may be in any case of letters, unless it stands in quotes. -/
def unlabelled : List Text :=
  ["inf", "nan", "limitk", "limit_ratio", "smoothed", "anchored"].map String.toList

/-- Whether a label is read as one where it is written. -/
def isLegibleLabel (name : Text) : Bool :=
  !isBareLabel name || !unlabelled.contains (name.map Char.toLower)

/-- A property of keywords that fails for certain words only. -/
theorem Keyword.eq_of_ofText? {p : Keyword → Bool} {words : List Text}
    (htable : ∀ entry ∈ table, p entry.2 = !words.contains entry.1.toList)
    (haggregate : ∀ op, p (.aggregate op) = !words.contains op.text) {word : Text} {k : Keyword}
    (h : ofText? word = some k) : p k = !words.contains word := by
  unfold ofText? at h
  split at h
  · next op hop =>
    cases h
    have hword := List.find?_some hop
    rw [beq_iff_eq] at hword
    rw [haggregate, hword]
  · obtain ⟨entry, hentry, rfl⟩ := Option.map_eq_some_iff.mp h
    have hword := List.find?_some hentry
    rw [beq_iff_eq] at hword
    rw [htable entry (List.mem_of_find?_eq_some hentry), hword]

/-- A word that is no keyword is a number only if it is one of two. -/
theorem Keyword.contains_of_ofText?_none {keywords : List Text}
    (hkeywords : ∀ keyword ∈ keywords, ofText? keyword ≠ none) {word : Text}
    (h : ofText? word = none) : ("inf".toList :: "nan".toList :: keywords).contains word =
      (word == "inf".toList || word == "nan".toList) := by
  have hne : ¬ word ∈ keywords := fun hmem => hkeywords word hmem h
  rw [List.contains_cons, List.contains_cons, List.contains_eq_mem, decide_eq_false hne,
    Bool.or_false]

theorem isLabel_of_ofText? {word : Text} {k : Keyword} (h : Keyword.ofText? word = some k) :
    k.isLabel = !unlabelled.contains word :=
  Keyword.eq_of_ofText? (by decide) (fun op => by cases op <;> decide) h

theorem isLabel_of_ofText?_none {word : Text} (h : Keyword.ofText? word = none) :
    unlabelled.contains word = (word == "inf".toList || word == "nan".toList) :=
  Keyword.contains_of_ofText?_none (by decide) h

theorem not_contains_colon {name : Text} (h : isBareLabel name) : name.contains ':' = false := by
  rw [List.contains_eq_mem, decide_eq_false_iff_not]
  intro hmem
  cases name with
  | nil => simp [isBareLabel] at h
  | cons c cs =>
    simp only [isBareLabel, isName_cons, Bool.and_eq_true, List.all_eq_true] at h
    rcases List.mem_cons.mp hmem with rfl | hmem
    · exact absurd h.1 (by decide)
    · exact absurd (h.2 ':' hmem) (by decide)

theorem label?_labelToken (name : Text) :
    (labelToken name).label? = if isLegibleLabel name then some (some name) else none := by
  unfold labelToken isLegibleLabel
  by_cases hbare : isBareLabel name
  · rw [if_pos hbare]
    simp only [hbare, Bool.not_true, Bool.false_or, Lexeme.ofWord]
    split
    · next k hk => rw [Token.label?, isLabel_of_ofText? hk]
    · next hnone =>
      rw [isLabel_of_ofText?_none hnone, not_contains_colon hbare]
      by_cases hnumber : (name.map Char.toLower == "inf".toList ||
        name.map Char.toLower == "nan".toList)
      · rw [if_pos hnumber, hnumber]
        rfl
      · rw [if_neg hnumber, if_neg Bool.false_ne_true, Token.label?]
        simp only [hnumber]
        rfl
  · rw [if_neg hbare]
    simp only [hbare, Bool.not_false, Bool.true_or, if_true]
    rw [quotedToken, Token.label?, unquote?_escape]

theorem labelToken_ne_rightParen (name : Text) : labelToken name ≠ .rightParen := by
  unfold labelToken
  split
  · unfold Lexeme.ofWord
    simp only
    split
    · simp
    · split_ifs <;> simp
  · simp [quotedToken]

namespace Grammar

theorem labelsRest_last {t : Token} (h : t ≠ .rightParen) (ts : List Token) :
    labelsRest (t :: .rightParen :: ts) =
      match t.label? with
      | some label => .ok (label.map ([·]), ts)
      | none => malformed := by
  rw [labelsRest.eq_def]
  split
  · next heq =>
    cases heq
    exact absurd rfl h
  · next heq =>
    cases heq
    rfl
  · next heq => cases heq
  · next hlast _ => exact absurd rfl (hlast t ts)

theorem labelsRest_comma {t : Token} (h : t ≠ .rightParen) (ts : List Token) :
    labelsRest (t :: .comma :: ts) =
      match t.label? with
      | some label => do
        let (labels, ts) ← labelsRest ts
        .ok (label.bind fun l => labels.map (l :: ·), ts)
      | none => malformed := by
  rw [labelsRest.eq_def]
  split
  · next heq =>
    cases heq
    exact absurd rfl h
  · next heq => cases heq
  · next heq =>
    cases heq
    rfl
  · next hcomma => exact absurd rfl (hcomma t ts)

/-- Labels up to the closing parenthesis are read as they are, if each of them is. -/
theorem labelsRest_tokens (names : List Text) (rest : List Token) :
    labelsRest ([Token.comma].intercalate (names.map fun name => [labelToken name]) ++
      .rightParen :: rest) =
      if names.all isLegibleLabel then .ok (some names, rest) else malformed := by
  induction names with
  | nil => rfl
  | cons name names ih =>
    have hne := labelToken_ne_rightParen name
    cases names with
    | nil =>
      rw [List.map_singleton, List.intercalate_singleton, List.singleton_append,
        labelsRest_last hne, label?_labelToken]
      cases h : isLegibleLabel name <;> simp [h]
    | cons name' names =>
      rw [List.map_cons, List.map_cons, List.intercalate_cons_cons, List.append_assoc,
        List.append_assoc, List.singleton_append, List.singleton_append, labelsRest_comma hne,
        label?_labelToken]
      rw [List.map_cons] at ih
      rw [ih, List.all_cons (l := name' :: names)]
      generalize (name' :: names).all isLegibleLabel = others
      cases isLegibleLabel name <;> cases others <;> rfl

theorem labelList_tokens (names : List Text) (rest : List Token) :
    labelList (labelsTokens names ++ rest) =
      if names.all isLegibleLabel then .ok (some names, rest) else malformed := by
  rw [labelsTokens, List.append_assoc, List.cons_append, labelList, ← labelsRest_tokens]
  rfl

end Grammar

/-! ### Label choices -/

/-- The labels that are chosen or left out. -/
def LabelChoice.labels : LabelChoice → List Text
  | only labels | allBut labels => labels

/-- Whether each label of a clause is read as one. -/
def LabelChoice.isLegible (c : LabelChoice) : Bool := c.labels.all isLegibleLabel

namespace Grammar

theorem labelChoice_tokens (c : LabelChoice) (rest : List Token) :
    labelChoice (c matches .allBut _) (labelsTokens c.labels ++ rest) =
      if c.isLegible then .ok (some c, rest) else malformed := by
  rw [labelChoice, labelList_tokens]
  cases c
  all_goals
    rw [LabelChoice.isLegible]
    split <;> rfl

/-- Some tokens do not start with a clause of grouping. -/
def Ungrouped (ts : List Token) : Prop :=
  ∀ allBut word, ts.head? ≠ some (.keyword (.grouping allBut) word)

theorem grouping_tokens (g : Option LabelChoice) {rest : List Token} (hrest : Ungrouped rest) :
    grouping ((g.map LabelChoice.groupingTokens).getD [] ++ rest) =
      if g.all LabelChoice.isLegible then .ok (some g, rest) else malformed := by
  cases g with
  | none =>
    rw [Option.map_none, Option.getD_none, List.nil_append]
    unfold grouping
    split
    · exact absurd rfl (hrest _ _)
    · rfl
  | some c =>
    have hchoice := labelChoice_tokens c rest
    cases c
    all_goals
      simp only [Option.map_some, Option.getD_some, LabelChoice.groupingTokens, List.cons_append,
        grouping, Option.all_some]
      simp only [LabelChoice.labels] at hchoice
      rw [hchoice]
      split <;> rfl

end Grammar

/-! ### Modifiers of operators -/

/-- Whether a token is a word that may stand behind an operator. -/
def Token.isModifier : Token → Bool
  | keyword .bool _ | keyword (.matching _) _ | keyword (.group _) _ => true
  | _ => false

/-- Whether a group modifier has no labels of its own. -/
def BinaryModifiers.isBare (m : BinaryModifiers) : Bool := m.grouping.any fun g => g.labels.isEmpty

/-- Whether the modifiers of an operator are read as what they are: each label is, and there is no
group modifier without labels to match on. -/
def BinaryModifiers.isLegible (m : BinaryModifiers) : Bool :=
  m.matching.all LabelChoice.isLegible &&
    m.grouping.all fun g => g.labels.all isLegibleLabel && m.matching.isSome

namespace Grammar

/-- Some tokens do not start with a word that may stand behind an operator. -/
def Unmodified (ts : List Token) : Prop := ∀ t ∈ ts.head?, t.isModifier = false

theorem groupModifier_unmodified {ts : List Token} (hts : Unmodified ts) :
    groupModifier ts = .ok (some none, ts) := by
  unfold groupModifier
  split
  · cases hts _ rfl
  · cases hts _ rfl
  · rfl

theorem groupModifier_bare {many : Side} {word : Text} {ts : List Token}
    (hts : ts.head? ≠ some .leftParen) :
    groupModifier (.keyword (.group many) word :: ts) = .ok (some (some ⟨many, []⟩), ts) := by
  unfold groupModifier
  split
  · next heq =>
    cases heq
    exact absurd rfl hts
  · next heq =>
    cases heq
    rfl
  · next hgroup => exact absurd rfl (hgroup many word ts)

theorem groupModifier_tokens (g : Option Grouping) {ts : List Token} (hts : Unmodified ts)
    (hbare : g.any (fun g => g.labels.isEmpty) → ts.head? ≠ some .leftParen) :
    groupModifier ((g.map Grouping.tokens).getD [] ++ ts) =
      if g.all fun g => g.labels.all isLegibleLabel then .ok (some g, ts) else malformed := by
  cases g with
  | none => exact groupModifier_unmodified hts
  | some g =>
    obtain ⟨many, labels⟩ := g
    cases labels with
    | nil => exact groupModifier_bare (hbare rfl)
    | cons label labels =>
      have hlabels := labelsRest_tokens (label :: labels) ts
      simp only [Option.map_some, Option.getD_some, Grouping.tokens, reduceCtorEq, if_false,
        labelsTokens, List.cons_append, List.append_assoc, List.nil_append, groupModifier,
        Option.all_some]
      rw [hlabels]
      split <;> rfl

theorem afterBool_tokens (m : BinaryModifiers) {ts : List Token} (hts : Unmodified ts) :
    afterBool (m.tokens ++ ts) =
      (m.returnBool, (m.matching.map LabelChoice.matchingTokens).getD [] ++
        ((m.grouping.map Grouping.tokens).getD [] ++ ts)) := by
  obtain ⟨returnBool, matching, grouping⟩ := m
  cases returnBool with
  | true => simp [BinaryModifiers.tokens, afterBool]
  | false =>
    rcases matching with _ | (labels | labels)
    · rcases grouping with _ | ⟨many, labels⟩
      · cases ts with
        | nil => rfl
        | cons t ts =>
          have ht := hts t rfl
          cases t
          case keyword word spelling => cases word <;> first | rfl | cases ht
          all_goals rfl
      · rfl
    · simp [BinaryModifiers.tokens, LabelChoice.matchingTokens, afterBool]
    · simp [BinaryModifiers.tokens, LabelChoice.matchingTokens, afterBool]

/-- The modifiers of an operator are read as they are if each label is, provided that a group
modifier does not stand alone. -/
theorem binaryModifiers_tokens (m : BinaryModifiers) {ts : List Token} (hts : Unmodified ts)
    (hbare : m.isBare → ts.head? ≠ some .leftParen)
    (hmatching : m.grouping.isSome → m.matching.isSome) :
    binaryModifiers (m.tokens ++ ts) = if m.isLegible then .ok (some m, ts) else malformed := by
  rw [binaryModifiers_eq, afterBool_tokens m hts]
  have hgroup := groupModifier_tokens m.grouping hts hbare
  obtain ⟨returnBool, matching, grouping⟩ := m
  rcases matching with _ | c
  · have hnone : grouping = none := by
      cases grouping
      · rfl
      · cases hmatching rfl
    subst hnone
    simp only [Option.map_none, Option.getD_none, List.nil_append]
    split
    · cases hts _ rfl
    · rfl
  · have hchoice := labelChoice_tokens c ((grouping.map Grouping.tokens).getD [] ++ ts)
    cases c
    all_goals
      simp only [Option.map_some, Option.getD_some, LabelChoice.matchingTokens,
        BinaryModifiers.isLegible, Option.all_some, Option.isSome_some, Bool.and_true]
      simp only [LabelChoice.labels] at hchoice
      rw [List.cons_append]
      simp only
      rw [hchoice]
      generalize LabelChoice.isLegible _ = readable
      cases readable
      · rfl
      · simp only [if_true, Bool.true_and, Reading.ok_bind]
        rw [hgroup]
        split <;> rfl

/-- No expression starts with a group modifier. -/
theorem readExpression_group (level : Nat) (g : Grouping) (ts : List Token) :
    readExpression level (g.tokens ++ ts) = malformed := by
  rw [Grouping.tokens, List.cons_append, readExpression_eq,
    readOperand_unsigned (by simp) (by simp), readPrimary_eq]
  rfl

/-- Behind an operator, its modifiers and its right operand are read in turn. -/
theorem modifiers_operand_tokens {α : Type} (m : BinaryModifiers) (level : Nat) {ts : List Token}
    (f : Option BinaryModifiers → Option Expr → List Token → Reading α) (hts : Unmodified ts)
    (hbare : m.isBare → ts.head? ≠ some .leftParen) :
    (do
      let (modifiers, us) ← binaryModifiers (m.tokens ++ ts)
      let (right, us) ← readExpression level us
      f modifiers right us) =
      if m.isLegible then (do
        let (right, us) ← readExpression level ts
        f (some m) right us)
      else malformed := by
  by_cases hmatching : m.grouping.isSome → m.matching.isSome
  · rw [binaryModifiers_tokens m hts hbare hmatching]
    split <;> rfl
  · have hlegible : m.isLegible = false := by
      obtain ⟨returnBool, matching, grouping⟩ := m
      cases matching <;> cases grouping <;> simp_all [BinaryModifiers.isLegible]
    obtain ⟨returnBool, matching, grouping⟩ := m
    cases grouping with
    | none => simp at hmatching
    | some g =>
      have hnone : matching = none := by
        cases matching <;> simp_all
      subst hnone
      rw [binaryModifiers_eq, afterBool_tokens _ hts, hlegible]
      show (do
        let (right, us) ← readExpression level (g.tokens ++ ts)
        f (some ⟨returnBool, none, none⟩) right us) = malformed
      rw [readExpression_group]
      rfl

end Grammar

end PromQL

import Mathlib
import PromQL.Proofs.Expr.Mapping
import PromQL.Proofs.Expr.Spelling
import PromQL.Proofs.Expr.Sums
import PromQL.Proofs.Token.Variables

/-!
# Variables of expressions

The variables that an expression is written with are those of its names, labels and strings.
Numbers, durations, times and keywords have none. So the canonical form of an expression, which only
sorts matchers and leaves out what says nothing, has the same variables.
-/

namespace PromQL

open Placeholders

/-! ### Tokens without variables -/

/-- Whether nothing can start in the tokens. -/
def AllFixed (ts : List Token) : Prop := ∀ t ∈ ts, IsFixed t.spelling

namespace AllFixed

variable {ts us : List Token} {t : Token}

theorem nil : AllFixed [] := List.forall_mem_nil _

theorem cons (h : IsFixed t.spelling) (hts : AllFixed ts) : AllFixed (t :: ts) :=
  List.forall_mem_cons.mpr ⟨h, hts⟩

theorem sign (h : t.isSign) (hts : AllFixed ts) : AllFixed (t :: ts) :=
  cons (Token.isFixed_of_isSign h) hts

theorem append (h : AllFixed ts) (h' : AllFixed us) : AllFixed (ts ++ us) :=
  List.forall_mem_append.mpr ⟨h, h'⟩

theorem signTokens (negative : Bool) (hts : AllFixed ts) :
    AllFixed (signTokens negative ++ ts) := by
  cases negative
  · exact hts
  · exact sign rfl hts

theorem doubleTokens (v : Double) : AllFixed v.tokens := by
  match v with
  | .nan => exact cons (by decide) nil
  | .infinite negative => exact sign rfl (cons (by decide) nil)
  | .finite negative rank =>
    exact signTokens negative (cons (Double.isDigits_magnitudeParts rank).isFixed nil)

theorem placesTokens (v : Double) : AllFixed v.placesTokens := by
  match v with
  | .nan => exact cons (by decide) nil
  | .infinite negative => exact signTokens negative (cons (by decide) nil)
  | .finite negative rank =>
    exact signTokens negative (cons (Double.isDigits_placesParts rank.val).isFixed nil)

theorem durationTokens (d : Duration) : AllFixed d.tokens := by
  unfold Duration.tokens
  split
  · exact nil
  · exact cons d.isFixed_text nil

theorem instantTokens (t : Instant) : AllFixed t.tokens := by
  match t with
  | .queryStart => exact sign rfl (cons (by decide) (sign rfl (sign rfl nil)))
  | .queryEnd => exact sign rfl (cons (by decide) (sign rfl (sign rfl nil)))
  | .epoch t => exact sign rfl (placesTokens _)

theorem modifiersTokens (m : Modifiers) : AllFixed m.tokens := by
  obtain ⟨time, offset⟩ := m
  refine append ?_ ?_
  · cases time with
    | none => exact nil
    | some t => exact instantTokens t
  · cases offset with
    | none => exact nil
    | some o => exact cons (by decide) (signTokens _ (durationTokens _))

theorem operatorToken (op : BinaryOp) : IsFixed op.token.spelling := by
  cases op <;> decide

end AllFixed

namespace Placeholders

variable {m : Placeholders} {n : Nat}

theorem tokensRestored_of_allFixed (hstem : m.stem = stemOf n) {ts : List Token}
    (h : AllFixed ts) : m.tokensRestored ts = 0 := by
  refine List.sum_eq_zero fun x hx => ?_
  obtain ⟨t, ht, rfl⟩ := List.mem_map.mp hx
  exact restored_of_isFixed hstem (h t ht)

/-- Separators that count nothing between lists of tokens. -/
theorem tokensRestored_intercalate {sep : List Token} (hsep : m.tokensRestored sep = 0)
    (tss : List (List Token)) :
    m.tokensRestored (sep.intercalate tss) = (tss.map m.tokensRestored).sum := by
  induction tss with
  | nil => rfl
  | cons ts tss ih =>
    cases tss with
    | nil => simp
    | cons us tss =>
      rw [List.intercalate_cons_cons, tokensRestored_append, tokensRestored_append, ih, hsep]
      simp

/-! ### Labels and matchers -/

theorem restored_labelToken (hstem : m.stem = stemOf n) (name : Text) :
    m.restored (labelToken name).spelling = m.restored name := by
  unfold labelToken
  split
  · rw [Lexeme.spelling_ofWord]
  · exact restored_quote hstem name

/-- The variables of some labels. -/
theorem tokensRestored_labelsTokens (hstem : m.stem = stemOf n) (names : List Text) :
    m.tokensRestored (labelsTokens names) = (names.map m.restored).sum := by
  have hsign : ∀ {t : Token}, t.isSign → m.restored t.spelling = 0 := restored_of_isSign hstem
  have hcomma : m.tokensRestored [.comma] = 0 :=
    tokensRestored_of_allFixed hstem (.sign rfl .nil)
  have hnames : m.tokensRestored ∘ (fun name => [labelToken name]) = m.restored := by
    funext name
    simp [restored_labelToken hstem]
  rw [labelsTokens, List.cons_append, tokensRestored_cons, hsign rfl, zero_add,
    tokensRestored_append, tokensRestored_intercalate hcomma, List.map_map, hnames]
  simp [hsign (t := .rightParen) rfl]

/-- The variables of the name and the value of a matcher. -/
def matcherRestored (m : Placeholders) (matcher : Matcher) : Multiset Text :=
  m.restored matcher.name + m.restored matcher.value

theorem tokensRestored_matcherTokens (hstem : m.stem = stemOf n) (matcher : Matcher) :
    m.tokensRestored matcher.tokens = m.matcherRestored matcher := by
  have hop : m.restored (Token.matchOp matcher.op).spelling = 0 := restored_of_isSign hstem rfl
  have hvalue : m.restored (quotedToken matcher.value).spelling = m.restored matcher.value :=
    restored_quote hstem _
  have hname : m.restored (if isBareLabel matcher.name then Token.identifier matcher.name
      else quotedToken matcher.name).spelling = m.restored matcher.name := by
    split
    · rfl
    · exact restored_quote hstem _
  simp [Matcher.tokens, matcherRestored, hop, hvalue, hname]

theorem tokensRestored_matcherGroup (hstem : m.stem = stemOf n) (group : List Matcher) :
    m.tokensRestored (Matchers.groupTokens group) = (group.map m.matcherRestored).sum := by
  have hcomma : m.tokensRestored [.comma] = 0 :=
    tokensRestored_of_allFixed hstem (.sign rfl .nil)
  rw [Matchers.groupTokens, tokensRestored_intercalate hcomma, List.map_map]
  exact congrArg List.sum (List.map_congr_left fun mt _ => tokensRestored_matcherTokens hstem mt)

theorem tokensRestored_matchersTokens (hstem : m.stem = stemOf n) (ms : Matchers) :
    m.tokensRestored ms.tokens = (ms.flatten.map m.matcherRestored).sum := by
  have hsign : ∀ {t : Token}, t.isSign → m.restored t.spelling = 0 := restored_of_isSign hstem
  have hor : m.tokensRestored [.orWord] = 0 :=
    tokensRestored_of_allFixed hstem (.sign rfl .nil)
  have hgroups : ms.groups.flatten = ms.flatten := by
    unfold Matchers.groups Matchers.flatten
    cases ms.group <;> simp
  have hinside : m.tokensRestored ms.inside = (ms.flatten.map m.matcherRestored).sum := by
    rw [Matchers.inside, tokensRestored_intercalate hor, List.map_map, ← hgroups, List.map_flatten,
      List.sum_flatten, List.map_map]
    exact congrArg List.sum
      (List.map_congr_left fun group _ => tokensRestored_matcherGroup hstem group)
  unfold Matchers.tokens
  split
  · next hnil => simp [← hgroups, hnil]
  · simp [hinside, hsign (t := .leftBrace) rfl, hsign (t := .rightBrace) rfl]

/-! ### Clauses -/

/-- A word in front of labels counts nothing. -/
theorem tokensRestored_clause (hstem : m.stem = stemOf n) (k : Keyword) {word : Text}
    (hword : IsFixed word) (labels : List Text) :
    m.tokensRestored (.keyword k word :: labelsTokens labels) = (labels.map m.restored).sum := by
  rw [tokensRestored_cons, Token.spelling, restored_of_isFixed hstem hword, zero_add,
    tokensRestored_labelsTokens hstem]

theorem tokensRestored_groupingTokens (hstem : m.stem = stemOf n) (c : LabelChoice) :
    m.tokensRestored c.groupingTokens = (c.labels.map m.restored).sum := by
  cases c with
  | only labels => exact tokensRestored_clause hstem _ (by decide) labels
  | allBut labels => exact tokensRestored_clause hstem _ (by decide) labels

theorem tokensRestored_matchingTokens (hstem : m.stem = stemOf n) (c : LabelChoice) :
    m.tokensRestored c.matchingTokens = (c.labels.map m.restored).sum := by
  cases c with
  | only labels => exact tokensRestored_clause hstem _ (by decide) labels
  | allBut labels => exact tokensRestored_clause hstem _ (by decide) labels

theorem tokensRestored_groupTokens (hstem : m.stem = stemOf n) (g : Grouping) :
    m.tokensRestored g.tokens = (g.labels.map m.restored).sum := by
  have hword : IsFixed g.many.text.toList := by cases g.many <;> decide
  unfold Grouping.tokens
  split
  · next hnil =>
    rw [hnil]
    exact tokensRestored_of_allFixed hstem (.cons hword .nil)
  · exact tokensRestored_clause hstem _ hword _

end Placeholders

/-- The labels in the clauses of an operator. -/
def BinaryModifiers.labels (modifiers : BinaryModifiers) : List Text :=
  (modifiers.matching.map LabelChoice.labels).getD [] ++
    (modifiers.grouping.map Grouping.labels).getD []

/-- A clause that is left out has no labels. -/
theorem BinaryModifiers.labels_canonical (modifiers : BinaryModifiers) :
    modifiers.canonical.labels = modifiers.labels := by
  unfold labels canonical
  simp only
  split
  · next hempty =>
    rw [hempty]
    rfl
  · rfl

namespace Placeholders

variable {m : Placeholders} {n : Nat}

theorem tokensRestored_operatorTokens (hstem : m.stem = stemOf n) (modifiers : BinaryModifiers) :
    m.tokensRestored modifiers.tokens = (modifiers.labels.map m.restored).sum := by
  obtain ⟨returnBool, matching, grouping⟩ := modifiers
  have hbool :
      m.tokensRestored (if returnBool then [.keyword .bool "bool".toList] else []) = 0 := by
    refine tokensRestored_of_allFixed hstem ?_
    cases returnBool
    · exact .nil
    · exact .cons (by decide) .nil
  have hmatching : m.tokensRestored ((matching.map LabelChoice.matchingTokens).getD []) =
      (((matching.map LabelChoice.labels).getD []).map m.restored).sum := by
    cases matching with
    | none => rfl
    | some c => exact tokensRestored_matchingTokens hstem c
  have hgrouping : m.tokensRestored ((grouping.map Grouping.tokens).getD []) =
      (((grouping.map Grouping.labels).getD []).map m.restored).sum := by
    cases grouping with
    | none => rfl
    | some g => exact tokensRestored_groupTokens hstem g
  rw [BinaryModifiers.tokens, BinaryModifiers.labels, List.map_append, List.sum_append, ← hmatching,
    ← hgrouping, tokensRestored_append, tokensRestored_append, hbool, zero_add]

end Placeholders

/-! ### Canonical selectors -/

theorem Matchers.canonicalGroup_perm {metric : Option Text} {group : List Matcher}
    (h : ∀ matcher ∈ group, matcher.repeatsName metric = false) :
    (canonicalGroup metric group).Perm group := by
  have hfilter : group.filter (fun matcher => !matcher.repeatsName metric) = group := by
    rw [List.filter_eq_self]
    intro matcher hmatcher
    rw [h matcher hmatcher]
    rfl
  rw [canonicalGroup, hfilter]
  exact Matcher.sort_perm group

/-- The canonical form of a selector that makes sense has its matchers in another order. -/
theorem Selector.flatten_canonical_perm {s : Selector} (hs : s.wellFormed) :
    s.canonical.matchers.flatten.Perm s.matchers.flatten := by
  have hrepeats := fun matcher (h : matcher ∈ s.matchers.flatten) => repeatsName_eq_false hs h
  simp only [Matchers.flatten, List.mem_append, List.mem_flatten] at hrepeats ⊢
  refine List.Perm.append ?_ ?_
  · exact Matchers.canonicalGroup_perm fun matcher h => hrepeats matcher (.inl h)
  · have hgroups : s.matchers.alternatives.flatMap (Matchers.canonicalGroup s.name) |>.Perm
        (s.matchers.alternatives.flatMap id) :=
      List.Perm.flatMap_left _ fun group hgroup => Matchers.canonicalGroup_perm
        fun matcher h => hrepeats matcher (.inr ⟨group, hgroup, h⟩)
    rw [List.flatMap_def, List.flatMap_id] at hgroups
    simp only [canonical, Matchers.canonical, List.flatten_filter_not_isEmpty]
    exact hgroups

/-! ### Expressions -/

theorem AggregateOp.isFixed_text (op : AggregateOp) : IsFixed op.text := by
  cases op <;> decide

namespace Placeholders

variable {m : Placeholders} {n : Nat}

section Nodes

variable (hstem : m.stem = stemOf n)

include hstem

theorem tokensRestored_vector (s : Selector) :
    m.tokensRestored (Expr.vector s).tokens = m.tokensRestored s.tokens := by
  rw [Expr.tokens, tokensRestored_append,
    tokensRestored_of_allFixed hstem (.modifiersTokens s.modifiers), add_zero]

theorem tokensRestored_matrix (s : Selector) (range : Duration) :
    m.tokensRestored (Expr.matrix s range).tokens = m.tokensRestored s.tokens := by
  have hfixed : AllFixed (.leftBracket :: (range.tokens ++ .rightBracket :: s.modifiers.tokens)) :=
    .sign rfl (.append (.durationTokens range) (.sign rfl (.modifiersTokens s.modifiers)))
  rw [Expr.tokens, tokensRestored_append, tokensRestored_of_allFixed hstem hfixed, add_zero]

theorem tokensRestored_subquery (inner : Expr) (range : Duration) (step : Option Duration)
    (modifiers : Modifiers) : m.tokensRestored (Expr.subquery inner range step modifiers).tokens =
      m.tokensRestored inner.tokens := by
  have hstep : AllFixed ((step.map Duration.tokens).getD []) := by
    cases step with
    | none => exact .nil
    | some d => exact .durationTokens d
  have hfixed : AllFixed (.leftBracket :: (range.tokens ++ .colon ::
      ((step.map Duration.tokens).getD [] ++ .rightBracket :: modifiers.tokens))) :=
    .sign rfl (.append (.durationTokens range)
      (.sign rfl (.append hstep (.sign rfl (.modifiersTokens modifiers)))))
  rw [Expr.tokens, tokensRestored_append, tokensRestored_of_allFixed hstem hfixed, add_zero]

theorem tokensRestored_paren (inner : Expr) :
    m.tokensRestored (Expr.paren inner).tokens = m.tokensRestored inner.tokens := by
  have hopen : m.restored Token.leftParen.spelling = 0 := restored_of_isSign hstem rfl
  have hclose : m.restored Token.rightParen.spelling = 0 := restored_of_isSign hstem rfl
  simp [Expr.tokens, hopen, hclose]

theorem tokensRestored_negate (inner : Expr) :
    m.tokensRestored (Expr.negate inner).tokens = m.tokensRestored inner.tokens := by
  have hsign : m.restored (Token.operator .sub).spelling = 0 := restored_of_isSign hstem rfl
  rw [Expr.tokens, tokensRestored_cons, hsign, zero_add]

theorem tokensRestored_call (function : Text) (es : List Expr) :
    m.tokensRestored (Expr.call function es).tokens =
      m.restored function + (es.map fun e => m.tokensRestored e.tokens).sum := by
  have hopen : m.restored Token.leftParen.spelling = 0 := restored_of_isSign hstem rfl
  have hclose : m.restored Token.rightParen.spelling = 0 := restored_of_isSign hstem rfl
  have hcomma : m.tokensRestored [.comma] = 0 :=
    tokensRestored_of_allFixed hstem (.sign rfl .nil)
  simp only [Expr.tokens, Expr.tokensOf_eq_map, tokensRestored_cons, tokensRestored_append,
    tokensRestored_intercalate hcomma, Lexeme.spelling_ofWord, hopen, hclose, tokensRestored_nil,
    add_zero, zero_add, List.map_map]
  rfl

theorem tokensRestored_aggregate (op : AggregateOp) (g : Option LabelChoice)
    (parameter : Option Expr) (inner : Expr) :
    m.tokensRestored (Expr.aggregate op g parameter inner).tokens =
      (((g.map LabelChoice.labels).getD []).map m.restored).sum +
        ((parameter.toList ++ [inner]).map fun e => m.tokensRestored e.tokens).sum := by
  have hopen : m.restored Token.leftParen.spelling = 0 := restored_of_isSign hstem rfl
  have hclose : m.restored Token.rightParen.spelling = 0 := restored_of_isSign hstem rfl
  have hcomma : m.restored Token.comma.spelling = 0 := restored_of_isSign hstem rfl
  have hop : m.restored (Token.keyword (.aggregate op) op.text).spelling = 0 :=
    restored_of_isFixed hstem op.isFixed_text
  have hgrouping : m.tokensRestored ((g.map LabelChoice.groupingTokens).getD []) =
      (((g.map LabelChoice.labels).getD []).map m.restored).sum := by
    cases g with
    | none => rfl
    | some c => exact tokensRestored_groupingTokens hstem c
  have hparameter : m.tokensRestored (Expr.parameterTokens parameter) =
      (parameter.toList.map fun e => m.tokensRestored e.tokens).sum := by
    cases parameter with
    | none => rfl
    | some e => simp [Expr.parameterTokens, hcomma]
  simp only [Expr.tokens, tokensRestored_cons, tokensRestored_append, hop, hopen, hclose, hgrouping,
    hparameter, tokensRestored_nil, add_zero, zero_add, List.map_append, List.sum_append,
    List.map_singleton, List.sum_singleton]

theorem tokensRestored_binary (op : BinaryOp) (modifiers : BinaryModifiers) (left right : Expr) :
    m.tokensRestored (Expr.binary op modifiers left right).tokens =
      m.tokensRestored left.tokens + ((modifiers.labels.map m.restored).sum +
        m.tokensRestored right.tokens) := by
  have hop : m.restored op.token.spelling = 0 :=
    restored_of_isFixed hstem (AllFixed.operatorToken op)
  rw [Expr.tokens, tokensRestored_append, tokensRestored_cons, hop, zero_add,
    tokensRestored_append, tokensRestored_operatorTokens hstem]

/-- The canonical form of a selector has its variables. -/
theorem tokensRestored_selector_canonical {s : Selector} (hs : s.wellFormed) :
    m.tokensRestored s.canonical.tokens = m.tokensRestored s.tokens := by
  have hperm := (s.flatten_canonical_perm hs).map m.matcherRestored
  rw [Selector.tokens, Selector.tokens, tokensRestored_append, tokensRestored_append,
    tokensRestored_matchersTokens hstem, tokensRestored_matchersTokens hstem, hperm.sum_eq]
  rfl

end Nodes

mutual

/-- The canonical form of an expression that makes sense has its variables. -/
theorem tokensRestored_canonical (hstem : m.stem = stemOf n) (e : Expr) (he : e.wellTyped) :
    m.tokensRestored e.canonical.tokens = m.tokensRestored e.tokens := by
  match e with
  | .number _ | .string _ | .extension _ => rfl
  | .vector s =>
    rw [tokensRestored_vector hstem, ← tokensRestored_selector_canonical hstem he]
    exact tokensRestored_vector hstem s.canonical
  | .matrix s range =>
    rw [tokensRestored_matrix hstem, ← tokensRestored_selector_canonical hstem he]
    exact tokensRestored_matrix hstem s.canonical range
  | .subquery inner range step modifiers =>
    simp only [Expr.wellTyped, Bool.and_eq_true] at he
    rw [Expr.canonical_subquery, tokensRestored_subquery hstem, tokensRestored_subquery hstem,
      tokensRestored_canonical hstem inner he.1]
  | .paren inner =>
    rw [tokensRestored_paren hstem, ← tokensRestored_canonical hstem inner he]
    exact tokensRestored_paren hstem inner.canonical
  | .negate inner =>
    simp only [Expr.wellTyped, Bool.and_eq_true] at he
    rw [tokensRestored_negate hstem, ← tokensRestored_canonical hstem inner he.1]
    exact tokensRestored_negate hstem inner.canonical
  | .call function es =>
    simp only [Expr.wellTyped, Bool.and_eq_true] at he
    rw [Expr.canonical_call, tokensRestored_call hstem, tokensRestored_call hstem, List.map_map]
    exact congrArg (_ + List.sum ·)
      (List.map_congr_left (tokensRestored_canonical_all hstem es he.1))
  | .aggregate op g none inner =>
    simp only [Expr.wellTyped, Bool.and_eq_true] at he
    have hcanonical : (Expr.aggregate op g none inner).canonical =
        .aggregate op g none inner.canonical := rfl
    rw [hcanonical, tokensRestored_aggregate hstem, tokensRestored_aggregate hstem]
    simp [tokensRestored_canonical hstem inner he.1.1]
  | .aggregate op g (some p) inner =>
    simp only [Expr.wellTyped, Expr.parameterWellTyped, Bool.and_eq_true] at he
    have hcanonical : (Expr.aggregate op g (some p) inner).canonical =
        .aggregate op g (some p.canonical) inner.canonical := rfl
    rw [hcanonical, tokensRestored_aggregate hstem, tokensRestored_aggregate hstem]
    simp [tokensRestored_canonical hstem inner he.1.1, tokensRestored_canonical hstem p he.2.1.2]
  | .binary op modifiers left right =>
    simp only [Expr.wellTyped, Bool.and_eq_true] at he
    rw [Expr.canonical_binary, tokensRestored_binary hstem, tokensRestored_binary hstem,
      modifiers.labels_canonical, tokensRestored_canonical hstem left he.1.1,
      tokensRestored_canonical hstem right he.1.2]

theorem tokensRestored_canonical_all (hstem : m.stem = stemOf n) (es : List Expr)
    (hes : Expr.allWellTyped es) :
    ∀ e ∈ es, m.tokensRestored e.canonical.tokens = m.tokensRestored e.tokens := by
  match es with
  | [] => exact List.forall_mem_nil _
  | e :: es =>
    simp only [Expr.allWellTyped, Bool.and_eq_true] at hes
    exact List.forall_mem_cons.mpr
      ⟨tokensRestored_canonical hstem e hes.1, tokensRestored_canonical_all hstem es hes.2⟩

end

end Placeholders

end PromQL

import Mathlib
import PromQL.Proofs.Label.Decoding
import PromQL.Proofs.Token.Quotation

/-!
# Lists of labels

A list of labels is written as names between commas, some of them in quotes. Each name is one token,
from which it is read back, so lists are told apart by their texts. Outside of quotes there is no
closing parenthesis in them, so the first one behind a list ends the clause that it stands in.
-/

namespace PromQL

/-! ### Names are read back -/

/-- The name that a token is written for. -/
def Token.labelName : Token → Text
  | .string mark body => (unquote? mark body).getD []
  | t => t.spelling

theorem labelName_labelToken (name : Text) : (labelToken name).labelName = name := by
  have hword : (Lexeme.ofWord name).labelName = name := by
    simp only [Lexeme.ofWord]
    split
    · rfl
    · split_ifs <;> rfl
  unfold labelToken
  split_ifs
  · exact hword
  · simp [quotedToken, Token.labelName, unquote?_escape]

/-- No name is written as a sign. -/
theorem not_isSign_labelToken (name : Text) : ¬ (labelToken name).isSign := by
  unfold labelToken
  split_ifs
  · simp only [Lexeme.ofWord]
    split
    · exact Bool.false_ne_true
    · split_ifs <;> exact Bool.false_ne_true
  · exact Bool.false_ne_true

theorem labelToken_ne {t : Token} (ht : t.isSign) (name : Text) : labelToken name ≠ t := by
  rintro rfl
  exact not_isSign_labelToken name ht

/-- Between the commas of a list stand the tokens of its names. -/
theorem filter_comma_labels (names : List Text) :
    ([Token.comma].intercalate (names.map fun name => [labelToken name])).filter (· ≠ .comma) =
      names.map labelToken := by
  induction names with
  | nil => rfl
  | cons name names ih =>
    have hname : [labelToken name].filter (· ≠ .comma) = [labelToken name] := by
      simp [labelToken_ne (t := .comma) rfl]
    cases names with
    | nil => simpa using hname
    | cons other names =>
      have hcomma : [Token.comma].filter (· ≠ .comma) = [] := by simp
      rw [List.map_cons, List.map_cons] at ih
      rw [List.map_cons, List.map_cons, List.intercalate_cons_cons, List.filter_append,
        List.filter_append, hname, hcomma, ih]
      rfl

theorem labelsTokens_injective : Function.Injective labelsTokens := by
  intro names names' h
  have hinside := List.append_cancel_right (List.cons.inj h).2
  have htokens := congrArg (List.filter (· ≠ Token.comma)) hinside
  rw [filter_comma_labels, filter_comma_labels] at htokens
  have hname : Function.LeftInverse Token.labelName labelToken := labelName_labelToken
  exact List.map_injective_iff.mpr hname.injective htokens

/-- Labels in parentheses are scanned as their tokens. -/
theorem scan_labels (names : List Text) :
    Token.scan .plain ('(' :: labelsText names ++ [')']) = some (labelsTokens names) := by
  refine (spells_labels names).ofAnything.scan fun t ht => ?_
  rw [labelsTokens, List.mem_append, List.mem_cons, List.mem_singleton] at ht
  rcases ht with (rfl | ht) | rfl
  · simp
  · rcases mem_intercalate ht with hsep | ⟨_, hmem, ht⟩
    · cases List.mem_singleton.mp hsep
      simp
    · obtain ⟨name, -, rfl⟩ := List.mem_map.mp hmem
      cases List.mem_singleton.mp ht
      exact labelToken_ne rfl name
  · simp

/-- Lists of names are told apart by their texts. -/
theorem labelsText_injective : Function.Injective labelsText := by
  intro names names' h
  have hscan := scan_labels names
  rw [h, scan_labels, Option.some.injEq] at hscan
  exact labelsTokens_injective hscan.symm

/-! ### Closing parentheses -/

/-- A text up to its first closing parenthesis outside of quotes, and the text behind it. -/
def throughClose? : QuoteState → Text → Option (Text × Text)
  | _, [] => none
  | state, c :: cs =>
    if state = .outside ∧ c = ')' then some ([c], cs)
    else (throughClose? (state.next c) cs).map fun cut => (c :: cut.1, cut.2)

theorem throughClose?_append {state : QuoteState} {a : Text} (hbehind : state.behind a = .outside)
    (hclose : ')' ∉ unquoted state a) (rest : Text) :
    throughClose? state (a ++ ')' :: rest) = some (a ++ [')'], rest) := by
  induction a generalizing state with
  | nil =>
    rw [QuoteState.behind_nil] at hbehind
    rw [hbehind]
    rfl
  | cons c cs ih =>
    have hcut : unquoted state (c :: cs) = unquoted state [c] ++ unquoted (state.next c) cs :=
      unquoted_append state [c] cs
    rw [hcut, List.mem_append, not_or] at hclose
    have hother : ¬ (state = .outside ∧ c = ')') := by
      rintro ⟨rfl, rfl⟩
      exact hclose.1 List.mem_cons_self
    rw [List.cons_append, throughClose?, if_neg hother, ih hbehind hclose.2]
    rfl

/-- A list of labels has no bracket outside of quotes. -/
theorem flat_labelsText (names : List Text) : Flat (fun _ => True) (labelsText names) :=
  .labelsText fun _ _ => trivial

/-- The only closing parenthesis of a clause outside of quotes is its last character. -/
theorem throughClose?_clause {word : String} (hword : word.toList.all isFlat = true)
    (names : List Text) (rest : Text) :
    throughClose? .outside (clause word names ++ rest) = some (clause word names, rest) := by
  have hopened : Composed (fun c => isFlat c || c == '(') (fun _ => True)
      (word.toList ++ '(' :: labelsText names) := by
    have hflat : ∀ c, isFlat c → (isFlat c || c == '(') := fun c hc => by simp [hc]
    exact ((Flat.of_all hword).mono hflat).append
      (((flat_labelsText names).mono hflat).cons (by decide))
  obtain ⟨hbehind, houtside⟩ := hopened.unquoted_spec (by decide)
  have hclose : ')' ∉ unquoted .outside (word.toList ++ '(' :: labelsText names) :=
    fun hmem => absurd (houtside _ hmem) (by decide)
  have hclause : clause word names = word.toList ++ '(' :: labelsText names ++ [')'] := by
    simp [clause]
  rw [hclause, List.append_assoc _ [')'] rest]
  exact throughClose?_append hbehind hclose rest

/-- A clause of the language around a list of labels. A side of many series is one of them only if
it has labels, since it is written without parentheses otherwise. -/
inductive IsClause (names : List Text) : Text → Prop where
  | grouping {c : LabelChoice} (hlabels : c.labels = names) : IsClause names c.groupingText
  | matching {m : BinaryModifiers} {c : LabelChoice} {t : Text} (hmatching : m.matching = some c)
      (hlabels : c.labels = names) (ht : m.matchingText? = some t) : IsClause names t
  | side {g : Grouping} (hlabels : g.labels = names) (hne : names ≠ []) : IsClause names g.text

theorem IsClause.exists_word {names : List Text} {t : Text} (h : IsClause names t) :
    ∃ word : String, word.toList.all isFlat = true ∧ t = clause word names := by
  cases h with
  | @grouping c hlabels =>
    subst hlabels
    cases c with
    | only labels => exact ⟨"by ", by decide, rfl⟩
    | allBut labels => exact ⟨"without ", by decide, rfl⟩
  | @matching m c t hmatching hlabels ht =>
    subst hlabels
    rw [BinaryModifiers.matchingText?, hmatching, Option.bind_some] at ht
    unfold LabelChoice.matchingText? at ht
    split at ht
    · exact ⟨"on", by decide, (Option.some.inj ht).symm⟩
    · cases ht
    · exact ⟨"ignoring", by decide, (Option.some.inj ht).symm⟩
  | @side g hlabels hne =>
    subst hlabels
    refine ⟨g.many.text, by cases g.many <;> decide, ?_⟩
    rw [Grouping.text, if_neg (by simpa using hne)]

/-- Lists of names are told apart by their texts, which have no closing parenthesis outside of
quotes. So a clause ends at the first one, whatever stands behind it. -/
theorem labelsText_unambiguous (names names' : List Text) :
    (labelsText names = labelsText names' ↔ names = names') ∧
      ')' ∉ unquoted .outside (labelsText names) ∧
      ∀ t, IsClause names t → ∀ rest, throughClose? .outside (t ++ rest) = some (t, rest) := by
  refine ⟨labelsText_injective.eq_iff, fun hmem => ?_, ?_⟩
  · have houtside := ((flat_labelsText names).unquoted_spec (by decide)).2
    exact absurd (houtside _ hmem) (by decide)
  · intro t ht rest
    obtain ⟨word, hword, rfl⟩ := ht.exists_word
    exact throughClose?_clause hword names rest

end PromQL

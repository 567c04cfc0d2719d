import Mathlib
import PromQL.Expr.Layout
import PromQL.Proofs.Expr.Canonical
import PromQL.Proofs.Expr.Shape
import PromQL.Proofs.Expr.Tokens
import PromQL.Proofs.Text.Quoted
import PromQL.Proofs.Token.Scanning

/-!
# Written expressions spell their tokens

An expression on one line, and laid out over several lines, spells the tokens of its canonical form
in front of everything that does not go on a word.
-/

namespace PromQL

/-! ### What follows a part -/

/-- Whether a text starts with a blank. -/
def IsSpaced (rest : Text) : Prop := ∃ c ∈ rest.head?, Lexeme.isSpace c

theorem isBoundary_cons {c : Char} {cs : Text} (h : ¬ isWordChar c ∧ c ≠ ':' ∧ c ≠ '.') :
    IsBoundary (c :: cs) := by
  rintro d ⟨⟩
  exact h

theorem isNameEnd_cons {c : Char} {cs : Text} (h : ¬ isWordChar c) : IsNameEnd (c :: cs) := by
  rintro d ⟨⟩
  exact h

theorem IsSpaced.isBoundary {rest : Text} (h : IsSpaced rest) : IsBoundary rest := by
  obtain ⟨c, hc, hspace⟩ := h
  intro d hd
  cases hc.symm.trans hd
  simp only [Lexeme.isSpace, Bool.or_eq_true, beq_iff_eq] at hspace
  rcases hspace with (((rfl | rfl) | rfl) | rfl) | rfl <;> decide

theorem IsBoundary.byHead : ByHead IsBoundary := fun _ _ h hrest c hc => hrest c (h ▸ hc)

theorem IsNameEnd.byHead : ByHead IsNameEnd := fun _ _ h hrest c hc => hrest c (h ▸ hc)

theorem IsSpaced.byHead : ByHead IsSpaced := fun _ _ h ⟨c, hc, hspace⟩ => ⟨c, h ▸ hc, hspace⟩

theorem isSpaced_cons {c : Char} {cs : Text} (h : Lexeme.isSpace c) : IsSpaced (c :: cs) :=
  ⟨c, rfl, h⟩

theorem IsSpaced.append {a rest : Text} (ha : a = [] ∨ IsSpaced a) (h : IsSpaced rest) :
    IsSpaced (a ++ rest) := by
  rcases ha with rfl | ⟨c, hc, hspace⟩
  · exact h
  · refine ⟨c, ?_, hspace⟩
    cases a with
    | nil => cases hc
    | cons d ds => exact hc

/-! ### Words and literals -/

theorem isFixed_of_isDigit {ds : Text} (h : ∀ c ∈ ds, c.isDigit) : IsFixed ds := by
  intro c hc
  refine ⟨?_, ?_⟩ <;> rintro rfl <;> exact absurd (h _ hc) (by decide)

theorem IsFixed.append {a b : Text} (ha : IsFixed a) (hb : IsFixed b) : IsFixed (a ++ b) := by
  intro c hc
  rcases List.mem_append.mp hc with hc | hc
  · exact ha c hc
  · exact hb c hc

theorem NumberParts.IsDigits.isFixed {n : NumberParts} (h : n.IsDigits) : IsFixed n.text := by
  have hfraction : IsFixed n.fractionText := by
    unfold fractionText
    cases hn : n.fraction with
    | none => decide
    | some ds =>
      exact IsFixed.append (a := ['.']) (by decide) (isFixed_of_isDigit (h.fraction ds hn))
  have hexponent : IsFixed n.exponentText := by
    unfold exponentText
    cases hn : n.exponent with
    | none => decide
    | some e =>
      refine IsFixed.append (a := ['e']) (by decide) (IsFixed.append ?_ ?_)
      · split <;> decide
      · exact isFixed_of_isDigit (h.exponent e hn).2
  exact ((isFixed_of_isDigit h.whole).append hfraction).append hexponent

theorem Duration.isFixed_text (d : Duration) : IsFixed d.text := by
  rw [text_eq_parts]
  intro c hc
  obtain ⟨g, -, hc⟩ := List.mem_flatMap.mp hc
  refine IsFixed.append (isFixed_of_isDigit fun _ => isDigit_of_mem_decimal) ?_ c hc
  cases g.2 <;> decide

namespace Spells

variable {mode mode' : LexMode} {a : Text} {ts : List Token} {ok : Text → Prop}

/-- A sign outside of braces and brackets. -/
theorem plainSign {t : Token} {c : Char} (hspelling : t.spelling = [c])
    (h : t = .leftParen ∨ t = .rightParen ∨ t = .leftBrace ∨ t = .comma ∨ t = .atSign ∨
      t = .operator .add ∨ t = .operator .sub) (ha : Spells (LexMode.plain.after t) a ts mode' ok) :
    Spells .plain (c :: a) (t :: ts) mode' ok := by
  have hsign : t.isSign := by rcases h with rfl | rfl | rfl | rfl | rfl | rfl | rfl <;> rfl
  exact sign hspelling hsign (fun _ => Token.reads_sign _ (.inl ⟨rfl, h⟩)) ha

theorem word {w : Text} (hw : isBareMetric w) :
    Spells .plain w [Lexeme.ofWord w] .plain IsBoundary :=
  fun _ _ hrest hus => .word hw hrest hus

/-- A word that the lexer takes for a keyword. -/
theorem keyword {k : Keyword} {w : Text} (hw : isBareMetric w)
    (h : Lexeme.ofWord w = .keyword k w) : Spells .plain w [.keyword k w] .plain IsBoundary :=
  h ▸ word hw

theorem number {n : NumberParts} (hn : n.IsDigits) :
    Spells .plain n.text [.number n.text] .plain IsBoundary := by
  refine fixed (t := .number n.text) ?_ hn.isFixed IsBoundary.byHead
    fun _ => Lexeme.reads_number hn nofun
  simp [Token.spelling, NumberParts.text, hn.whole_ne_nil]

theorem quoted (s : Text) (hmode : mode = .plain ∨ mode = .braces) :
    Spells mode (quote s) [quotedToken s] mode Anything :=
  fun _ _ _ hus => .quoted s hmode hus

theorem duration (mode : LexMode) (d : Duration) (hmode : mode ≠ .braces) :
    Spells mode d.text d.tokens mode IsNameEnd := by
  unfold Duration.tokens
  split_ifs with hnil
  · rw [hnil]
    exact nil
  · exact fixed (t := .duration d.text) hnil d.isFixed_text IsNameEnd.byHead
      fun _ => Lexeme.reads_duration hmode hnil

end Spells

theorem isBareMetric_of_isBareLabel {name : Text} (h : isBareLabel name) : isBareMetric name := by
  cases name with
  | nil => cases h
  | cons c cs =>
    simp only [isBareLabel, isBareMetric, isName_cons, Bool.and_eq_true, List.all_eq_true] at h ⊢
    exact ⟨by simp [h.1], fun d hd => by simp [h.2 d hd]⟩

/-! ### Numbers and times -/

theorem spells_signText (negative : Bool) {a : Text} {ts : List Token} {mode : LexMode}
    {ok : Text → Prop} (h : Spells .plain a ts mode ok) :
    Spells .plain (Double.signText negative ++ a) (signTokens negative ++ ts) mode ok := by
  cases negative with
  | false => exact h
  | true => exact h.plainSign rfl (by simp)

/-- A word that the lexer takes for a number. -/
theorem Spells.numberWord {w : Text} (hw : isBareMetric w) (h : Lexeme.ofWord w = .number w) :
    Spells .plain w [.number w] .plain IsBoundary :=
  h ▸ word hw

theorem Double.spells_numeral (v : Double) :
    Spells .plain v.numeral v.tokens .plain IsBoundary := by
  have hinf : Spells .plain "Inf".toList [.number "Inf".toList] .plain IsBoundary :=
    Spells.numberWord rfl rfl
  match v with
  | .nan => exact Spells.numberWord rfl rfl
  | .infinite false => exact hinf.plainSign rfl (by simp)
  | .infinite true => exact hinf.plainSign rfl (by simp)
  | .finite negative rank =>
    rw [numeral_finite]
    exact spells_signText negative (Spells.number (isDigits_magnitudeParts rank))

theorem Double.isDigits_placesParts (rank : Nat) : (placesParts rank).IsDigits := by
  refine ⟨decimal_ne_nil _, fun _ => isDigit_of_mem_decimal, ?_, by simp [placesParts]⟩
  rintro ds ⟨⟩ c hc
  exact (List.mem_append.mp hc).elim isDigit_of_mem_replicate isDigit_of_mem_decimal

theorem Double.spells_threePlaces (v : Double) :
    Spells .plain v.threePlaces v.placesTokens .plain IsBoundary := by
  match v with
  | .nan => exact Spells.numberWord rfl rfl
  | .infinite negative => exact spells_signText negative (Spells.numberWord rfl rfl)
  | .finite negative rank =>
    have hnumber := spells_signText negative (Spells.number (isDigits_placesParts rank.val))
    simpa [threePlaces, placesTokens, placesParts, NumberParts.text, NumberParts.fractionText,
      NumberParts.exponentText] using hnumber

theorem Instant.spells_text (t : Instant) :
    Spells .plain t.text t.tokens .plain IsBoundary := by
  have hclosed : Spells .plain ['(', ')'] [.leftParen, .rightParen] .plain IsBoundary :=
    (Spells.nil.plainSign rfl (by simp)).plainSign rfl (by simp)
  have hword : ∀ {k : Keyword} {w : Text}, isBareMetric w → Lexeme.ofWord w = .keyword k w →
      Spells .plain ('@' :: ' ' :: (w ++ ['(', ')']))
        [.atSign, .keyword k w, .leftParen, .rightParen] .plain IsBoundary := by
    intro k w hw hk
    have h := (Spells.keyword hw hk).append hclosed fun _ _ => isBoundary_cons (by decide)
    exact (h.blank rfl).plainSign rfl (by simp)
  match t with
  | .queryStart => exact hword rfl rfl
  | .queryEnd => exact hword rfl rfl
  | .epoch t => exact ((Double.spells_threePlaces _).blank (c := ' ') rfl).plainSign rfl (by simp)

theorem Offset.spells_text (o : Offset) : Spells .plain o.text o.tokens .plain IsNameEnd := by
  have hduration := spells_signText o.negative
    (Spells.duration .plain o.duration nofun)
  have hword : Spells .plain "offset".toList [.keyword .offset "offset".toList] .plain IsBoundary :=
    Spells.keyword rfl rfl
  have hspelled := hword.append (hduration.blank (c := ' ') rfl) fun _ _ =>
    isBoundary_cons (by decide)
  have htext : o.text =
      "offset".toList ++ ' ' :: (Double.signText o.negative ++ o.duration.text) := by
    have hspace : "offset ".toList = "offset".toList ++ [' '] := by decide
    have h := congrArg (· ++ Double.signText o.negative ++ o.duration.text) hspace
    refine h.trans ?_
    simp only [List.append_assoc, List.cons_append, List.nil_append]
  rw [htext]
  exact hspelled

theorem Modifiers.spells_text (m : Modifiers) :
    Spells .plain m.text m.tokens .plain IsBoundary := by
  have htime : Spells .plain ((m.time.map fun t => ' ' :: t.text).getD [])
      ((m.time.map Instant.tokens).getD []) .plain IsBoundary := by
    cases m.time with
    | none => exact Spells.nil
    | some t => exact t.spells_text.blank rfl
  cases hoffset : m.offset with
  | none => simpa [text, tokens, hoffset] using htime
  | some o =>
    have hboth := htime.append
      ((o.spells_text.blank (c := ' ') rfl).weaken fun _ => IsBoundary.isNameEnd)
      fun _ _ => isBoundary_cons (by decide)
    simpa [text, tokens, hoffset] using hboth

theorem Modifiers.text_boundary (m : Modifiers) {rest : Text} (h : IsBoundary rest) :
    IsBoundary (m.text ++ rest) := by
  unfold text
  cases m.time <;> cases m.offset <;>
    first | exact h | exact isBoundary_cons (by decide)

/-! ### Matchers -/

/-- The operator of a matcher, if no sign follows that would go on with it. -/
theorem reads_matchOp (op : MatchOp) {rest : Text} (h : rest.head? ≠ some '~') :
    (Token.matchOp op).Reads .braces rest := by
  refine ⟨by cases op <;> rintro c ⟨⟩ <;> decide, ?_⟩
  cases op with
  | equal =>
    cases rest with
    | nil => rfl
    | cons c cs =>
      have hc : c ≠ '~' := fun hc => h (congrArg some hc)
      show Lexeme.braces? ('=' :: c :: cs) = _
      rw [Lexeme.braces?]
      · rfl
      · rintro _ ⟨⟩
        exact hc rfl
  | _ => rfl

theorem Matcher.spells_text (m : Matcher) :
    Spells .braces m.text m.tokens .braces Anything := by
  have hop : Spells .braces m.op.text [.matchOp m.op] .braces (fun rest => rest.head? = some '"') :=
    Spells.fixed (t := .matchOp m.op) (by cases m.op <;> nofun) (Token.isFixed_of_isSign rfl)
      (fun _ _ hhead h => hhead ▸ h) fun rest h => reads_matchOp m.op (by rw [h]; decide)
  have hvalue := hop.append (Spells.quoted m.value (.inr rfl)) fun _ _ => rfl
  unfold text tokens labelText
  rw [List.append_assoc]
  split_ifs with hbare
  · have hname : Spells .braces m.name [.identifier m.name] .braces
        fun rest => rest.head? = some '=' ∨ rest.head? = some '!' := by
      intro us rest hrest hus
      refine .label hbare (fun c hc => ?_) (fun hspace => ?_) hus
      · rcases hrest with h | h <;> rw [h] at hc <;> cases hc <;> decide
      · rw [hspace] at hrest
        simp at hrest
    refine hname.append hvalue fun rest _ => ?_
    cases m.op <;> simp [MatchOp.text]
  · exact (Spells.quoted m.name (.inr rfl)).append hvalue fun _ _ => trivial

/-- The canonical text of a group. -/
def Matchers.written (group : List Matcher) : Text := [','].intercalate (group.map Matcher.text)

theorem Matchers.spells_written (group : List Matcher) :
    Spells .braces (written group) (groupTokens group) .braces Anything := by
  have hcomma : Spells .braces [','] [.comma] .braces Anything :=
    Spells.nil.sign (t := .comma) rfl rfl fun _ => Token.reads_sign _ (by simp)
  exact hcomma.intercalate (fun _ => trivial) fun m _ => m.spells_text

theorem Matcher.text_ne_nil (m : Matcher) : m.text ≠ [] := by
  intro h
  simp [text, quote] at h

theorem Matchers.written_eq_nil_iff (group : List Matcher) : written group = [] ↔ group = [] := by
  constructor
  · intro h
    cases group with
    | nil => rfl
    | cons m ms =>
      cases ms with
      | nil => simp [written, Matcher.text_ne_nil] at h
      | cons n ns => simp [written, List.intercalate_cons_cons, Matcher.text_ne_nil] at h
  · rintro rfl
    rfl

/-- The canonical form has no empty group. -/
theorem Matchers.groups_canonical_eq_filter (metric : Option Text) (ms : Matchers) :
    (ms.canonical metric).groups =
      (ms.groups.map (canonicalGroup metric)).filter fun group => !group.isEmpty := by
  unfold groups canonical
  cases hgroup : ms.group with
  | nil => simp [canonicalGroup]
  | cons m ns =>
    simp only [List.isEmpty_cons, Bool.false_eq_true, if_false, List.map_cons, List.filter_cons]
    cases canonicalGroup metric (m :: ns) <;> simp

/-- The groups that are written are those of the canonical form. -/
theorem Matchers.groupTexts_eq (metric : Option Text) (ms : Matchers) :
    ms.groupTexts metric = (ms.canonical metric).groups.map written := by
  have hfilter : ∀ groups : List (List Matcher),
      (groups.map (groupText metric)).filter (fun t => !t.isEmpty) =
        ((groups.map (canonicalGroup metric)).filter fun g => !g.isEmpty).map written := by
    intro groups
    rw [List.filter_map, List.filter_map, List.map_map]
    congr 1
    refine List.filter_congr fun g _ => ?_
    show (!(written (canonicalGroup metric g)).isEmpty) = !(canonicalGroup metric g).isEmpty
    rw [Bool.eq_iff_iff]
    simp [written_eq_nil_iff]
  rw [groupTexts, hfilter, groups_canonical_eq_filter]

/-- What is written between the braces. -/
theorem Matchers.spells_inside (ms : Matchers) :
    Spells .braces (orText.intercalate (ms.groups.map written)) ms.inside .braces Anything := by
  have hor : Spells .braces orText [.orWord] .braces Anything :=
    (Spells.fixed (t := .orWord) nofun (Token.isFixed_of_isSign rfl) (fun _ _ _ h => h)
      fun _ _ => Token.reads_sign _ (by simp)).blank rfl
  exact hor.intercalate (fun _ => trivial) fun group _ => spells_written group

/-- What is written inside of braces, with the braces around it. -/
theorem spells_braced {a : Text} {ts : List Token} (h : Spells .braces a ts .braces Anything) :
    Spells .plain ('{' :: a ++ ['}']) (.leftBrace :: ts ++ [.rightBrace]) .plain Anything := by
  have hclose : Spells .braces ['}'] [.rightBrace] .plain Anything :=
    Spells.nil.sign (t := .rightBrace) rfl rfl fun _ => Token.reads_sign _ (by simp)
  exact (h.append hclose fun _ _ => trivial).plainSign (t := .leftBrace) rfl (by simp)

theorem Matchers.spells_text (metric : Option Text) (ms : Matchers) :
    Spells .plain (ms.text metric) (ms.canonical metric).tokens .plain Anything := by
  have hinside := spells_braced (ms.canonical metric).spells_inside
  unfold text tokens
  rw [groupTexts_eq]
  cases hgroups : (ms.canonical metric).groups with
  | nil => simpa using Spells.nil
  | cons g gs => simpa [hgroups] using hinside

theorem Matchers.text_boundary (metric : Option Text) (ms : Matchers) {rest : Text}
    (h : IsBoundary rest) : IsBoundary (ms.text metric ++ rest) := by
  unfold text
  split
  · exact h
  · exact isBoundary_cons (by decide)

theorem Selector.spells_body {s : Selector} (hs : s.Formed) :
    Spells .plain s.body s.canonical.tokens .plain IsBoundary := by
  have hmatchers : Spells .plain (s.matchers.text s.name) (s.matchers.canonical s.name).tokens
      .plain IsBoundary := (Matchers.spells_text s.name s.matchers).ofAnything
  cases hname : s.name with
  | none => simpa [body, selectorText, tokens, canonical, hname] using hmatchers
  | some name =>
    have hbare := (hs.name name hname).1
    have hall := (Spells.word hbare).append hmatchers fun _ hrest =>
      Matchers.text_boundary s.name s.matchers hrest
    simpa [body, selectorText, tokens, canonical, hname, hbare] using hall

/-! ### Clauses -/

theorem spells_close {a : Text} {ts : List Token} {mode : LexMode} {ok : Text → Prop}
    (h : Spells mode a ts .plain ok) (hok : ∀ rest, ok (')' :: rest)) :
    Spells mode (a ++ [')']) (ts ++ [.rightParen]) .plain Anything :=
  h.append (Spells.nothing.plainSign rfl (by simp)) fun rest _ => hok rest

theorem spells_labelText (name : Text) :
    Spells .plain (labelText name) [labelToken name] .plain IsBoundary := by
  unfold labelText labelToken
  split_ifs with hbare
  · exact Spells.word (isBareMetric_of_isBareLabel hbare)
  · exact (Spells.quoted name (.inl rfl)).ofAnything

/-- A comma and a space between two parts. -/
theorem spells_comma : Spells .plain ", ".toList [.comma] .plain Anything :=
  (Spells.nothing.blank (c := ' ') rfl).plainSign rfl (by simp)

theorem spells_labels (labels : List Text) :
    Spells .plain ('(' :: labelsText labels ++ [')']) (labelsTokens labels) .plain Anything := by
  have hlabels : Spells .plain (labelsText labels)
      ([Token.comma].intercalate (labels.map fun name => [labelToken name])) .plain IsBoundary :=
    spells_comma.intercalate (fun _ => isBoundary_cons (by decide)) fun name _ =>
      spells_labelText name
  exact (spells_close hlabels fun _ => isBoundary_cons (by decide)).plainSign rfl (by simp)

/-- A keyword and labels in parentheses right behind it. -/
theorem spells_clause {k : Keyword} {w : String} (labels : List Text) (hw : isBareMetric w.toList)
    (hk : Lexeme.ofWord w.toList = .keyword k w.toList) :
    Spells .plain (clause w labels) (.keyword k w.toList :: labelsTokens labels) .plain
      Anything := by
  have h := (Spells.keyword hw hk).append (spells_labels labels) fun _ _ =>
    isBoundary_cons (by decide)
  simpa [clause] using h

theorem LabelChoice.spells_groupingText (c : LabelChoice) :
    Spells .plain c.groupingText c.groupingTokens .plain Anything := by
  have hword : ∀ {k : Keyword} {w : Text} (labels : List Text), isBareMetric w →
      Lexeme.ofWord w = .keyword k w →
      Spells .plain (w ++ ' ' :: '(' :: labelsText labels ++ [')'])
        (.keyword k w :: labelsTokens labels) .plain Anything := by
    intro k w labels hw hk
    have h := (Spells.keyword hw hk).append ((spells_labels labels).blank (c := ' ') rfl)
      fun _ _ => isBoundary_cons (by decide)
    simpa using h
  cases c with
  | only labels => exact hword labels rfl rfl
  | allBut labels => exact hword labels rfl rfl

/-- The matching clause that is written. -/
theorem BinaryModifiers.spells_matchingText? (m : BinaryModifiers) :
    m.matchingText? = none ∧ m.canonical.matching = none ∨
      ∃ t c, m.matchingText? = some t ∧ m.canonical.matching = some c ∧
        Spells .plain t c.matchingTokens .plain Anything := by
  unfold matchingText? canonical
  match m.matching with
  | none => exact .inl ⟨rfl, rfl⟩
  | some (.only labels) =>
    exact .inr ⟨_, _, rfl, rfl, spells_clause labels rfl rfl⟩
  | some (.allBut []) => exact .inl ⟨rfl, rfl⟩
  | some (.allBut (l :: ls)) =>
    exact .inr ⟨_, _, rfl, rfl, spells_clause (l :: ls) rfl rfl⟩

theorem Grouping.spells_text (g : Grouping) :
    Spells .plain g.text g.tokens .plain IsBoundary := by
  have hword : Lexeme.ofWord g.many.text.toList = .keyword (.group g.many) g.many.text.toList := by
    cases g.many <;> rfl
  have hbare : isBareMetric g.many.text.toList := by cases g.many <;> rfl
  unfold text tokens
  cases hlabels : g.labels with
  | nil => exact Spells.keyword hbare hword
  | cons l ls => exact (spells_clause (l :: ls) hbare hword).ofAnything

theorem BinaryOp.spells_text (op : BinaryOp) :
    Spells .plain op.text [op.token] .plain IsSpaced := by
  have hsign : ∀ o : BinaryOp, o.token = .operator o → o.text ≠ [] →
      (∀ c ∈ o.text.head?, ¬ Lexeme.isSpace c ∧ c ≠ '#') →
      (∀ c ∈ [' ', '\t', '\n', '\r', '\x0c'], ∀ rest,
        Lexeme.plain? (o.text ++ c :: rest) = some ⟨.operator o, .plain, c :: rest⟩) →
      Spells .plain o.text [o.token] .plain IsSpaced := by
    intro o htoken hne hstart hread
    rw [htoken]
    refine Spells.fixed (t := .operator o) hne (Token.isFixed_of_isSign rfl) IsSpaced.byHead
      fun rest hrest => ⟨hstart, ?_⟩
    obtain ⟨c, hc, hspace⟩ := hrest
    cases rest with
    | nil => cases hc
    | cons d ds =>
      cases hc
      refine hread c ?_ ds
      simpa [Lexeme.isSpace, or_assoc] using hspace
  cases op
  case or | and | exclude | atan2 =>
    exact (Spells.keyword rfl rfl).weaken fun _ => IsSpaced.isBoundary
  all_goals
    refine hsign _ rfl (by decide) (by rintro c ⟨⟩; decide) ?_
    simp only [List.mem_cons, List.not_mem_nil, or_false]
    rintro c (rfl | rfl | rfl | rfl | rfl) rest <;> rfl

/-! ### Operators with their modifiers -/

/-- A text that may be missing, with a space in front. -/
theorem spells_spaced {t : Option Text} {ts : List Token} {a : Text} (h : t = some a)
    (ha : Spells .plain a ts .plain IsBoundary) :
    Spells .plain (spaced t) ts .plain IsSpaced ∧ IsSpaced (spaced t) := by
  rw [h, spaced_some]
  exact ⟨(ha.blank rfl).weaken fun _ => IsSpaced.isBoundary, isSpaced_cons rfl⟩

theorem isSpaced_spaced (t : Option Text) : spaced t = [] ∨ IsSpaced (spaced t) := by
  cases t with
  | none => exact .inl rfl
  | some t => exact .inr (isSpaced_cons rfl)

theorem BinaryModifiers.spells_group (m : BinaryModifiers) :
    Spells .plain (spaced (m.grouping.map Grouping.text))
      ((m.grouping.map Grouping.tokens).getD []) .plain IsSpaced := by
  cases hgrouping : m.grouping with
  | none => exact Spells.nil
  | some g => exact (spells_spaced rfl g.spells_text).1

theorem BinaryModifiers.spells_bool (m : BinaryModifiers) :
    Spells .plain (if m.returnBool then " bool".toList else [])
      (if m.returnBool then [.keyword .bool "bool".toList] else []) .plain IsSpaced := by
  split_ifs
  · have hword : Spells .plain "bool".toList [.keyword .bool "bool".toList] .plain IsBoundary :=
      Spells.keyword rfl rfl
    exact (hword.blank (c := ' ') rfl).weaken fun _ => IsSpaced.isBoundary
  · exact Spells.nil

theorem isSpaced_bool (m : BinaryModifiers) :
    (if m.returnBool then " bool".toList else []) = [] ∨
      IsSpaced (if m.returnBool then " bool".toList else []) := by
  split_ifs
  · exact .inr (isSpaced_cons rfl)
  · exact .inl rfl

/-- The matching clause that is written, with a space in front. -/
theorem BinaryModifiers.spells_matching (m : BinaryModifiers) :
    Spells .plain (spaced m.matchingText?)
      ((m.canonical.matching.map LabelChoice.matchingTokens).getD []) .plain IsSpaced := by
  rcases m.spells_matchingText? with ⟨htext, hmatching⟩ | ⟨t, c, htext, hmatching, h⟩
  · rw [htext, hmatching]
    exact Spells.nil
  · rw [hmatching]
    exact (spells_spaced htext (h.ofAnything)).1

/-- An operator with all its modifiers in front of a blank. -/
theorem BinaryModifiers.spells_operatorText (m : BinaryModifiers) (op : BinaryOp) :
    Spells .plain (m.operatorText op true) (op.token :: m.canonical.tokens) .plain IsSpaced := by
  have htail := m.spells_matching.append m.spells_group fun _ =>
    IsSpaced.append (isSpaced_spaced _)
  have hmodifiers := m.spells_bool.append htail fun _ hrest => by
    rw [List.append_assoc]
    exact IsSpaced.append (isSpaced_spaced _) (IsSpaced.append (isSpaced_spaced _) hrest)
  have hall := op.spells_text.append hmodifiers fun _ hrest => by
    rw [List.append_assoc, List.append_assoc]
    exact IsSpaced.append (isSpaced_bool m) (IsSpaced.append (isSpaced_spaced _)
      (IsSpaced.append (isSpaced_spaced _) hrest))
  have htext : m.operatorText op true = op.text ++
      ((if m.returnBool then " bool".toList else []) ++
        (spaced m.matchingText? ++ spaced (m.grouping.map Grouping.text))) := by
    simp only [operatorText, if_true, List.append_assoc]
  rw [htext]
  exact hall

/-- Set operators have no group modifier, so their matching clause may stand behind it. -/
theorem BinaryModifiers.spells_setOperator {m : BinaryModifiers} (op : BinaryOp)
    (hgrouping : m.grouping = none) :
    Spells .plain (m.operatorText op false ++ (m.matchingText?.map ("\n\n".toList ++ ·)).getD [])
      (op.token :: m.canonical.tokens) .plain IsSpaced := by
  have hmatching : Spells .plain ((m.matchingText?.map ("\n\n".toList ++ ·)).getD [])
      ((m.canonical.matching.map LabelChoice.matchingTokens).getD []) .plain IsSpaced := by
    rcases m.spells_matchingText? with ⟨htext, hmatching⟩ | ⟨t, c, htext, hmatching, h⟩
    · rw [htext, hmatching]
      exact Spells.nil
    · rw [htext, hmatching]
      exact ((h.blank (c := '\n') rfl).blank (c := '\n') rfl).ofAnything
  have hspaced : (m.matchingText?.map ("\n\n".toList ++ ·)).getD [] = [] ∨
      IsSpaced ((m.matchingText?.map ("\n\n".toList ++ ·)).getD []) := by
    cases m.matchingText? with
    | none => exact .inl rfl
    | some t => exact .inr (isSpaced_cons rfl)
  have hmodifiers := m.spells_bool.append hmatching fun _ => IsSpaced.append hspaced
  have hall := op.spells_text.append hmodifiers fun _ hrest => by
    rw [List.append_assoc]
    exact IsSpaced.append (isSpaced_bool m) (IsSpaced.append hspaced hrest)
  have htext : m.operatorText op false = op.text ++
      (if m.returnBool then " bool".toList else []) := by
    simp [operatorText, hgrouping]
  have htokens : m.canonical.tokens =
      (if m.returnBool then [.keyword .bool "bool".toList] else []) ++
      (m.canonical.matching.map LabelChoice.matchingTokens).getD [] := by
    simp only [tokens, canonical, hgrouping, Option.map_none, Option.getD_none, List.append_nil]
  rw [htext, htokens, List.append_assoc]
  exact hall

/-! ### Nodes around texts -/

section Nodes

variable {a b : Text} {ts us : List Token}

theorem spells_aggregateText {op : AggregateOp} {g : Option LabelChoice} {p : Option Text}
    (hp : Spells .plain ((p.map (· ++ ", ".toList)).getD []) us .plain Anything)
    (ha : Spells .plain a ts .plain IsBoundary) :
    Spells .plain (aggregateText op g p a)
      (.keyword (.aggregate op) op.text :: ((g.map LabelChoice.groupingTokens).getD [] ++
        .leftParen :: (us ++ (ts ++ [.rightParen])))) .plain Anything := by
  have hop : Spells .plain op.text [.keyword (.aggregate op) op.text] .plain IsBoundary :=
    Spells.keyword (by cases op <;> rfl) (by cases op <;> rfl)
  have hgrouping : Spells .plain ((g.map fun g => ' ' :: g.groupingText ++ [' ']).getD [])
      ((g.map LabelChoice.groupingTokens).getD []) .plain Anything := by
    cases g with
    | none => exact Spells.nil
    | some g =>
      have hspace : Spells .plain [' '] [] .plain Anything := Spells.nil.blank rfl
      have h := (g.spells_groupingText.blank (c := ' ') rfl).append hspace fun _ _ => trivial
      simpa using h
  have hinner := (hp.append (spells_close ha fun _ => isBoundary_cons (by decide))
    fun _ _ => trivial).plainSign (t := .leftParen) rfl (by simp)
  have hall := hop.append (hgrouping.append hinner fun _ _ => trivial) fun rest _ => by
    cases g <;> exact isBoundary_cons (by decide)
  simpa [aggregateText] using hall

theorem spells_callText {f : Text} {texts : List Text} {args : List (List Token)}
    (hf : IsPlainWord f)
    (h : Spells .plain (", ".toList.intercalate texts) ([Token.comma].intercalate args) .plain
      IsBoundary) :
    Spells .plain (callText f texts)
      (Lexeme.ofWord f :: .leftParen :: ([Token.comma].intercalate args ++ [.rightParen])) .plain
      Anything := by
  have hinner := (spells_close h fun _ => isBoundary_cons (by decide)).plainSign (t := .leftParen)
    rfl (by simp)
  have hall := (Spells.word hf.1).append hinner fun _ _ => isBoundary_cons (by decide)
  simpa [callText] using hall

theorem spells_subqueryText {range : Duration} {step : Option Duration} {modifiers : Modifiers}
    (ha : Spells .plain a ts .plain IsBoundary) :
    Spells .plain (subqueryText a range step modifiers)
      (ts ++ .leftBracket :: (range.tokens ++ .colon ::
        ((step.map Duration.tokens).getD [] ++ .rightBracket :: modifiers.tokens))) .plain
      IsBoundary := by
  have hend : Spells (.brackets true) (']' :: modifiers.text) (.rightBracket :: modifiers.tokens)
      .plain IsBoundary :=
    modifiers.spells_text.sign (t := .rightBracket) rfl rfl fun _ => Token.reads_sign _ (by simp)
  have hstep : Spells (.brackets true) ((step.map Duration.text).getD [])
      ((step.map Duration.tokens).getD []) (.brackets true) IsNameEnd := by
    cases step with
    | none => exact Spells.nil
    | some d => exact Spells.duration _ d nofun
  have hcolon : Spells (.brackets false)
      (':' :: ((step.map Duration.text).getD [] ++ ']' :: modifiers.text))
      (.colon :: ((step.map Duration.tokens).getD [] ++ .rightBracket :: modifiers.tokens)) .plain
      IsBoundary :=
    Spells.sign (t := .colon) rfl rfl (fun _ => Token.reads_sign _ (by simp))
      (hstep.append hend fun _ _ => isNameEnd_cons (by decide))
  have hrange : Spells (.brackets false) range.text range.tokens (.brackets false) IsNameEnd :=
    Spells.duration _ range nofun
  have hinside := (hrange.append hcolon fun _ _ => isNameEnd_cons (by decide)).bracket
  have hall := ha.append hinside fun _ _ => isBoundary_cons (by decide)
  simpa [subqueryText] using hall

end Nodes

/-! ### Expressions on one line -/

namespace Expr

/-- Arguments with commas in between. -/
theorem spells_arguments {f : Expr → Text} {es : List Expr}
    (h : ∀ e ∈ es, Spells .plain (f e) e.canonical.tokens .plain IsBoundary) :
    Spells .plain (", ".toList.intercalate (es.map f))
      ([Token.comma].intercalate (tokensOf (es.map canonical))) .plain IsBoundary := by
  rw [tokensOf_eq_map, List.map_map]
  exact spells_comma.intercalate (fun _ => isBoundary_cons (by decide)) h

mutual

/-- An expression on one line spells its tokens. -/
theorem spells_line (e : Expr) (he : e.Formed) :
    Spells .plain e.line e.canonical.tokens .plain IsBoundary := by
  match e with
  | number v => exact v.spells_numeral
  | string v => exact (Spells.quoted v (.inl rfl)).ofAnything
  | vector s =>
    exact (Selector.spells_body he).append s.modifiers.spells_text fun _ =>
      s.modifiers.text_boundary
  | matrix s range =>
    have hend : Spells (.brackets false) (']' :: s.modifiers.text)
        (.rightBracket :: s.modifiers.tokens) .plain IsBoundary :=
      s.modifiers.spells_text.sign (t := .rightBracket) rfl rfl fun _ =>
        Token.reads_sign _ (by simp)
    have hrange := ((Spells.duration (.brackets false) range nofun).append hend fun _ _ =>
      isNameEnd_cons (by decide)).bracket
    have hall := (Selector.spells_body he).append hrange fun _ _ => isBoundary_cons (by decide)
    rw [line, List.append_assoc, List.cons_append]
    exact hall
  | subquery inner range step modifiers =>
    rw [canonical_subquery]
    exact spells_subqueryText (inner.spells_line he.1)
  | paren inner =>
    have hinner := spells_close (inner.spells_line he) fun _ => isBoundary_cons (by decide)
    exact (hinner.plainSign (t := .leftParen) rfl (by simp)).ofAnything
  | negate inner => exact (inner.spells_line he.1).plainSign (t := .operator .sub) rfl (by simp)
  | call function arguments =>
    have hargs := spells_arguments (spells_lines arguments he.2)
    rw [← lines_eq_map] at hargs
    rw [canonical_call]
    exact (spells_callText he.1 hargs).ofAnything
  | aggregate op grouping parameter inner =>
    obtain ⟨-, -, hparameter, hinner⟩ := he
    refine (spells_aggregateText ?_ (inner.spells_line hinner)).ofAnything
    match parameter, hparameter with
    | none, _ => exact Spells.nil
    | some p, hp =>
      exact (p.spells_line hp).append spells_comma fun _ _ => isBoundary_cons (by decide)
  | binary op modifiers left right =>
    obtain ⟨hleft, hright, -⟩ := he
    have hblank := (right.spells_line hright).blank (c := ' ') rfl
    have hop := (modifiers.spells_operatorText op).append hblank fun _ _ => isSpaced_cons rfl
    have hall := (left.spells_line hleft).append (hop.blank (c := ' ') rfl) fun _ _ =>
      isBoundary_cons (by decide)
    simpa [line, tokens] using hall

theorem spells_lines (es : List Expr) (hes : AllFormed es) :
    ∀ e ∈ es, Spells .plain e.line e.canonical.tokens .plain IsBoundary := by
  match es, hes with
  | [], _ => simp
  | e :: es, ⟨he, hes⟩ =>
    exact List.forall_mem_cons.mpr ⟨e.spells_line he, spells_lines es hes⟩

end

/-! ### Expressions over several lines -/

theorem isSpace_of_mem_indentation {indent depth : Nat} {c : Char}
    (h : c ∈ indentation indent depth) : Lexeme.isSpace c := by
  rw [List.eq_of_mem_replicate h]
  decide

/-- An operator between laid out operands. -/
theorem spells_binaryLayout {m : BinaryModifiers} {op : BinaryOp} {indent depth : Nat}
    {left right : Text} {ts us : List Token} (hgrouping : op.isSetOp → m.grouping = none)
    (hleft : Spells .plain left ts .plain IsBoundary)
    (hright : Spells .plain right us .plain IsBoundary) :
    Spells .plain (m.layout op (indentation indent depth) left right)
      (ts ++ op.token :: (m.canonical.tokens ++ us)) .plain IsBoundary := by
  have hspace := m.spells_operatorText op
  have hblank := hright.blank (c := ' ') rfl
  have hbreak := hright.blank (c := '\n') rfl
  have hmargin := fun c (hc : c ∈ indentation indent depth) => isSpace_of_mem_indentation hc
  -- the four layouts differ only in the blanks around the operator
  have hset : op.isSetOp → Spells .plain
      (left ++ "\n\n".toList ++ m.operatorText op false ++
        (m.matchingText?.map ("\n\n".toList ++ ·)).getD [] ++ "\n\n".toList ++ right)
      (ts ++ op.token :: (m.canonical.tokens ++ us)) .plain IsBoundary := by
    intro hset
    have hright := (hbreak.blank (c := '\n') rfl)
    have hop := (BinaryModifiers.spells_setOperator op (hgrouping hset)).append hright fun _ _ =>
      isSpaced_cons rfl
    have hall := hleft.append ((hop.blank (c := '\n') rfl).blank (c := '\n') rfl) fun _ _ =>
      isBoundary_cons (by decide)
    simpa using hall
  have hown : Spells .plain
      (left ++ '\n' :: indentation indent depth ++ m.operatorText op true ++ '\n' :: right)
      (ts ++ op.token :: (m.canonical.tokens ++ us)) .plain IsBoundary := by
    have hop := hspace.append hbreak fun _ _ => isSpaced_cons rfl
    have hall := hleft.append ((hop.blanks _ hmargin).blank (c := '\n') rfl) fun _ _ =>
      isBoundary_cons (by decide)
    simpa using hall
  have hstart : Spells .plain
      (left ++ '\n' :: indentation indent depth ++ m.operatorText op true ++ ' ' :: right)
      (ts ++ op.token :: (m.canonical.tokens ++ us)) .plain IsBoundary := by
    have hop := hspace.append hblank fun _ _ => isSpaced_cons rfl
    have hall := hleft.append ((hop.blanks _ hmargin).blank (c := '\n') rfl) fun _ _ =>
      isBoundary_cons (by decide)
    simpa using hall
  have hwithin : Spells .plain (left ++ ' ' :: m.operatorText op true ++ ' ' :: right)
      (ts ++ op.token :: (m.canonical.tokens ++ us)) .plain IsBoundary := by
    have hop := hspace.append hblank fun _ _ => isSpaced_cons rfl
    have hall := hleft.append (hop.blank (c := ' ') rfl) fun _ _ => isBoundary_cons (by decide)
    simpa using hall
  cases op
  case or | and => exact hset rfl
  case div | sub => exact hown
  case equal | notEqual | greater | less | greaterEqual | lessEqual => exact hstart
  all_goals exact hwithin

mutual

/-- An expression over several lines spells its tokens. -/
theorem spells_layout (indent depth : Nat) (e : Expr) (he : e.Formed) :
    Spells .plain (e.layout indent depth) e.canonical.tokens .plain IsBoundary := by
  match e with
  | number _ | string _ | vector _ | matrix _ _ | subquery _ _ _ _ | negate _ =>
    exact spells_line _ he
  | paren inner =>
    have hinner := spells_layout indent (depth + 1) inner he
    have hclose : Spells .plain ('\n' :: indentation indent depth ++ [')']) [.rightParen] .plain
        Anything := by
      have h := Spells.nothing.plainSign (t := .rightParen) rfl (by simp)
      exact (h.blanks _ fun _ => isSpace_of_mem_indentation).blank rfl
    have hinside := hinner.append hclose fun _ _ => isBoundary_cons (by decide)
    have hindented := (hinside.blanks (indentation indent (depth + 1)) fun _ =>
      isSpace_of_mem_indentation).blank (c := '\n') rfl
    have hall := hindented.plainSign (t := .leftParen) rfl (by simp)
    have htext : (paren inner).layout indent depth =
        '(' :: '\n' :: (indentation indent (depth + 1) ++ (inner.layout indent (depth + 1) ++
          ('\n' :: indentation indent depth ++ [')']))) := by
      simp [layout]
    rw [htext]
    exact hall.ofAnything
  | call function arguments =>
    have hargs := spells_arguments (spells_layouts indent (depth + 1) arguments he.2)
    rw [← layouts_eq_map] at hargs
    rw [canonical_call]
    exact (spells_callText he.1 hargs).ofAnything
  | aggregate op grouping parameter inner =>
    obtain ⟨-, -, hparameter, hinner⟩ := he
    refine (spells_aggregateText ?_ (spells_layout indent depth inner hinner)).ofAnything
    match parameter, hparameter with
    | none, _ => exact Spells.nil
    | some p, hp =>
      exact (p.spells_line hp).append spells_comma fun _ _ => isBoundary_cons (by decide)
  | binary op modifiers left right =>
    obtain ⟨hleft, hright, -, -, hgrouping⟩ := he
    exact spells_binaryLayout hgrouping (spells_layout indent depth left hleft)
      (spells_layout indent depth right hright)

theorem spells_layouts (indent depth : Nat) (es : List Expr) (hes : AllFormed es) :
    ∀ e ∈ es, Spells .plain (e.layout indent depth) e.canonical.tokens .plain IsBoundary := by
  match es, hes with
  | [], _ => simp
  | e :: es, ⟨he, hes⟩ =>
    exact List.forall_mem_cons.mpr
      ⟨spells_layout indent depth e he, spells_layouts indent depth es hes⟩

end

/-- A formatted expression spells the tokens of its canonical form. -/
theorem spelled_format (indent : Nat) {e : Expr} (he : e.Formed) :
    Spelled .plain e.canonical.tokens (e.format indent) := by
  have h : Spells .plain (e.format indent) e.canonical.tokens .plain IsBoundary := by
    unfold format
    split_ifs
    · exact spells_line e he
    · exact spells_layout indent 0 e he
  have hall := h [] [] (by simp [IsBoundary]) .nil
  rwa [List.append_nil, List.append_nil] at hall

end Expr

end PromQL

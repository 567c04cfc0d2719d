import Mathlib
import PromQL.Expr.Layout
import PromQL.Proofs.Expr.Clauses
import PromQL.Proofs.Expr.Spelling
import PromQL.Proofs.Expr.Variables
import PromQL.Proofs.Text.Spacing

/-!
# How texts of expressions are put together

A name, a clause, a selector and a literal are written with few characters outside of quotes, none
of which is a bracket or a line break. A whole expression is put together from such texts with
brackets around ranges, parentheses, and operators between operands; this holds of the text on one
line and of the layout over several lines, which differ in the blanks in between.
-/

namespace PromQL

/-! ### Texts with quotes in them -/

theorem isWordChar_of_mem_hexPadded :
    ∀ n < 0xa0, ∀ c ∈ hexPadded 4 n, isWordChar c := by
  have hall : ∀ n < 0xa0, (hexPadded 4 n).all isWordChar := by decide +kernel
  exact fun n hn => List.all_eq_true.mp (hall n hn)

/-- The form of a character in quotes is made of itself, of marks, and of letters and digits. -/
theorem of_mem_escape {c d : Char} (h : d ∈ escape c) :
    d = c ∨ d = '"' ∨ d = '\\' ∨ isWordChar d := by
  have hletter : "abfnrtv\\01234567xuU".toList.all (fun e => e == '\\' || isWordChar e) := by
    decide
  rcases Lexeme.isForm_escape c with ⟨e, hform, he⟩ | ⟨hcontrol, hform⟩ | ⟨-, -, hform⟩
  all_goals rw [hform] at h
  · rcases List.mem_pair.mp h with rfl | rfl
    · exact .inr (.inr (.inl rfl))
    · rcases he with rfl | he
      · exact .inr (.inl rfl)
      · have hd := List.all_eq_true.mp hletter d (List.contains_iff_mem.mp he)
        rw [Bool.or_eq_true, beq_iff_eq] at hd
        exact .inr (.inr hd)
  · rcases List.mem_cons.mp h with rfl | h
    · exact .inr (.inr (.inl rfl))
    rcases List.mem_cons.mp h with rfl | h
    · exact .inr (.inr (.inr rfl))
    · exact .inr (.inr (.inr (isWordChar_of_mem_hexPadded _ (toNat_lt_of_isControl hcontrol) d h)))
  · exact .inl (List.mem_singleton.mp h)

theorem of_mem_quote {v : Text} {d : Char} (h : d ∈ quote v) :
    d ∈ v ∨ d = '"' ∨ d = '\\' ∨ isWordChar d := by
  have hmark : d = '"' → d ∈ v ∨ d = '"' ∨ d = '\\' ∨ isWordChar d := fun h => .inr (.inl h)
  simp only [quote, List.cons_append, List.mem_cons, List.mem_append, List.mem_flatMap,
    List.not_mem_nil, or_false] at h
  rcases h with h | ⟨c, hc, h⟩ | h
  · exact hmark h
  · rcases of_mem_escape h with rfl | h
    · exact .inl hc
    · exact .inr h
  · exact hmark h

/-- A text of characters of one class and of quoted texts that have a property. -/
inductive Composed (isOutside : Char → Bool) (p : Text → Prop) : Text → Prop where
  | nil : Composed isOutside p []
  | cons {c : Char} {t : Text} (hc : isOutside c) (h : Composed isOutside p t) :
      Composed isOutside p (c :: t)
  | quoted {v t : Text} (hv : p v) (h : Composed isOutside p t) :
      Composed isOutside p (quote v ++ t)

namespace Composed

variable {isOutside isOutside' : Char → Bool} {p : Text → Prop} {a b : Text}

theorem append (ha : Composed isOutside p a) (hb : Composed isOutside p b) :
    Composed isOutside p (a ++ b) := by
  induction ha with
  | nil => exact hb
  | cons hc _ ih => exact ih.cons hc
  | quoted hv _ ih =>
    rw [List.append_assoc]
    exact ih.quoted hv

theorem of_forall (h : ∀ c ∈ a, isOutside c) : Composed isOutside p a := by
  induction a with
  | nil => exact nil
  | cons c cs ih =>
    obtain ⟨hc, hcs⟩ := List.forall_mem_cons.mp h
    exact (ih hcs).cons hc

theorem quote {v : Text} (hv : p v) : Composed isOutside p (quote v) := by
  have h : Composed isOutside p (PromQL.quote v ++ []) := nil.quoted hv
  rwa [List.append_nil] at h

theorem mono (hmono : ∀ c, isOutside c → isOutside' c) (h : Composed isOutside p a) :
    Composed isOutside' p a := by
  induction h with
  | nil => exact nil
  | cons hc _ ih => exact ih.cons (hmono _ hc)
  | quoted hv _ ih => exact ih.quoted hv

/-- A sign that stands in no quoted text stands nowhere if it does not outside of quotes. -/
theorem not_mem {c : Char} (h : Composed isOutside p a) (houtside : ¬ isOutside c)
    (hquoted : ∀ v, p v → c ∉ v) (hsign : c ≠ '"' ∧ c ≠ '\\' ∧ ¬ isWordChar c) : c ∉ a := by
  induction h with
  | nil => exact List.not_mem_nil
  | @cons d t hd _ ih =>
    have hne : c ≠ d := fun heq => houtside (heq ▸ hd)
    exact List.not_mem_cons_of_ne_of_not_mem hne ih
  | @quoted v t hv _ ih =>
    rw [List.mem_append, not_or]
    refine ⟨fun hmem => ?_, ih⟩
    rcases of_mem_quote hmem with h | h | h | h
    · exact hquoted v hv h
    · exact hsign.1 h
    · exact hsign.2.1 h
    · exact hsign.2.2 h

theorem intercalate {separator : Text} {texts : List Text}
    (hseparator : Composed isOutside p separator) (h : ∀ t ∈ texts, Composed isOutside p t) :
    Composed isOutside p (separator.intercalate texts) := by
  induction texts with
  | nil => exact nil
  | cons t texts ih =>
    obtain ⟨ht, htexts⟩ := List.forall_mem_cons.mp h
    cases texts with
    | nil => simpa using ht
    | cons u texts =>
      rw [List.intercalate_cons_cons, List.append_assoc]
      exact ht.append (hseparator.append (ih htexts))

end Composed

/-! ### Words and literals -/

/-- The characters that a text without brackets has outside of quotes: those of words and numbers,
the blank, and signs that are no marks of strings either. -/
def isFlat (c : Char) : Bool := isWordChar c || " !%*+,-./:<=>@^~".toList.contains c

/-- A text without brackets outside of quotes. -/
abbrev Flat (p : Text → Prop) : Text → Prop := Composed isFlat p

theorem isFlat_of_isWordChar {c : Char} (h : isWordChar c) : isFlat c := by
  simp [isFlat, h]

theorem isFlat_of_isDigit {c : Char} (h : c.isDigit) : isFlat c :=
  isFlat_of_isWordChar (isWordChar_of_isDigit h)

namespace Flat

variable {p : Text → Prop}

/-- A text without quotes of which every character may stand there. -/
theorem of_all {t : Text} (h : t.all isFlat = true) : Flat p t :=
  .of_forall (List.all_eq_true.mp h)

theorem digits {ds : Text} (h : ∀ c ∈ ds, c.isDigit) : Flat p ds :=
  .of_forall fun c hc => isFlat_of_isDigit (h c hc)

theorem metric {name : Text} (h : isBareMetric name) : Flat p name := by
  cases name with
  | nil => exact .nil
  | cons c cs =>
    simp only [isBareMetric, isName_cons, Bool.and_eq_true, Bool.or_eq_true, beq_iff_eq,
      List.all_eq_true] at h
    have hall : ∀ d ∈ c :: cs, isWordChar d ∨ d = ':' :=
      List.forall_mem_cons.mpr ⟨h.1.imp_left isWordChar_of_isWordStart, h.2⟩
    refine .of_forall fun d hd => ?_
    rcases hall d hd with hd | rfl
    · exact isFlat_of_isWordChar hd
    · decide

theorem label {name : Text} (h : isBareLabel name) : Flat p name :=
  metric (isBareMetric_of_isBareLabel h)

theorem number {n : NumberParts} (h : n.IsDigits) : Flat p n.text := by
  have hfraction : Flat p n.fractionText := by
    unfold NumberParts.fractionText
    cases hn : n.fraction with
    | none => exact .nil
    | some ds => exact (digits (h.fraction ds hn)).cons (by decide)
  have hexponent : Flat p n.exponentText := by
    unfold NumberParts.exponentText
    cases hn : n.exponent with
    | none => exact .nil
    | some e =>
      have hsign : Flat p (if e.1 then ['-'] else []) := by split <;> exact of_all (by decide)
      exact (hsign.append (digits (h.exponent e hn).2)).cons (by decide)
  exact ((digits h.whole).append hfraction).append hexponent

theorem sign (negative : Bool) : Flat p (Double.signText negative) := by
  cases negative <;> exact of_all (by decide)

theorem numeral (v : Double) : Flat p v.numeral := by
  match v with
  | .nan | .infinite false | .infinite true => exact of_all (by decide)
  | .finite negative rank =>
    rw [Double.numeral_finite]
    exact (sign negative).append (number (Double.isDigits_magnitudeParts rank))

theorem threePlaces (v : Double) : Flat p v.threePlaces := by
  match v with
  | .nan => exact of_all (by decide)
  | .infinite negative => exact (sign negative).append (of_all (by decide))
  | .finite negative rank =>
    have hnumber := (sign (p := p) negative).append
      (number (Double.isDigits_placesParts rank.val))
    simpa [Double.threePlaces, Double.placesParts, NumberParts.text, NumberParts.fractionText,
      NumberParts.exponentText] using hnumber

theorem duration (d : Duration) : Flat p d.text := by
  rw [Duration.text_eq_parts]
  refine .of_forall fun c hc => ?_
  obtain ⟨⟨n, unit⟩, -, hc⟩ := List.mem_flatMap.mp hc
  rcases List.mem_append.mp hc with hc | hc
  · exact isFlat_of_isDigit (isDigit_of_mem_decimal hc)
  · have hunit : unit.symbol.all isFlat = true := by cases unit <;> decide
    exact List.all_eq_true.mp hunit c hc

theorem offset (o : Offset) : Flat p o.text :=
  ((of_all (t := "offset ".toList) (by decide)).append (sign o.negative)).append
    (duration o.duration)

theorem labelText {name : Text} (h : p name) : Flat p (labelText name) := by
  unfold PromQL.labelText
  split_ifs with hbare
  · exact label hbare
  · exact .quote h

theorem labelsText {labels : List Text} (h : ∀ name ∈ labels, p name) :
    Flat p (labelsText labels) :=
  .intercalate (of_all (by decide))
    (List.forall_mem_map.mpr fun name hname => labelText (h name hname))

theorem operatorSign (op : BinaryOp) : Flat p op.text := by
  cases op <;> exact of_all (by decide)

theorem matcher {m : Matcher} (hname : p m.name) (hvalue : p m.value) : Flat p m.text := by
  have hop : m.op.text.all isFlat = true := by cases m.op <;> decide
  exact ((labelText hname).append (of_all hop)).append (.quote hvalue)

theorem groupTexts {metric : Option Text} {ms : Matchers}
    (h : ∀ m ∈ ms.flatten, p m.name ∧ p m.value) : ∀ t ∈ ms.groupTexts metric, Flat p t := by
  intro t ht
  obtain ⟨group, hgroup, rfl⟩ := List.mem_map.mp (List.mem_of_mem_filter ht)
  have hmem : ∀ m ∈ group, m ∈ ms.flatten := by
    intro m hm
    unfold Matchers.groups at hgroup
    unfold Matchers.flatten
    split_ifs at hgroup
    · exact List.mem_append_right _ (List.mem_flatten_of_mem hgroup hm)
    · rcases List.mem_cons.mp hgroup with rfl | hgroup
      · exact List.mem_append_left _ hm
      · exact List.mem_append_right _ (List.mem_flatten_of_mem hgroup hm)
  refine .intercalate (of_all (by decide)) (List.forall_mem_map.mpr fun m hm => ?_)
  have hm := h m (hmem m (List.mem_of_mem_filter ((Matcher.sort_perm _).mem_iff.mp hm)))
  exact matcher hm.1 hm.2

/-- The alternatives between the braces of a selector. -/
theorem alternatives {metric : Option Text} {ms : Matchers}
    (h : ∀ m ∈ ms.flatten, p m.name ∧ p m.value) :
    Flat p (Matchers.orText.intercalate (ms.groupTexts metric)) :=
  .intercalate (of_all (by decide)) (groupTexts h)

end Flat

/-! ### Modifiers and clauses -/

/-- The characters that a text inside of an expression has outside of quotes: those of words and
numbers, the blank, and signs that are neither square brackets nor marks of strings. -/
def isInline (c : Char) : Bool := isWordChar c || " !%()*+,-./:<=>@^\x7b\x7d~".toList.contains c

/-- A text inside of an expression. -/
abbrev Inline (p : Text → Prop) : Text → Prop := Composed isInline p

theorem isInline_of_isFlat {c : Char} (h : isFlat c) : isInline c := by
  have hsigns : ∀ d ∈ " !%*+,-./:<=>@^~".toList, isInline d := List.all_eq_true.mp (by decide)
  rcases Bool.or_eq_true_iff.mp h with hword | hsign
  · simp [isInline, hword]
  · exact hsigns c (List.contains_iff_mem.mp hsign)

theorem Flat.inline {p : Text → Prop} {t : Text} (h : Flat p t) : Inline p t :=
  h.mono fun _ => isInline_of_isFlat

namespace Inline

variable {p : Text → Prop}

/-- A text without quotes of which every character may stand there. -/
theorem of_all {t : Text} (h : t.all isInline = true) : Inline p t :=
  .of_forall (List.all_eq_true.mp h)

theorem instant (t : Instant) : Inline p t.text := by
  match t with
  | .queryStart | .queryEnd => exact of_all (by decide)
  | .epoch t => exact (of_all (t := "@ ".toList) (by decide)).append (Flat.threePlaces _).inline

theorem modifiers (m : Modifiers) : Inline p m.text := by
  refine .append ?_ ?_
  · cases m.time with
    | none => exact .nil
    | some t => exact (instant t).cons (by decide)
  · cases m.offset with
    | none => exact .nil
    | some o => exact (Flat.offset o).inline.cons (by decide)

theorem clause {word : String} {labels : List Text} (hword : word.toList.all isInline = true)
    (h : ∀ name ∈ labels, p name) : Inline p (clause word labels) := by
  have hclosed := (Flat.labelsText h).inline.append (of_all (t := [')']) (by decide))
  simpa [PromQL.clause] using (of_all hword).append (hclosed.cons (c := '(') (by decide))

theorem grouping {c : LabelChoice} (h : ∀ name ∈ c.labels, p name) : Inline p c.groupingText := by
  cases c <;> exact clause (by decide) h

theorem matching {m : BinaryModifiers} (h : ∀ name ∈ m.labels, p name) :
    ∀ t ∈ m.matchingText?, Inline p t := by
  have hlabels : ∀ c ∈ m.matching, ∀ name ∈ c.labels, p name := by
    intro c hc name hname
    rw [Option.mem_def] at hc
    exact h name (by simp [BinaryModifiers.labels, hc, hname])
  intro t ht
  obtain ⟨c, hc, ht⟩ := Option.bind_eq_some_iff.mp ht
  have hnames := hlabels c hc
  unfold LabelChoice.matchingText? at ht
  split at ht
  all_goals cases ht
  all_goals exact clause (by decide) hnames

theorem operator {m : BinaryModifiers} (h : ∀ name ∈ m.labels, p name) (op : BinaryOp)
    (matching : Bool) :
    ∃ t, Inline p t ∧ m.operatorText op matching = op.text ++ t := by
  have hbool : Inline p (if m.returnBool then " bool".toList else []) := by
    split_ifs <;> exact of_all (by decide)
  have hspaced : ∀ t : Option Text, (∀ u ∈ t, Inline p u) → Inline p (spaced t) := by
    intro t ht
    cases t with
    | none => exact .nil
    | some u => exact (ht u rfl).cons (by decide)
  have hmatching : Inline p (if matching then spaced m.matchingText? else []) := by
    split_ifs
    · exact hspaced _ (Inline.matching h)
    · exact .nil
  have hgrouping : Inline p (spaced (m.grouping.map Grouping.text)) := by
    refine hspaced _ fun t ht => ?_
    obtain ⟨g, hg, rfl⟩ := Option.map_eq_some_iff.mp ht
    have hword : g.many.text.toList.all isInline = true := by cases g.many <;> decide
    unfold Grouping.text
    split_ifs
    · exact of_all hword
    · exact clause hword fun name hname => h name (by simp [BinaryModifiers.labels, hg, hname])
  refine ⟨_, (hbool.append hmatching).append hgrouping, ?_⟩
  simp only [BinaryModifiers.operatorText, List.append_assoc]

/-! ### Selectors -/

theorem braces {t : Text} (h : Inline p t) : Inline p ('\x7b' :: t ++ ['\x7d']) :=
  (h.cons (by decide)).append (of_all (by decide))

theorem matchers {metric : Option Text} {ms : Matchers}
    (h : ∀ m ∈ ms.flatten, p m.name ∧ p m.value) : Inline p (ms.text metric) := by
  unfold Matchers.text
  split
  · exact .nil
  · exact braces (Flat.alternatives h).inline

theorem selector {metric : Option Text} {ms : Matchers} (hname : ∀ name ∈ metric, p name)
    (h : ∀ m ∈ ms.flatten, p m.name ∧ p m.value) : Inline p (selectorText metric ms) := by
  unfold selectorText
  split
  · exact matchers h
  · next name =>
    split_ifs with hbare
    · exact (Flat.metric hbare).inline.append (matchers h)
    · refine braces (.intercalate (of_all (by decide)) fun t ht => ?_)
      rcases List.mem_pair.mp (List.mem_of_mem_filter ht) with rfl | rfl
      · exact .quote (hname name rfl)
      · exact (Flat.alternatives h).inline

end Inline

/-! ### Names and values -/

/-- The names and values in a selector. -/
def Selector.texts (s : Selector) : List Text :=
  s.name.toList ++ s.matchers.flatten.flatMap fun m => [m.name, m.value]

theorem Selector.inline_body {p : Text → Prop} {s : Selector} (h : ∀ t ∈ s.texts, p t) :
    Inline p s.body := by
  have hmatchers : ∀ m ∈ s.matchers.flatten, ∀ t ∈ [m.name, m.value], p t := fun m hm t ht =>
    h t (List.mem_append_right _ (List.mem_flatMap.mpr ⟨m, hm, ht⟩))
  exact .selector (fun name hname => h name (List.mem_append_left _ (Option.mem_toList.mpr hname)))
    fun m hm => ⟨hmatchers m hm _ (by simp), hmatchers m hm _ (by simp)⟩

namespace Expr

mutual

/-- An expression of the language alone, in which all strings, names and values have a property
and functions have plain names. -/
def TextsAre (p : Text → Prop) : Expr → Prop
  | number _ => True
  | string value => p value
  | vector s | matrix s _ => ∀ t ∈ s.texts, p t
  | subquery inner .. | paren inner | negate inner => inner.TextsAre p
  | call function arguments => isBareLabel function ∧ AllTextsAre p arguments
  | aggregate _ grouping parameter inner =>
    (∀ c ∈ grouping, ∀ name ∈ c.labels, p name) ∧ OptionTextsAre p parameter ∧ inner.TextsAre p
  | binary _ modifiers left right =>
    (∀ name ∈ modifiers.labels, p name) ∧ left.TextsAre p ∧ right.TextsAre p
  | extension _ => False

/-- The same of several expressions. -/
def AllTextsAre (p : Text → Prop) : List Expr → Prop
  | [] => True
  | e :: es => e.TextsAre p ∧ AllTextsAre p es

/-- The same of an expression that may be missing. -/
def OptionTextsAre (p : Text → Prop) : Option Expr → Prop
  | none => True
  | some e => e.TextsAre p

end

end Expr

/-! ### Whole expressions -/

/-- A text that is put together from texts inside of expressions, with blanks of some kind behind
and in front of parentheses and in front of operators. -/
inductive Assembled (isGap : Char → Bool) (p : Text → Prop) : Text → Prop where
  | inline {t : Text} (h : Inline p t) : Assembled isGap p t
  | negated {t : Text} (h : Assembled isGap p t) : Assembled isGap p ('-' :: t)
  | ranged {t range : Text} (m : Modifiers) (h : Assembled isGap p t) (hrange : Inline p range) :
      Assembled isGap p (t ++ '[' :: range ++ ']' :: m.text)
  | enclosed {lead : Text} (opening closing : Text) {texts : List Text} (hlead : Inline p lead)
      (hopening : opening.all isGap) (hclosing : closing.all isGap)
      (h : ∀ t ∈ texts, Assembled isGap p t) :
      Assembled isGap p
        (lead ++ '(' :: opening ++ ", ".toList.intercalate texts ++ closing ++ [')'])
  | operated {left right gap behind : Text} (op : BinaryOp) (hgap : gap.all isGap)
      (hbehind : Composed (fun c => isInline c || isGap c) p behind)
      (hleft : Assembled isGap p left) (hright : Assembled isGap p right) :
      Assembled isGap p (left ++ gap ++ op.text ++ behind ++ right)

namespace Assembled

variable {isGap : Char → Bool} {p : Text → Prop}

theorem call {function : Text} {arguments : List Text} (hfunction : isBareLabel function)
    (h : ∀ t ∈ arguments, Assembled isGap p t) :
    Assembled isGap p (callText function arguments) := by
  simpa [callText] using enclosed [] [] (Flat.label hfunction).inline rfl rfl h

theorem aggregate {op : AggregateOp} {grouping : Option LabelChoice} {parameter : Option Text}
    {inner : Text} (hgrouping : ∀ c ∈ grouping, ∀ name ∈ c.labels, p name)
    (hparameter : ∀ t ∈ parameter, Assembled isGap p t) (hinner : Assembled isGap p inner) :
    Assembled isGap p (aggregateText op grouping parameter inner) := by
  have hop : op.text.all isInline = true := by cases op <;> decide
  have hclause : Inline p ((grouping.map fun g => ' ' :: g.groupingText ++ [' ']).getD []) := by
    cases grouping with
    | none => exact .nil
    | some c =>
      exact ((Inline.grouping (hgrouping c rfl)).cons (by decide)).append
        (Inline.of_all (by decide))
  have hlead := (Inline.of_all hop).append hclause
  cases parameter with
  | none =>
    have htexts : ∀ t ∈ [inner], Assembled isGap p t := by simpa using hinner
    simpa [aggregateText] using enclosed [] [] hlead rfl rfl htexts
  | some t =>
    have htexts : ∀ u ∈ [t, inner], Assembled isGap p u := by
      simpa using ⟨hparameter t rfl, hinner⟩
    simpa [aggregateText, List.intercalate_cons_cons] using enclosed [] [] hlead rfl rfl htexts

theorem gaps (gap : Text) (h : gap.all isGap) : Composed (fun c => isInline c || isGap c) p gap :=
  .of_forall fun c hc => by simp [List.all_eq_true.mp h c hc]

/-- An operator with its modifiers between blanks. -/
theorem operator {m : BinaryModifiers} (hm : ∀ name ∈ m.labels, p name) (op : BinaryOp)
    (matching : Bool) {left right behind : Text} (gap : Text) (hgap : gap.all isGap)
    (hbehind : Composed (fun c => isInline c || isGap c) p behind) (hleft : Assembled isGap p left)
    (hright : Assembled isGap p right) :
    Assembled isGap p (left ++ gap ++ m.operatorText op matching ++ behind ++ right) := by
  obtain ⟨t, ht, htext⟩ := Inline.operator hm op matching
  have hwide : Composed (fun c => isInline c || isGap c) p t := ht.mono fun c hc => by simp [hc]
  have h := operated op hgap (hwide.append hbehind) hleft hright
  rw [htext]
  simpa using h

theorem parens (opening closing : Text) {inner : Text} (hopening : opening.all isGap)
    (hclosing : closing.all isGap) (h : Assembled isGap p inner) :
    Assembled isGap p ('(' :: opening ++ inner ++ closing ++ [')']) := by
  have htexts : ∀ t ∈ [inner], Assembled isGap p t := by simpa using h
  simpa using enclosed opening closing .nil hopening hclosing htexts

theorem all_isSpacing_indentation (indent depth : Nat) :
    (indentation indent depth).all isSpacing := by
  rw [List.all_eq_true]
  intro c hc
  rw [List.eq_of_mem_replicate hc]
  rfl

theorem all_isSpacing_lineBreak (indent depth : Nat) :
    ('\n' :: indentation indent depth).all isSpacing :=
  List.all_cons.trans (all_isSpacing_indentation indent depth)

/-- An operator of a layout, whichever way the lines around it are broken. -/
theorem layout {m : BinaryModifiers} (hm : ∀ name ∈ m.labels, p name) (op : BinaryOp)
    (indent depth : Nat) {left right : Text} (hleft : Assembled isSpacing p left)
    (hright : Assembled isSpacing p right) :
    Assembled isSpacing p (m.layout op (indentation indent depth) left right) := by
  have hbreak := all_isSpacing_lineBreak indent depth
  have hmatching : Composed (fun c => isInline c || isSpacing c) p
      ((m.matchingText?.map ("\n\n".toList ++ ·)).getD []) := by
    cases hclause : m.matchingText? with
    | none => exact .nil
    | some t =>
      have ht : Composed (fun c => isInline c || isSpacing c) p t :=
        (Inline.matching hm t hclause).mono fun c hc => by simp [hc]
      exact (gaps "\n\n".toList rfl).append ht
  have hset := operator hm op false "\n\n".toList rfl
    (hmatching.append (gaps "\n\n".toList rfl)) hleft hright
  have hown := operator hm op true _ hbreak (gaps ['\n'] rfl) hleft hright
  have hstart := operator hm op true _ hbreak (gaps [' '] rfl) hleft hright
  have hwithin := operator hm op true [' '] rfl (gaps [' '] rfl) hleft hright
  cases op
  case and | or => simpa [BinaryModifiers.layout] using hset
  case div | sub => simpa [BinaryModifiers.layout] using hown
  case equal | notEqual | greater | less | greaterEqual | lessEqual =>
    simpa [BinaryModifiers.layout] using hstart
  all_goals simpa [BinaryModifiers.layout] using hwithin

end Assembled

namespace Expr

variable {isGap : Char → Bool} {p : Text → Prop}

mutual

/-- An expression on one line is put together with single blanks. -/
theorem assembled_line (hgap : isGap ' ') :
    ∀ e : Expr, e.TextsAre p → Assembled isGap p e.line
  | number v, _ => .inline (Flat.numeral v).inline
  | string _, h => .inline (.quote h)
  | vector s, h => .inline ((Selector.inline_body h).append (Inline.modifiers s.modifiers))
  | matrix s range, h =>
    .ranged s.modifiers (.inline (Selector.inline_body h)) (Flat.duration range).inline
  | subquery inner range step modifiers, h => by
    have hrange : Inline p (range.text ++ ':' :: (step.map Duration.text).getD []) := by
      refine (Flat.duration range).inline.append (.cons (by decide) ?_)
      cases step with
      | none => exact .nil
      | some d => exact (Flat.duration d).inline
    have h := Assembled.ranged modifiers (assembled_line hgap inner h) hrange
    simpa [line, subqueryText] using h
  | paren inner, h => by
    have h := Assembled.parens [] [] rfl rfl (assembled_line hgap inner h)
    simpa [line] using h
  | negate inner, h => .negated (assembled_line hgap inner h)
  | call function arguments, h => .call h.1 (assembled_lines hgap arguments h.2)
  | aggregate op grouping parameter inner, h =>
    .aggregate h.1 (assembled_optionLine hgap parameter h.2.1) (assembled_line hgap inner h.2.2)
  | binary op modifiers left right, h => by
    have h := Assembled.operator h.1 op true [' '] (by simpa using hgap)
      (Assembled.gaps [' '] (by simpa using hgap)) (assembled_line hgap left h.2.1)
      (assembled_line hgap right h.2.2)
    simpa [line] using h

theorem assembled_lines (hgap : isGap ' ') :
    ∀ es : List Expr, AllTextsAre p es → ∀ t ∈ lines es, Assembled isGap p t
  | [], _ => nofun
  | e :: es, h =>
    List.forall_mem_cons.mpr ⟨assembled_line hgap e h.1, assembled_lines hgap es h.2⟩

theorem assembled_optionLine (hgap : isGap ' ') :
    ∀ e : Option Expr, OptionTextsAre p e → ∀ t ∈ optionLine e, Assembled isGap p t
  | none, _ => nofun
  | some e, h => by
    rintro t ⟨⟩
    exact assembled_line hgap e h

end

mutual

/-- A layout over several lines is put together with blanks and line breaks. -/
theorem assembled_layout (indent depth : Nat) :
    ∀ e : Expr, e.TextsAre p → Assembled isSpacing p (e.layout indent depth)
  | number _, h | string _, h | vector _, h | matrix .., h | subquery .., h | negate _, h =>
    assembled_line rfl _ h
  | paren inner, h => by
    have h := Assembled.parens _ _ (Assembled.all_isSpacing_lineBreak indent (depth + 1))
      (Assembled.all_isSpacing_lineBreak indent depth) (assembled_layout indent (depth + 1) inner h)
    simpa [layout] using h
  | call function arguments, h => .call h.1 (assembled_layouts indent (depth + 1) arguments h.2)
  | aggregate op grouping parameter inner, h => by
    rw [layout, ← optionLine_eq_map]
    exact .aggregate h.1 (assembled_optionLine rfl parameter h.2.1)
      (assembled_layout indent depth inner h.2.2)
  | binary op modifiers left right, h =>
    .layout h.1 op indent depth (assembled_layout indent depth left h.2.1)
      (assembled_layout indent depth right h.2.2)

theorem assembled_layouts (indent depth : Nat) :
    ∀ es : List Expr, AllTextsAre p es → ∀ t ∈ layouts indent depth es, Assembled isSpacing p t
  | [], _ => nofun
  | e :: es, h =>
    List.forall_mem_cons.mpr
      ⟨assembled_layout indent depth e h.1, assembled_layouts indent depth es h.2⟩

end

end Expr

end PromQL

import Mathlib
import PromQL.Options
import PromQL.Proofs.Expr.Indentation
import PromQL.Proofs.Token.Literal
import PromQL.Proofs.Token.Quotation

/-!
# Brackets in written expressions

Whatever is written for an expression, its brackets outside of quotes are closed in the right order,
and so are its quotes. A part of a text that closes its own brackets can be put anywhere, so this is
shown from the parts to the whole. On one line there are no control characters, since in quotes
they are written with a backslash.
-/

namespace PromQL

/-! ### Brackets -/

/-- The bracket that closes an opening one. -/
def closer? : Char → Option Char
  | '(' => some ')'
  | '[' => some ']'
  | '\x7b' => some '\x7d'
  | _ => none

/-- Whether a character is a closing bracket. -/
def isCloser (c : Char) : Bool := c == ')' || c == ']' || c == '\x7d'

/-- Whether a text closes its brackets and the ones that are due, the innermost first. -/
def closes : Text → Text → Bool
  | due, [] => due.isEmpty
  | due, c :: cs =>
    match closer? c with
    | some close => closes (close :: due) cs
    | none => if isCloser c then due.head? == some c && closes due.tail cs else closes due cs

/-- A text in which every double quote that no backslash takes with it opens or closes a string, and
the brackets outside of strings are nested and closed. -/
structure WellBracketed (t : Text) : Prop where
  quotes : QuoteState.outside.behind t = .outside
  brackets : closes [] (unquoted .outside t)

/-- A text that leaves quotes and brackets as they were in front of it. -/
structure Nested (t : Text) : Prop where
  quotes : QuoteState.outside.behind t = .outside
  brackets : ∀ due rest, closes due (unquoted .outside t ++ rest) = closes due rest

theorem Nested.wellBracketed {t : Text} (h : Nested t) : WellBracketed t where
  quotes := h.quotes
  brackets := by
    have hclosed := h.brackets [] []
    rw [List.append_nil] at hclosed
    rw [hclosed]
    rfl

/-- The characters between brackets. -/
def isLevel (c : Char) : Bool := isFlat c || isSpacing c

theorem closes_cons_of_isLevel {c : Char} (hc : isLevel c) (due cs : Text) :
    closes due (c :: cs) = closes due cs := by
  have hplain : c ∉ "()[]\x7b\x7d".toList := by
    intro hmem
    have hbrackets : "()[]\x7b\x7d".toList.all (fun d => !isLevel d) = true := by decide
    have hlevel := List.all_eq_true.mp hbrackets c hmem
    rw [hc] at hlevel
    cases hlevel
  have hplain : c ≠ '(' ∧ c ≠ ')' ∧ c ≠ '[' ∧ c ≠ ']' ∧ c ≠ '\x7b' ∧ c ≠ '\x7d' := by
    simpa using hplain
  have hopen : closer? c = none := by simp [closer?, hplain]
  have hclose : isCloser c = false := by simp [isCloser, hplain]
  rw [closes, hopen, hclose]
  rfl

theorem closes_append_of_isLevel {a : Text} (h : ∀ c ∈ a, isLevel c) (due rest : Text) :
    closes due (a ++ rest) = closes due rest := by
  induction a with
  | nil => rfl
  | cons c cs ih =>
    obtain ⟨hc, hcs⟩ := List.forall_mem_cons.mp h
    rw [List.cons_append, closes_cons_of_isLevel hc, ih hcs]

namespace Nested

variable {a b t : Text}

theorem of_composed {p : Text → Prop} (h : Composed isLevel p t) : Nested t := by
  obtain ⟨hquotes, hlevel⟩ := h.unquoted_spec (by decide)
  exact ⟨hquotes, closes_append_of_isLevel hlevel⟩

theorem of_all (h : t.all isLevel = true) : Nested t :=
  of_composed (p := fun _ => True) (.of_forall (List.all_eq_true.mp h))

theorem flat (h : Flat (fun _ => True) t) : Nested t :=
  of_composed (h.mono fun c hc => by simp [isLevel, hc])

theorem gap (h : t.all isSpacing) : Nested t :=
  of_all (List.all_eq_true.mpr fun c hc => by simp [isLevel, List.all_eq_true.mp h c hc])

theorem append (ha : Nested a) (hb : Nested b) : Nested (a ++ b) where
  quotes := by rw [QuoteState.behind_append, ha.quotes, hb.quotes]
  brackets due rest := by
    rw [unquoted_append, ha.quotes, List.append_assoc, ha.brackets, hb.brackets]

theorem cons {c : Char} (hc : isLevel c) (h : Nested t) : Nested (c :: t) :=
  append (a := [c]) (of_all (by simp [hc])) h

theorem brackets_around {opening closing : Char} (h : closer? opening = some closing)
    (ht : Nested t) : Nested (opening :: (t ++ [closing])) := by
  have hpair : (opening, closing) = ('(', ')') ∨ (opening, closing) = ('[', ']') ∨
      (opening, closing) = ('\x7b', '\x7d') := by
    unfold closer? at h
    split at h <;> cases h <;> simp
  constructor
  · have hclosed : QuoteState.outside.behind (t ++ [closing]) = .outside := by
      rw [QuoteState.behind_append, ht.quotes]
      rcases hpair with hpair | hpair | hpair <;> cases hpair <;> rfl
    rcases hpair with hpair | hpair | hpair <;> cases hpair <;> exact hclosed
  · intro due rest
    have hinner : closes (closing :: due) (unquoted .outside t ++ closing :: rest) =
        closes due rest := by
      rw [ht.brackets]
      rcases hpair with hpair | hpair | hpair <;> cases hpair <;> rfl
    have hoff : unquoted .outside (opening :: (t ++ [closing])) ++ rest =
        opening :: (unquoted .outside t ++ closing :: rest) := by
      have hmark : opening ≠ '"' ∧ closing ≠ '"' := by
        rcases hpair with hpair | hpair | hpair <;> cases hpair <;> decide
      rw [unquoted_outside_cons hmark.1, unquoted_append, ht.quotes, unquoted_outside_cons hmark.2]
      simp
    rw [hoff, closes, h]
    exact hinner

/-- Brackets may stand around a text, and other texts in front of them and behind. -/
theorem enclosed {opening closing : Char} (h : closer? opening = some closing) (ha : Nested a)
    (ht : Nested t) (hb : Nested b) : Nested (a ++ opening :: t ++ closing :: b) := by
  simpa using (ha.append (brackets_around h ht)).append hb

theorem intercalate {separator : Text} {texts : List Text} (hseparator : Nested separator)
    (h : ∀ t ∈ texts, Nested t) : Nested (separator.intercalate texts) := by
  induction texts with
  | nil => exact of_all rfl
  | cons t texts ih =>
    obtain ⟨ht, htexts⟩ := List.forall_mem_cons.mp h
    cases texts with
    | nil => simpa using ht
    | cons u texts =>
      rw [List.intercalate_cons_cons]
      exact (ht.append hseparator).append (ih htexts)

/-! ### Modifiers and clauses -/

theorem instant (t : Instant) : Nested t.text := by
  have hclosed : Nested ('(' :: ([] ++ [')'])) := brackets_around rfl (of_all rfl)
  match t with
  | .queryStart => exact (of_all (t := "@ start".toList) (by decide)).append hclosed
  | .queryEnd => exact (of_all (t := "@ end".toList) (by decide)).append hclosed
  | .epoch t =>
    exact (of_all (t := "@ ".toList) (by decide)).append (flat (.threePlaces _))

theorem modifiers (m : Modifiers) : Nested m.text := by
  refine append ?_ ?_
  · cases m.time with
    | none => exact of_all rfl
    | some t => exact (instant t).cons (by decide)
  · cases m.offset with
    | none => exact of_all rfl
    | some o => exact (flat (.offset o)).cons (by decide)

theorem clause {word : String} (hword : word.toList.all isFlat = true) (labels : List Text) :
    Nested (clause word labels) := by
  have hlabels : Flat (fun _ => True) (labelsText labels) := .labelsText fun _ _ => trivial
  exact enclosed rfl (flat (.of_all hword)) (flat hlabels) (of_all rfl)

theorem grouping (c : LabelChoice) : Nested c.groupingText := by
  cases c <;> exact clause (by decide) _

theorem matching {m : BinaryModifiers} : ∀ t ∈ m.matchingText?, Nested t := by
  intro t ht
  obtain ⟨c, -, ht⟩ := Option.bind_eq_some_iff.mp ht
  unfold LabelChoice.matchingText? at ht
  split at ht
  all_goals cases ht
  all_goals exact clause (by decide) _

theorem side (g : Grouping) : Nested g.text := by
  have hword : g.many.text.toList.all isFlat = true := by cases g.many <;> decide
  unfold Grouping.text
  split_ifs
  · exact flat (.of_all hword)
  · exact clause hword g.labels

theorem spaced {t : Option Text} (h : ∀ u ∈ t, Nested u) : Nested (spaced t) := by
  cases t with
  | none => exact of_all rfl
  | some u => exact (h u rfl).cons (by decide)

theorem operator (m : BinaryModifiers) (op : BinaryOp) (written : Bool) :
    Nested (m.operatorText op written) := by
  have hbool : Nested (if m.returnBool then " bool".toList else []) := by
    split_ifs <;> exact of_all (by decide)
  have hmatching : Nested (if written then PromQL.spaced m.matchingText? else []) := by
    split_ifs
    · exact spaced matching
    · exact of_all rfl
  have hside : Nested (PromQL.spaced (m.grouping.map Grouping.text)) := by
    refine spaced fun t ht => ?_
    obtain ⟨g, -, rfl⟩ := Option.map_eq_some_iff.mp ht
    exact side g
  have hop : Nested op.text := flat (.operatorSign op)
  exact ((hop.append hbool).append hmatching).append hside

/-! ### Selectors -/

theorem matchers (metric : Option Text) (ms : Matchers) : Nested (ms.text metric) := by
  have hinside : Flat (fun _ => True) (Matchers.orText.intercalate (ms.groupTexts metric)) :=
    .alternatives fun _ _ => ⟨trivial, trivial⟩
  unfold Matchers.text
  split
  · exact of_all rfl
  · exact brackets_around rfl (flat hinside)

theorem selector (metric : Option Text) (ms : Matchers) : Nested (selectorText metric ms) := by
  unfold selectorText
  split
  · exact matchers none ms
  · next name =>
    split_ifs with hbare
    · exact (flat (.metric hbare)).append (matchers (some name) ms)
    · refine brackets_around rfl (flat ?_)
      refine .intercalate (Flat.of_all (by decide)) fun t ht => ?_
      rcases List.mem_pair.mp (List.mem_of_mem_filter ht) with rfl | rfl
      · exact .quote trivial
      · exact Flat.alternatives fun _ _ => ⟨trivial, trivial⟩

/-! ### Nodes around texts -/

theorem range {range : Text} (ha : Nested a) (hrange : Nested range) (m : Modifiers) :
    Nested (a ++ '[' :: range ++ ']' :: m.text) :=
  enclosed rfl ha hrange (modifiers m)

theorem parens (opening ending : Text) (hopening : opening.all isSpacing)
    (hending : ending.all isSpacing) (h : Nested t) :
    Nested ('(' :: opening ++ t ++ ending ++ [')']) := by
  have hpair : closer? '(' = some ')' := rfl
  simpa using brackets_around hpair (((gap hopening).append h).append (gap hending))

theorem call {function : Text} {arguments : List Text} (hfunction : isBareLabel function)
    (h : ∀ t ∈ arguments, Nested t) : Nested (callText function arguments) :=
  enclosed rfl (flat (.label hfunction))
    (intercalate (of_all (by decide)) h) (of_all rfl)

theorem aggregate (op : AggregateOp) (grouping : Option LabelChoice) {parameter : Option Text}
    {inner : Text} (hparameter : ∀ t ∈ parameter, Nested t) (hinner : Nested inner) :
    Nested (aggregateText op grouping parameter inner) := by
  have hop : Nested op.text := by cases op <;> exact of_all (by decide)
  have hclause : Nested ((grouping.map fun g => ' ' :: g.groupingText ++ [' ']).getD []) := by
    cases grouping with
    | none => exact of_all rfl
    | some c => exact ((Nested.grouping c).cons (by decide)).append (of_all rfl)
  have hfirst : Nested ((parameter.map (· ++ ", ".toList)).getD []) := by
    cases parameter with
    | none => exact of_all rfl
    | some t => exact (hparameter t rfl).append (of_all (by decide))
  have hpair : closer? '(' = some ')' := rfl
  have hnothing : Nested [] := of_all rfl
  simpa [aggregateText] using
    enclosed hpair (hop.append hclause) (hfirst.append hinner) hnothing

theorem layout (m : BinaryModifiers) (op : BinaryOp) (indent depth : Nat) (ha : Nested a)
    (hb : Nested b) : Nested (m.layout op (indentation indent depth) a b) := by
  have hbreak : Nested ('\n' :: indentation indent depth) :=
    gap (Assembled.all_isSpacing_lineBreak indent depth)
  have hblank : Nested "\n\n".toList := gap rfl
  have hmatching : Nested ((m.matchingText?.map ("\n\n".toList ++ ·)).getD []) := by
    cases hclause : m.matchingText? with
    | none => exact of_all rfl
    | some t => exact hblank.append (matching t hclause)
  have hset := ((((ha.append hblank).append (operator m op false)).append hmatching).append
    hblank).append hb
  have hline (between : Text) (h : Nested between) :=
    (((ha.append hbreak).append (operator m op true)).append h).append hb
  have hwithin := (((ha.append (gap (t := [' ']) rfl)).append (operator m op true)).append
    (gap (t := [' ']) rfl)).append hb
  cases op
  case and | or => exact hset
  case div | sub => simpa [BinaryModifiers.layout] using hline ['\n'] (gap rfl)
  case equal | notEqual | greater | less | greaterEqual | lessEqual =>
    simpa [BinaryModifiers.layout] using hline [' '] (gap rfl)
  all_goals simpa [BinaryModifiers.layout] using hwithin

end Nested

/-! ### Expressions -/

namespace Expr

mutual

theorem nested_line : ∀ e : Expr, (e.TextsAre fun _ => True) → Nested e.line
  | number v, _ => .flat (.numeral v)
  | string _, _ => .flat (.quote trivial)
  | vector s, _ => (Nested.selector s.name s.matchers).append (.modifiers s.modifiers)
  | matrix s range, _ =>
    .range (.selector s.name s.matchers) (.flat (.duration range)) s.modifiers
  | subquery inner range step modifiers, h => by
    have hstep : Flat (fun _ => True) ((step.map Duration.text).getD []) := by
      cases step with
      | none => exact .nil
      | some d => exact .duration d
    have hrange := (Flat.duration range).append (hstep.cons (c := ':') (by decide))
    have h := Nested.range (nested_line inner h) (.flat hrange) modifiers
    simpa [line, subqueryText] using h
  | paren inner, h => Nested.brackets_around rfl (nested_line inner h)
  | negate inner, h => (nested_line inner h).cons (by decide)
  | call _ arguments, h => .call h.1 (nested_lines arguments h.2)
  | aggregate op grouping parameter inner, h =>
    .aggregate op grouping (nested_optionLine parameter h.2.1) (nested_line inner h.2.2)
  | binary op modifiers left right, h => by
    have hleft := (nested_line left h.2.1).append (.gap (t := [' ']) rfl)
    have hright := (nested_line right h.2.2).cons (c := ' ') (by decide)
    simpa [line] using (hleft.append (.operator modifiers op true)).append hright

theorem nested_lines :
    ∀ es : List Expr, AllTextsAre (fun _ => True) es → ∀ t ∈ lines es, Nested t
  | [], _ => nofun
  | e :: es, h => List.forall_mem_cons.mpr ⟨nested_line e h.1, nested_lines es h.2⟩

theorem nested_optionLine :
    ∀ e : Option Expr, OptionTextsAre (fun _ => True) e → ∀ t ∈ optionLine e, Nested t
  | none, _ => nofun
  | some e, h => by
    rintro t ⟨⟩
    exact nested_line e h

end

mutual

theorem nested_layout (indent depth : Nat) :
    ∀ e : Expr, (e.TextsAre fun _ => True) → Nested (e.layout indent depth)
  | number _, h | string _, h | vector _, h | matrix .., h | subquery .., h | negate _, h =>
    nested_line _ h
  | paren inner, h => by
    have h := Nested.parens _ _ (Assembled.all_isSpacing_lineBreak indent (depth + 1))
      (Assembled.all_isSpacing_lineBreak indent depth) (nested_layout indent (depth + 1) inner h)
    simpa [layout] using h
  | call _ arguments, h => .call h.1 (nested_layouts indent (depth + 1) arguments h.2)
  | aggregate op grouping parameter inner, h => by
    rw [layout, ← optionLine_eq_map]
    exact .aggregate op grouping (nested_optionLine parameter h.2.1)
      (nested_layout indent depth inner h.2.2)
  | binary op modifiers left right, h =>
    .layout modifiers op indent depth (nested_layout indent depth left h.2.1)
      (nested_layout indent depth right h.2.2)

theorem nested_layouts (indent depth : Nat) :
    ∀ es : List Expr, AllTextsAre (fun _ => True) es → ∀ t ∈ layouts indent depth es, Nested t
  | [], _ => nofun
  | e :: es, h =>
    List.forall_mem_cons.mpr ⟨nested_layout indent depth e h.1, nested_layouts indent depth es h.2⟩

end

end Expr

/-! ### Control characters -/

theorem not_isControl_of_mem_quote {v : Text} {c : Char} (h : c ∈ quote v) : ¬ isControl c := by
  have hmark : ¬ isControl '"' := by decide
  simp only [quote, List.cons_append, List.mem_cons, List.mem_append, List.mem_flatMap,
    List.not_mem_nil, or_false] at h
  rcases h with rfl | ⟨d, -, hc⟩ | rfl
  · exact hmark
  · exact (escapedForm_escape d).not_isControl c hc
  · exact hmark

theorem Composed.not_isControl {isOutside : Char → Bool} {p : Text → Prop} {t : Text}
    (houtside : ∀ c, isOutside c → ¬ isControl c) (h : Composed isOutside p t) :
    ∀ c ∈ t, ¬ isControl c := by
  induction h with
  | nil => exact List.forall_mem_nil _
  | cons hc _ ih => exact List.forall_mem_cons.mpr ⟨houtside _ hc, ih⟩
  | quoted _ _ ih => exact List.forall_mem_append.mpr ⟨fun _ => not_isControl_of_mem_quote, ih⟩

theorem not_isControl_of_isInline {c : Char} (h : isInline c) : ¬ isControl c := by
  have hall : ∀ n < 0xa0, isControl (Char.ofNat n) → ¬ isInline (Char.ofNat n) := by
    decide +kernel
  intro hcontrol
  have hplain := hall c.toNat (toNat_lt_of_isControl hcontrol)
  rw [Char.ofNat_toNat] at hplain
  exact hplain hcontrol h

namespace Expr

/-- An expression is on one line if it is written on one. -/
theorem not_isControl_of_mem_line (e : Expr) (h : e.TextsAre fun _ => True) :
    ∀ c ∈ e.line, ¬ isControl c := by
  have hassembled : Assembled (· == ' ') (fun _ => True) e.line := assembled_line rfl e h
  refine hassembled.composed.not_isControl fun c hc => ?_
  simp only [Bool.or_eq_true, beq_iff_eq] at hc
  rcases hc with ((hc | rfl) | rfl) | rfl
  · exact not_isControl_of_isInline hc
  all_goals decide

/-- Whatever names, labels and values an expression of the language has, its brackets are closed and
its quotes complete, on one line and laid out at any depth, and what is written on one line has no
control characters. -/
theorem wellBracketed_text (options : Options) (depth : Nat) (e : Expr)
    (h : e.TextsAre fun _ => True) :
    WellBracketed e.line ∧ WellBracketed (e.layout options.indent depth) ∧
      ∀ c ∈ e.line, ¬ isControl c :=
  ⟨(nested_line e h).wellBracketed, (nested_layout options.indent depth e h).wellBracketed,
    not_isControl_of_mem_line e h⟩

/-- A bracket, a quote and a line break in a string. -/
theorem wellBracketed_text_string :
    (paren (string "(\"\n".toList)).TextsAre (fun _ => True) ∧
      WellBracketed "(\"(\\\"\\n\")".toList ∧
      WellBracketed "(\n    \"(\\\"\\n\"\n)".toList ∧
      ∀ c ∈ "(\"(\\\"\\n\")".toList, ¬ isControl c :=
  ⟨trivial, wellBracketed_text .default 0 (paren (string "(\"\n".toList)) trivial⟩

end Expr

end PromQL

import Mathlib
import PromQL.Offset.Repair
import PromQL.Proofs.Text.Editing
import PromQL.Proofs.Text.Search

/-!
# The shape of misplaced offsets

Every recogniser of the repair gives parts of the text that it looks at, and the text behind them.
What is found has a shape: blanks where blanks have to be, the words of the clauses, brackets around
a text without a closing one, and parentheses behind it. The rest does not go on its last part.
-/

namespace PromQL

/-! ### Runs and words -/

theorem append_of_after? {word : String} {text rest : Text} (h : after? word text = some rest) :
    word.toList ++ rest = text :=
  (isPrefixOf?_eq_some_iff.mp h).symm

theorem after?_append (word : String) (rest : Text) :
    after? word (word.toList ++ rest) = some rest :=
  isPrefixOf?_append word.toList rest

theorem forall_of_run? {p : Char → Bool} {text run rest : Text}
    (h : run? p text = some (run, rest)) :
    run ≠ [] ∧ (∀ c ∈ run, p c) ∧ ∀ c ∈ rest.head?, ¬ p c := by
  unfold run? at h
  split at h
  · cases h
  · next c cs htake =>
    cases h
    refine ⟨List.cons_ne_nil c cs, fun d hd => ?_, fun d hd => ?_⟩
    · rw [← htake] at hd
      exact List.mem_takeWhile_imp hd
    · have hnot := List.head?_dropWhile_not p text
      rw [hd] at hnot
      simpa using hnot

/-- A run is taken whole if what is behind it does not go on. -/
theorem run?_append {p : Char → Bool} {run rest : Text} (hne : run ≠ []) (hrun : ∀ c ∈ run, p c)
    (hrest : ∀ c ∈ rest.head?, ¬ p c) : run? p (run ++ rest) = some (run, rest) := by
  have hstop : rest.takeWhile p = [] ∧ rest.dropWhile p = rest := by
    cases rest with
    | nil => exact ⟨rfl, rfl⟩
    | cons c cs =>
      have hc : ¬ p c := hrest c rfl
      exact ⟨List.takeWhile_cons_of_neg hc, List.dropWhile_cons_of_neg hc⟩
  obtain ⟨c, cs, rfl⟩ := List.exists_cons_of_ne_nil hne
  rw [run?, List.takeWhile_append_of_pos hrun, List.dropWhile_append_of_pos hrun, hstop.1, hstop.2,
    List.append_nil]

/-! ### Clauses -/

/-- A text of one blank or more. -/
def IsBlanks (text : Text) : Prop := text ≠ [] ∧ ∀ c ∈ text, isBlank c

theorem IsBlanks.not_mem {text : Text} {c : Char} (h : IsBlanks text) (hc : ¬ isBlank c) :
    c ∉ text :=
  fun hmem => hc (h.2 c hmem)

theorem isBlanks_of_run? {text run rest : Text} (h : run? isBlank text = some (run, rest)) :
    IsBlanks run :=
  ⟨(forall_of_run? h).1, (forall_of_run? h).2.1⟩

namespace GroupingClause

theorem append_of_word? {text word rest : Text}
    (h : word? text = some (word, rest)) : word ++ rest = text := by
  unfold word? at h
  split at h
  · next hby =>
    cases h
    exact append_of_after? hby
  · obtain ⟨behind, hwithout, h⟩ := Option.map_eq_some_iff.mp h
    cases h
    exact append_of_after? hwithout

/-- A grouping clause has one of two words, blanks around it, and labels in parentheses. -/
structure Formed (c : GroupingClause) : Prop where
  before : IsBlanks c.before
  word : c.word = "by".toList ∨ c.word = "without".toList
  between : IsBlanks c.between
  labels_ne_nil : c.labels ≠ []
  labels : ')' ∉ c.labels

theorem Formed.rightParen_not_mem_word {c : GroupingClause} (h : c.Formed) : ')' ∉ c.word := by
  rcases h.word with hword | hword <;> rw [hword] <;> decide

theorem eq_of_word? {text word rest : Text} (h : word? text = some (word, rest)) :
    word = "by".toList ∨ word = "without".toList := by
  unfold word? at h
  split at h
  · cases h
    exact .inl rfl
  · obtain ⟨behind, -, h⟩ := Option.map_eq_some_iff.mp h
    cases h
    exact .inr rfl

theorem formed_of_read? {text rest : Text} {c : GroupingClause}
    (h : read? text = some (c, rest)) : c.Formed ∧ text = c.source ++ rest := by
  obtain ⟨⟨before, afterBefore⟩, hbefore, h⟩ := Option.bind_eq_some_iff.mp h
  obtain ⟨⟨word, afterWord⟩, hword, h⟩ := Option.bind_eq_some_iff.mp h
  obtain ⟨⟨between, afterBetween⟩, hbetween, h⟩ := Option.bind_eq_some_iff.mp h
  obtain ⟨afterOpen, hopen, h⟩ := Option.bind_eq_some_iff.mp h
  obtain ⟨⟨labels, afterLabels⟩, hlabels, h⟩ := Option.bind_eq_some_iff.mp h
  obtain ⟨behind, hclose, h⟩ := Option.bind_eq_some_iff.mp h
  cases h
  constructor
  · obtain ⟨hne, hall, -⟩ := forall_of_run? hlabels
    refine ⟨isBlanks_of_run? hbefore, eq_of_word? hword, isBlanks_of_run? hbetween, hne, ?_⟩
    intro hmem
    simpa using hall _ hmem
  · rw [← append_of_run? hbefore, ← append_of_word? hword, ← append_of_run? hbetween,
      ← append_of_after? hopen, ← append_of_run? hlabels, ← append_of_after? hclose]
    simp [source]

end GroupingClause

namespace OffsetClause

/-- What the duration of an offset clause may be made of. -/
def isDurationChar (c : Char) : Bool := c.isAlphanum || c == '_' || c == '$'

/-- An offset clause has blanks around its word, and a duration. -/
structure Formed (c : OffsetClause) : Prop where
  before : IsBlanks c.before
  between : IsBlanks c.between
  duration_ne_nil : c.duration ≠ []
  duration : ∀ d ∈ c.duration, isDurationChar d

theorem formed_of_read? {text rest : Text} {c : OffsetClause} (h : read? text = some (c, rest)) :
    c.Formed ∧ text = c.source ++ rest ∧ ∀ d ∈ rest.head?, ¬ isDurationChar d := by
  obtain ⟨⟨before, afterBefore⟩, hbefore, h⟩ := Option.bind_eq_some_iff.mp h
  obtain ⟨afterWord, hword, h⟩ := Option.bind_eq_some_iff.mp h
  obtain ⟨⟨between, afterBetween⟩, hbetween, h⟩ := Option.bind_eq_some_iff.mp h
  obtain ⟨⟨duration, behind⟩, hduration, h⟩ := Option.bind_eq_some_iff.mp h
  cases h
  obtain ⟨hne, hall, hrest⟩ := forall_of_run? hduration
  refine ⟨⟨isBlanks_of_run? hbefore, isBlanks_of_run? hbetween, hne, hall⟩, ?_, hrest⟩
  rw [← append_of_run? hbefore, ← append_of_after? hword, ← append_of_run? hbetween,
    ← append_of_run? hduration]
  simp [source]

end OffsetClause

/-! ### Names, ranges and parentheses -/

namespace Offset

theorem name_of_opening? {text name rest : Text} (h : opening? text = some (name, rest)) :
    isName isWordStart isWordChar name ∧ text = name ++ '(' :: rest := by
  unfold opening? at h
  split at h
  · next hstart =>
    split at h
    · next run rest' hrun =>
      cases h
      obtain ⟨hne, hall, -⟩ := forall_of_run? hrun
      have hhead := append_of_run? hrun
      obtain ⟨c, cs, rfl⟩ := List.exists_cons_of_ne_nil hne
      rw [← hhead] at hstart
      simp only [List.cons_append, List.head?_cons, Option.map_some, Option.getD_some] at hstart
      refine ⟨?_, hhead.symm⟩
      rw [isName_cons, hstart, Bool.true_and, List.all_eq_true]
      exact fun d hd => hall d (List.mem_cons_of_mem c hd)
    · cases h
  · cases h

/-- A range in brackets, around a text that has no closing one. -/
def IsRange (range : Text) : Prop :=
  ∃ inner : Text, inner ≠ [] ∧ ']' ∉ inner ∧ range = '[' :: inner ++ [']']

theorem isRange_of_range? {text range rest : Text} (h : range? text = some (range, rest)) :
    IsRange range ∧ text = range ++ rest := by
  obtain ⟨afterOpen, hopen, h⟩ := Option.bind_eq_some_iff.mp h
  obtain ⟨⟨inner, afterInner⟩, hinner, h⟩ := Option.bind_eq_some_iff.mp h
  obtain ⟨behind, hclose, h⟩ := Option.bind_eq_some_iff.mp h
  cases h
  constructor
  · obtain ⟨hne, hall, -⟩ := forall_of_run? hinner
    refine ⟨inner, hne, fun hmem => ?_, rfl⟩
    simpa using hall _ hmem
  · rw [← append_of_after? hopen, ← append_of_run? hinner, ← append_of_after? hclose]
    simp

theorem range?_append {range rest : Text} (h : IsRange range) :
    range? (range ++ rest) = some (range, rest) := by
  obtain ⟨inner, hne, hinner, rfl⟩ := h
  have hopen : after? "[" ('[' :: inner ++ [']'] ++ rest) = some (inner ++ ']' :: rest) := by
    rw [List.cons_append, List.cons_append, List.append_assoc]
    exact after?_append "[" _
  have hrun : run? (· != ']') (inner ++ ']' :: rest) = some (inner, ']' :: rest) :=
    run?_append hne (fun c hc => by simpa using ne_of_mem_of_not_mem hc hinner) (by simp)
  have hclose : after? "]" (']' :: rest) = some rest := after?_append "]" rest
  simp only [range?, hopen, hrun, hclose, bind, Option.bind_some, pure]

/-- A text of one closing parenthesis or more. -/
def IsClosing (text : Text) : Prop := text ≠ [] ∧ ∀ c ∈ text, c = ')'

theorem IsClosing.exists_cons {text : Text} (h : IsClosing text) :
    ∃ others, text = ')' :: others ∧ ∀ c ∈ others, c = ')' := by
  obtain ⟨c, others, rfl⟩ := List.exists_cons_of_ne_nil h.1
  obtain ⟨rfl, hothers⟩ := List.forall_mem_cons.mp h.2
  exact ⟨others, rfl, hothers⟩

theorem IsClosing.not_mem {text : Text} {c : Char} (h : IsClosing text) (hc : c ≠ ')') :
    c ∉ text :=
  fun hmem => hc (h.2 c hmem)

theorem IsClosing.append_paren {text : Text} (h : IsClosing text) : IsClosing (text ++ [')']) :=
  ⟨List.append_ne_nil_of_left_ne_nil h.1 _,
    List.forall_mem_append.mpr ⟨h.2, List.forall_mem_singleton.mpr rfl⟩⟩

theorem isClosing_of_run? {text run rest : Text}
    (h : run? (· == ')') text = some (run, rest)) : IsClosing run := by
  obtain ⟨hne, hall, -⟩ := forall_of_run? h
  exact ⟨hne, fun c hc => beq_iff_eq.mp (hall c hc)⟩

end Offset

/-! ### Offsets behind a grouping clause -/

namespace GroupedOffset

theorem append_of_mem_cuts {text before behind : Text} (h : (before, behind) ∈ cuts text) :
    before ++ behind = text := by
  induction text generalizing before with
  | nil => cases h
  | cons c cs ih =>
    rw [cuts, List.mem_append] at h
    rcases h with h | h
    · obtain ⟨⟨before, behind⟩, hmem, heq⟩ := List.mem_map.mp h
      cases heq
      rw [List.cons_append, ih hmem]
    · split at h
      · cases List.mem_singleton.mp h
        rfl
      · cases h

/-- In a run of one character, the last one may be named instead of the first one. -/
theorem cons_eq_append_of_run? {text closing rest : Text} {c d : Char}
    (h : run? (· == d) text = some (c :: closing, rest)) : c :: closing = closing ++ [d] := by
  have hall : ∀ e ∈ c :: closing, e = d := by
    unfold run? at h
    split at h
    · cases h
    · next htake =>
      cases h
      have := List.all_takeWhile (p := (· == d)) (l := text)
      rw [htake, List.all_eq_true] at this
      exact fun e he => beq_iff_eq.mp (this e he)
  have htail : ∀ e ∈ closing, e = d := fun e he => hall e (List.mem_cons_of_mem c he)
  rw [hall c List.mem_cons_self, List.eq_replicate_iff.mpr ⟨rfl, htail⟩, ← List.replicate_succ,
    ← List.replicate_succ']

/-- An aggregation of a call, the argument of which ends in a range. -/
structure Formed (g : GroupedOffset) : Prop where
  op : isName isWordStart isWordChar g.op
  argument : ∃ lead range : Text, Offset.IsRange range ∧ g.argument = lead ++ range
  blanks : ∀ c ∈ g.blanks, isBlank c
  closing : Offset.IsClosing g.closing
  grouping : g.grouping.Formed
  offset : g.offset.Formed

theorem formed_of_readFrom? {op argument text : Text} {g : GroupedOffset}
    (hop : isName isWordStart isWordChar op)
    (h : readFrom? op argument text = some g) :
    g.Formed ∧ ∃ rest, op ++ '(' :: argument ++ text = g.source ++ rest ∧
      ∀ c ∈ rest.head?, ¬ OffsetClause.isDurationChar c := by
  obtain ⟨⟨range, afterRange⟩, hrange, h⟩ := Option.bind_eq_some_iff.mp h
  obtain ⟨⟨run, afterClosing⟩, hclosing, h⟩ := Option.bind_eq_some_iff.mp h
  have hrun := append_of_run? hclosing
  have hisrun := Offset.isClosing_of_run? hclosing
  have hblanks := List.takeWhile_append_dropWhile (p := isBlank) (l := afterRange)
  simp only at hclosing hrun hisrun h
  split at h
  · next c closing behind heq =>
    cases heq
    split at h
    · cases h
    · next hempty =>
      obtain ⟨⟨grouping, afterGrouping⟩, hgrouping, h⟩ := Option.bind_eq_some_iff.mp h
      obtain ⟨⟨offset, afterOffset⟩, hoffset, h⟩ := Option.bind_eq_some_iff.mp h
      cases h
      obtain ⟨hisrange, hrangetext⟩ := Offset.isRange_of_range? hrange
      obtain ⟨hclause, hgroupingtext⟩ := GroupingClause.formed_of_read? hgrouping
      obtain ⟨hformed, hoffsettext, hrest⟩ := OffsetClause.formed_of_read? hoffset
      refine ⟨⟨hop, ⟨argument, range, hisrange, rfl⟩, ?_, ?_, hclause, hformed⟩, afterOffset, ?_,
        hrest⟩
      · exact fun c hc => List.mem_takeWhile_imp hc
      · exact ⟨by simpa using hempty, fun d hd => hisrun.2 d (List.mem_cons_of_mem c hd)⟩
      · have hparens : c :: closing = closing ++ [')'] := cons_eq_append_of_run? hclosing
        have hafter : afterRange = afterRange.takeWhile isBlank ++
            (closing ++ ')' :: (grouping.source ++ (offset.source ++ afterOffset))) := by
          rw [← hoffsettext, ← hgroupingtext, ← List.singleton_append, ← List.append_assoc closing, ← hparens, hrun, hblanks]
        rw [hrangetext]
        conv_lhs => rw [hafter]
        simp [source]
  · cases h

/-- The aggregation that is found has the shape of one, and its offset ends where it stands. -/
theorem formed_of_read? {text : Text} {g : GroupedOffset} (h : read? text = some g) :
    g.Formed ∧ ∃ rest, text = g.source ++ rest ∧
      ∀ c ∈ rest.head?, ¬ OffsetClause.isDurationChar c := by
  obtain ⟨⟨op, afterOp⟩, hop, h⟩ := Option.bind_eq_some_iff.mp h
  obtain ⟨⟨name, afterName⟩, hname, h⟩ := Option.bind_eq_some_iff.mp h
  obtain ⟨behind, hopen, h⟩ := Option.bind_eq_some_iff.mp h
  obtain ⟨⟨selector, rest⟩, hmem, h⟩ := List.exists_of_findSome?_eq_some h
  have hcut := append_of_mem_cuts hmem
  have hbehind := List.takeWhile_append_dropWhile (p := isInner) (l := behind)
  obtain ⟨hisop, hoptext⟩ := Offset.name_of_opening? hop
  obtain ⟨hformed, more, hmore, hend⟩ := formed_of_readFrom? hisop h
  refine ⟨hformed, more, ?_, hend⟩
  rw [← hmore, hoptext, ← append_of_run? hname, ← append_of_after? hopen]
  conv_lhs => rw [← hbehind, ← hcut]
  simp

theorem prefix_of_read? {text : Text} {g : GroupedOffset} (h : read? text = some g) :
    g.source <+: text := by
  obtain ⟨-, rest, hrest, -⟩ := formed_of_read? h
  exact ⟨rest, hrest.symm⟩

theorem source_ne_nil (g : GroupedOffset) : g.source ≠ [] := by
  simp [source]

theorem isAnchored_edit? : IsAnchored edit? := by
  intro text edit h
  obtain ⟨g, hread, rfl⟩ := Option.map_eq_some_iff.mp h
  exact ⟨prefix_of_read? hread, g.source_ne_nil⟩

end GroupedOffset

/-! ### Offsets behind parentheses -/

namespace ClosedOffset

theorem append_of_braces? {text matchers rest : Text} (h : braces? text = some (matchers, rest)) :
    matchers ++ rest = text := by
  have hbefore := List.takeWhile_append_dropWhile (p := fun c => c != '{' && c != '(') (l := text)
  unfold braces? at h
  simp only at h
  split at h
  · next inside hinside =>
    have hinner := List.takeWhile_append_dropWhile (p := (· != '\x7d')) (l := inside)
    split at h
    · next behind hbehind =>
      cases h
      rw [hinside, ← hinner, hbehind] at hbefore
      simpa using hbefore
    · cases h
  · cases h

theorem append_of_mem_withBraces {lead text lead' rest : Text}
    (h : (lead', rest) ∈ withBraces lead text) : lead' ++ rest = lead ++ text := by
  unfold withBraces at h
  split at h
  · next hbraces =>
    rcases List.mem_cons.mp h with h | h
    · cases h
      rw [List.append_assoc, append_of_braces? hbraces]
    · cases List.mem_singleton.mp h
      rfl
  · cases List.mem_singleton.mp h
    rfl

theorem append_of_mem_leads {text lead rest : Text} (h : (lead, rest) ∈ leads text) :
    lead ++ rest = text := by
  unfold leads at h
  split at h
  · next hopening =>
    rcases List.mem_append.mp h with h | h
    · rw [append_of_mem_withBraces h, (Offset.name_of_opening? hopening).2]
      simp
    · exact append_of_mem_withBraces h
  · exact append_of_mem_withBraces h

/-- A range that is closed by parentheses, perhaps with a grouping clause behind them. -/
structure Formed (c : ClosedOffset) : Prop where
  range : Offset.IsRange c.range
  closing : Offset.IsClosing c.closing
  grouping : ∀ g ∈ c.grouping, g.Formed
  offset : c.offset.Formed

theorem formed_of_readFrom? {lead text : Text} {c : ClosedOffset}
    (h : readFrom? lead text = some c) :
    c.Formed ∧ ∃ rest, lead ++ text = c.source ++ rest ∧
      ∀ d ∈ rest.head?, ¬ OffsetClause.isDurationChar d := by
  obtain ⟨⟨range, afterRange⟩, hrange, h⟩ := Option.bind_eq_some_iff.mp h
  obtain ⟨⟨closing, afterClosing⟩, hclosing, h⟩ := Option.bind_eq_some_iff.mp h
  obtain ⟨hisrange, hrangetext⟩ := Offset.isRange_of_range? hrange
  have hisclosing := Offset.isClosing_of_run? hclosing
  rw [hrangetext, ← append_of_run? hclosing]
  simp only at h
  split at h
  · next grouping rest hgrouping =>
    obtain ⟨⟨offset, afterOffset⟩, hoffset, h⟩ := Option.bind_eq_some_iff.mp h
    cases h
    obtain ⟨hclause, hgroupingtext⟩ := GroupingClause.formed_of_read? hgrouping
    obtain ⟨hformed, hoffsettext, hrest⟩ := OffsetClause.formed_of_read? hoffset
    refine ⟨⟨hisrange, hisclosing, ?_, hformed⟩, afterOffset, ?_, hrest⟩
    · rintro g ⟨⟩
      exact hclause
    · rw [hgroupingtext, hoffsettext]
      simp [source, groupingSource]
  · obtain ⟨⟨offset, afterOffset⟩, hoffset, h⟩ := Option.bind_eq_some_iff.mp h
    cases h
    obtain ⟨hformed, hoffsettext, hrest⟩ := OffsetClause.formed_of_read? hoffset
    refine ⟨⟨hisrange, hisclosing, nofun, hformed⟩, afterOffset, ?_, hrest⟩
    rw [hoffsettext]
    simp [source, groupingSource]

/-- The closed range that is found has the shape of one, and its offset ends where it stands. -/
theorem formed_of_read? {text : Text} {c : ClosedOffset} (h : read? text = some c) :
    c.Formed ∧ ∃ rest, text = c.source ++ rest ∧
      ∀ d ∈ rest.head?, ¬ OffsetClause.isDurationChar d := by
  obtain ⟨⟨lead, rest⟩, hmem, h⟩ := List.exists_of_findSome?_eq_some h
  rw [← append_of_mem_leads hmem]
  exact formed_of_readFrom? h

theorem prefix_of_read? {text : Text} {c : ClosedOffset} (h : read? text = some c) :
    c.source <+: text := by
  obtain ⟨-, rest, hrest, -⟩ := formed_of_read? h
  exact ⟨rest, hrest.symm⟩

theorem Formed.source_ne_nil {c : ClosedOffset} (h : c.Formed) : c.source ≠ [] := by
  simp [source, h.closing.1]

theorem isAnchored_edit? : IsAnchored edit? := by
  intro text edit h
  obtain ⟨c, hread, rfl⟩ := Option.map_eq_some_iff.mp h
  exact ⟨prefix_of_read? hread, (formed_of_read? hread).1.source_ne_nil⟩

end ClosedOffset

end PromQL

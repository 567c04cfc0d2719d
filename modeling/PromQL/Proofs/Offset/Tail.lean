import Mathlib
import PromQL.Proofs.Offset.Aggregation

/-!
# What stands behind a range

Behind the bracket that closes a range, each pass of the repair looks for parentheses, perhaps a
grouping clause, and an offset. A reader that follows them from one character to the next says where
a pass stands in the middle of it, and so what becomes of it when the text from there on is another
one. The reader comes to its end exactly where the recognisers of the pass do.
-/

namespace PromQL

/-- The two passes of the repair. -/
inductive Pass where
  /-- The one for offsets behind the grouping clause of an aggregation. -/
  | grouped
  /-- The one for offsets behind parentheses. -/
  | closed
  deriving DecidableEq, Repr

/-- The words that clauses start with. -/
inductive ClauseWord where
  | grouping
  | offset
  deriving DecidableEq, Repr

/-- Where reading stands behind the bracket that closes a range. -/
inductive TailState where
  /-- Nothing but blanks has been read. -/
  | bracket
  /-- One parenthesis, in the pass that needs two. -/
  | single
  /-- As many parentheses as are needed. -/
  | closed
  /-- Blanks behind them, or behind a grouping clause. -/
  | gap (labelled : Bool)
  /-- The start of a word, with these letters left. -/
  | spelling (left : Text) (word : ClauseWord)
  /-- Blanks behind a word. -/
  | spaced (word : ClauseWord)
  /-- The parenthesis in front of labels. -/
  | opened
  /-- Some of the labels. -/
  | labels
  /-- The parenthesis behind them. -/
  | labelled
  /-- The first character of a duration, and any others. -/
  | found
  deriving DecidableEq, Repr

/-- The word that a letter starts, if the pass allows it there. -/
def Pass.word? (p : Pass) (labelled : Bool) (c : Char) : Option TailState :=
  if c = 'o' then
    if labelled || p == .closed then some (.spelling "ffset".toList .offset) else none
  else if labelled then none
  else if c = 'b' then some (.spelling "y".toList .grouping)
  else if c = 'w' then some (.spelling "ithout".toList .grouping)
  else none

/-- Follows what a pass looks for behind the bracket that closes a range. -/
def tailReader (p : Pass) : Reader TailState
  | .bracket, c =>
    if c = ')' then some (if p = .grouped then .single else .closed)
    else if p == .grouped && isBlank c then some .bracket else none
  | .single, c => if c = ')' then some .closed else none
  | .closed, c =>
    if c = ')' then some .closed else if isBlank c then some (.gap false) else none
  | .gap labelled, c => if isBlank c then some (.gap labelled) else p.word? labelled c
  | .spelling [] word, c => if isBlank c then some (.spaced word) else none
  | .spelling (d :: ds) word, c => if c = d then some (.spelling ds word) else none
  | .spaced .grouping, c =>
    if isBlank c then some (.spaced .grouping) else if c = '(' then some .opened else none
  | .spaced .offset, c =>
    if isBlank c then some (.spaced .offset)
    else if OffsetClause.isDurationChar c then some .found else none
  | .opened, c => if c = ')' then none else some .labels
  | .labels, c => some (if c = ')' then .labelled else .labels)
  | .labelled, c => if isBlank c then some (.gap true) else none
  | .found, _ => some .found

/-- A grouping clause as it stands in a text, if there is one. -/
def GroupingClause.sourceOf (grouping : Option GroupingClause) : Text :=
  (grouping.map GroupingClause.source).getD []

namespace TailState

open Reader (run?_nil run?_cons run?_append_of_some run?_of_forall)

variable {p : Pass} {t : Text} {s s' : TailState}

theorem ne_paren_of_isBlank {c : Char} (h : isBlank c) : c ≠ ')' := by
  rintro rfl
  exact absurd h (by decide)

/-! ### Clauses are read to their end -/

@[simp] theorem run?_found (p : Pass) (t : Text) : (tailReader p).run? .found t = some .found :=
  run?_of_forall fun _ _ => rfl

theorem run?_blanks (hfirst : ∀ c, isBlank c → tailReader p s c = some s')
    (hothers : ∀ c, isBlank c → tailReader p s' c = some s') (ht : IsBlanks t) :
    (tailReader p).run? s t = some s' := by
  obtain ⟨c, cs, rfl⟩ := List.exists_cons_of_ne_nil ht.1
  obtain ⟨hc, hcs⟩ := List.forall_mem_cons.mp ht.2
  rw [run?_cons, hfirst c hc, Option.bind_some]
  exact run?_of_forall fun d hd => hothers d (hcs d hd)

theorem tailReader_closed_blank {c : Char} (h : isBlank c) :
    tailReader p .closed c = some (.gap false) := by
  simp [tailReader, ne_paren_of_isBlank h, h]

theorem tailReader_gap_blank {labelled : Bool} {c : Char} (h : isBlank c) :
    tailReader p (.gap labelled) c = some (.gap labelled) := by
  simp [tailReader, h]

theorem tailReader_spaced_blank {word : ClauseWord} {c : Char} (h : isBlank c) :
    tailReader p (.spaced word) c = some (.spaced word) := by
  cases word <;> simp [tailReader, h]

theorem tailReader_spelled_blank {word : ClauseWord} {c : Char} (h : isBlank c) :
    tailReader p (.spelling [] word) c = some (.spaced word) := by
  simp [tailReader, h]

theorem tailReader_labelled_blank {c : Char} (h : isBlank c) :
    tailReader p .labelled c = some (.gap true) := by
  simp [tailReader, h]

theorem run?_closing (h : ∀ c ∈ t, c = ')') : (tailReader p).run? .closed t = some .closed :=
  run?_of_forall fun c hc => by rw [h c hc]; rfl

/-- The text of labels, and of anything else without a closing parenthesis. -/
theorem run?_labels (h : ')' ∉ t) : (tailReader p).run? .labels t = some .labels :=
  run?_of_forall fun c hc => by simp [tailReader, ne_of_mem_of_not_mem hc h]

theorem run?_groupingClause {g : GroupingClause} (h : g.Formed) :
    (tailReader p).run? .closed g.source = some .labelled := by
  have hbefore : (tailReader p).run? .closed g.before = some (.gap false) :=
    run?_blanks (fun _ => tailReader_closed_blank) (fun _ => tailReader_gap_blank) h.before
  have hword : (tailReader p).run? (.gap false) g.word = some (.spelling [] .grouping) := by
    rcases h.word with hword | hword <;> rw [hword] <;> rfl
  have hbetween : (tailReader p).run? (.spelling [] .grouping) g.between =
      some (.spaced .grouping) :=
    run?_blanks (fun _ => tailReader_spelled_blank) (fun _ => tailReader_spaced_blank) h.between
  have hlabels : (tailReader p).run? .opened (g.labels ++ [')']) = some .labelled := by
    obtain ⟨c, cs, hcs⟩ := List.exists_cons_of_ne_nil h.labels_ne_nil
    have hnot : ')' ∉ c :: cs := hcs ▸ h.labels
    have hfirst : tailReader p .opened c = some .labels := by
      have hc : c ≠ ')' := fun hc => hnot (by simp [hc])
      simp [tailReader, hc]
    rw [hcs, List.cons_append, run?_cons, hfirst, Option.bind_some,
      run?_append_of_some (run?_labels fun hmem => hnot (List.mem_cons_of_mem c hmem))]
    rfl
  have hopen : tailReader p (.spaced .grouping) '(' = some .opened := by
    cases p <;> rfl
  have hsource : g.source =
      g.before ++ (g.word ++ (g.between ++ '(' :: (g.labels ++ [')']))) := by
    simp [GroupingClause.source]
  rw [hsource, run?_append_of_some hbefore, run?_append_of_some hword,
    run?_append_of_some hbetween, run?_cons, hopen, Option.bind_some, hlabels]

theorem run?_offsetClause {o : OffsetClause} (h : o.Formed)
    (hs : s = .labelled ∨ s = .closed ∧ p = .closed) :
    (tailReader p).run? s o.source = some .found := by
  obtain ⟨labelled, hbefore, hword⟩ : ∃ labelled,
      (tailReader p).run? s o.before = some (.gap labelled) ∧
        (tailReader p).run? (.gap labelled) "offset".toList = some (.spelling [] .offset) := by
    rcases hs with rfl | ⟨rfl, rfl⟩
    · exact ⟨true, run?_blanks (fun _ => tailReader_labelled_blank)
        (fun _ => tailReader_gap_blank) h.before, rfl⟩
    · exact ⟨false, run?_blanks (fun _ => tailReader_closed_blank)
        (fun _ => tailReader_gap_blank) h.before, rfl⟩
  have hbetween : (tailReader p).run? (.spelling [] .offset) o.between = some (.spaced .offset) :=
    run?_blanks (fun _ => tailReader_spelled_blank) (fun _ => tailReader_spaced_blank) h.between
  have hduration : (tailReader p).run? (.spaced .offset) o.duration = some .found := by
    obtain ⟨c, cs, hcs⟩ := List.exists_cons_of_ne_nil h.duration_ne_nil
    have hc : OffsetClause.isDurationChar c := h.duration c (by simp [hcs])
    have hfirst : tailReader p (.spaced .offset) c = some .found := by
      simp [tailReader, OffsetClause.not_isBlank_of_isDurationChar hc, hc]
    rw [hcs, run?_cons, hfirst, Option.bind_some, run?_found]
  have hsource : o.source = o.before ++ ("offset".toList ++ (o.between ++ o.duration)) := by
    simp only [OffsetClause.source, List.append_assoc]
  rw [hsource, run?_append_of_some hbefore, run?_append_of_some hword,
    run?_append_of_some hbetween, hduration]

/-- A pass comes to its end behind parentheses, a grouping clause that the first pass needs, and an
offset. -/
theorem run?_clauses {closing : Text} {grouping : Option GroupingClause} {o : OffsetClause}
    (hclosing : ∀ c ∈ closing, c = ')') (hgrouping : ∀ g ∈ grouping, g.Formed) (ho : o.Formed)
    (hp : p = .grouped → grouping.isSome) (rest : Text) :
    (tailReader p).run? .closed
      (closing ++ (GroupingClause.sourceOf grouping ++ (o.source ++ rest))) = some .found := by
  rw [run?_append_of_some (run?_closing hclosing)]
  cases grouping with
  | none =>
    have hclosed : p = .closed := by
      cases p with
      | grouped => exact absurd (hp rfl) (by simp)
      | closed => rfl
    have hoffset := run?_offsetClause (s := .closed) ho (.inr ⟨rfl, hclosed⟩)
    exact (run?_append_of_some hoffset rest).trans (run?_found p rest)
  | some g =>
    have hlabelled := run?_groupingClause (p := p) (hgrouping g rfl)
    have hoffset := run?_offsetClause (p := p) ho (.inl rfl)
    rw [GroupingClause.sourceOf, Option.map_some, Option.getD_some, run?_append_of_some hlabelled,
      run?_append_of_some hoffset, run?_found]

/-! ### What has been read to its end -/

/-- Where the reader goes over blanks, it goes on behind them. -/
theorem exists_of_blanks (hs : s ≠ .found)
    (hloop : ∀ c, isBlank c → tailReader p s c = some s)
    (h : (tailReader p).run? s t = some .found) :
    ∃ blanks c rest next, (∀ d ∈ blanks, isBlank d) ∧ ¬ isBlank c ∧ t = blanks ++ c :: rest ∧
      tailReader p s c = some next ∧ (tailReader p).run? next rest = some .found := by
  induction t with
  | nil =>
    rw [run?_nil, Option.some.injEq] at h
    exact absurd h hs
  | cons c cs ih =>
    obtain ⟨next, hnext, hrest⟩ := Option.bind_eq_some_iff.mp h
    by_cases hc : isBlank c
    · rw [hloop c hc, Option.some.injEq] at hnext
      subst hnext
      obtain ⟨blanks, d, rest, next, hblanks, hd, rfl, hread⟩ := ih hrest
      exact ⟨c :: blanks, d, rest, next, List.forall_mem_cons.mpr ⟨hc, hblanks⟩, hd, rfl, hread⟩
    · exact ⟨[], c, cs, next, nofun, hc, rfl, hnext, hrest⟩

theorem exists_of_spelling {left : Text} {word : ClauseWord}
    (h : (tailReader p).run? (.spelling left word) t = some .found) :
    ∃ b rest, isBlank b ∧ t = left ++ b :: rest ∧
      (tailReader p).run? (.spaced word) rest = some .found := by
  induction left generalizing t with
  | nil =>
    cases t with
    | nil => cases h
    | cons c cs =>
      obtain ⟨next, hnext, hrest⟩ := Option.bind_eq_some_iff.mp h
      simp only [tailReader, Option.ite_none_right_eq_some, Option.some.injEq] at hnext
      obtain ⟨hc, rfl⟩ := hnext
      exact ⟨c, cs, hc, rfl, hrest⟩
  | cons d ds ih =>
    cases t with
    | nil => cases h
    | cons c cs =>
      obtain ⟨next, hnext, hrest⟩ := Option.bind_eq_some_iff.mp h
      simp only [tailReader, Option.ite_none_right_eq_some, Option.some.injEq] at hnext
      obtain ⟨rfl, rfl⟩ := hnext
      obtain ⟨b, rest, hb, rfl, hspaced⟩ := ih hrest
      exact ⟨b, rest, hb, rfl, hspaced⟩

theorem exists_of_labels (h : (tailReader p).run? TailState.labels t = some .found) :
    ∃ names rest, ')' ∉ names ∧ t = names ++ ')' :: rest ∧
      (tailReader p).run? .labelled rest = some .found := by
  induction t with
  | nil => cases h
  | cons c cs ih =>
    by_cases hc : c = ')'
    · subst hc
      exact ⟨[], cs, List.not_mem_nil, rfl, h⟩
    · have hnext : tailReader p TailState.labels c = some TailState.labels := by
        simp only [tailReader, if_neg hc]
      rw [run?_cons, hnext, Option.bind_some] at h
      obtain ⟨names, rest, hnames, rfl, hread⟩ := ih h
      refine ⟨c :: names, rest, ?_, rfl, hread⟩
      rw [List.mem_cons, not_or]
      exact ⟨Ne.symm hc, hnames⟩

/-- Behind the word of an offset clause there is a duration. -/
theorem exists_of_spaced {c b : Char} {blanks : Text} (hc : isBlank c)
    (hblanks : ∀ d ∈ blanks, isBlank d) (hb : isBlank b)
    (h : (tailReader p).run? (.spaced .offset) t = some .found) :
    ∃ (o : OffsetClause) (rest : Text), o.Formed ∧
      c :: (blanks ++ ("offset".toList ++ b :: t)) = o.source ++ rest ∧
      ∀ d ∈ rest.head?, ¬ OffsetClause.isDurationChar d := by
  obtain ⟨between, d, rest, next, hbetween, hd, rfl, hnext, -⟩ :=
    exists_of_blanks TailState.noConfusion (fun _ => tailReader_spaced_blank) h
  have hduration : OffsetClause.isDurationChar d := by
    simp only [tailReader, if_neg hd, Option.ite_none_right_eq_some] at hnext
    exact hnext.1
  refine ⟨⟨c :: blanks, b :: between, d :: rest.takeWhile OffsetClause.isDurationChar⟩,
    rest.dropWhile OffsetClause.isDurationChar, ⟨?_, ?_, List.cons_ne_nil _ _, ?_⟩, ?_, ?_⟩
  · exact ⟨List.cons_ne_nil _ _, List.forall_mem_cons.mpr ⟨hc, hblanks⟩⟩
  · exact ⟨List.cons_ne_nil _ _, List.forall_mem_cons.mpr ⟨hb, hbetween⟩⟩
  · exact List.forall_mem_cons.mpr ⟨hduration, fun e he => List.mem_takeWhile_imp he⟩
  · simp only [OffsetClause.source, List.append_assoc, List.cons_append,
      List.takeWhile_append_dropWhile]
  · intro e he
    have hnot := List.head?_dropWhile_not OffsetClause.isDurationChar rest
    rw [he] at hnot
    simpa using hnot

/-- Behind blanks there is an offset, or a grouping clause if none has been read. -/
theorem exists_of_gap {labelled : Bool} (h : (tailReader p).run? (.gap labelled) t = some .found) :
    ∃ blanks word b rest, (∀ c ∈ blanks, isBlank c) ∧ isBlank b ∧
      (word = "offset".toList ∧ (labelled = true ∨ p = .closed) ∧
          (tailReader p).run? (.spaced .offset) rest = some .found ∨
        (word = "by".toList ∨ word = "without".toList) ∧ labelled = false ∧
          (tailReader p).run? (.spaced .grouping) rest = some .found) ∧
      t = blanks ++ (word ++ b :: rest) := by
  obtain ⟨blanks, c, rest, next, hblanks, hc, rfl, hnext, hrest⟩ :=
    exists_of_blanks TailState.noConfusion (fun _ => tailReader_gap_blank) h
  simp only [tailReader, if_neg hc, Pass.word?] at hnext
  split_ifs at hnext with ho hallowed hlabelled hb hw
  · cases hnext
    obtain ⟨b, rest, hb, rfl, hread⟩ := exists_of_spelling hrest
    refine ⟨blanks, "offset".toList, b, rest, hblanks, hb, .inl ⟨rfl, ?_, hread⟩, by rw [ho]; rfl⟩
    simpa using hallowed
  · cases hnext
    obtain ⟨b, rest, hblank, rfl, hread⟩ := exists_of_spelling hrest
    exact ⟨blanks, "by".toList, b, rest, hblanks, hblank,
      .inr ⟨.inl rfl, by simpa using hlabelled, hread⟩, by rw [hb]; rfl⟩
  · cases hnext
    obtain ⟨b, rest, hblank, rfl, hread⟩ := exists_of_spelling hrest
    exact ⟨blanks, "without".toList, b, rest, hblanks, hblank,
      .inr ⟨.inr rfl, by simpa using hlabelled, hread⟩, by rw [hw]; rfl⟩

/-- Behind labels there is an offset. -/
theorem exists_of_labelled (h : (tailReader p).run? .labelled t = some .found) :
    ∃ (o : OffsetClause) (rest : Text), o.Formed ∧ t = o.source ++ rest ∧
      ∀ c ∈ rest.head?, ¬ OffsetClause.isDurationChar c := by
  cases t with
  | nil => cases h
  | cons c cs =>
    obtain ⟨next, hnext, hread⟩ := Option.bind_eq_some_iff.mp h
    simp only [tailReader, Option.ite_none_right_eq_some, Option.some.injEq] at hnext
    obtain ⟨hc, rfl⟩ := hnext
    obtain ⟨blanks, word, b, behind, hblanks, hb, hword, rfl⟩ := exists_of_gap hread
    obtain ⟨rfl, -, hoffset⟩ : word = "offset".toList ∧ (true = true ∨ p = .closed) ∧ _ :=
      hword.resolve_right fun hgrouping => Bool.noConfusion hgrouping.2.1
    obtain ⟨o, rest, ho, hsource, hrest⟩ := exists_of_spaced hc hblanks hb hoffset
    exact ⟨o, rest, ho, hsource, hrest⟩

/-- Behind the word of a grouping clause there are labels in parentheses. -/
theorem exists_of_spaced_grouping (h : (tailReader p).run? (.spaced .grouping) t = some .found) :
    ∃ blanks names rest, (∀ c ∈ blanks, isBlank c) ∧ names ≠ [] ∧ ')' ∉ names ∧
      t = blanks ++ '(' :: (names ++ ')' :: rest) ∧
      (tailReader p).run? .labelled rest = some .found := by
  obtain ⟨blanks, c, behind, next, hblanks, hc, rfl, hnext, hread⟩ :=
    exists_of_blanks TailState.noConfusion (fun _ => tailReader_spaced_blank) h
  simp only [tailReader, if_neg hc, Option.ite_none_right_eq_some, Option.some.injEq] at hnext
  obtain ⟨rfl, rfl⟩ := hnext
  cases behind with
  | nil => cases hread
  | cons d ds =>
    obtain ⟨next, hnext, hread⟩ := Option.bind_eq_some_iff.mp hread
    simp only [tailReader, Option.ite_none_left_eq_some, Option.some.injEq] at hnext
    obtain ⟨hd, rfl⟩ := hnext
    obtain ⟨names, rest, hnames, rfl, hlabelled⟩ := exists_of_labels hread
    refine ⟨blanks, d :: names, rest, hblanks, List.cons_ne_nil d names, ?_, rfl, hlabelled⟩
    rw [List.mem_cons, not_or]
    exact ⟨Ne.symm hd, hnames⟩

/-- Behind parentheses there is an offset, and a grouping clause in front of it if the pass needs
one. -/
theorem exists_of_closed (h : (tailReader p).run? .closed t = some .found) :
    ∃ (closing : Text) (grouping : Option GroupingClause) (o : OffsetClause) (rest : Text),
      (∀ c ∈ closing, c = ')') ∧ (∀ g ∈ grouping, g.Formed) ∧
      (p = .grouped → grouping.isSome) ∧ o.Formed ∧
      t = closing ++ (GroupingClause.sourceOf grouping ++ (o.source ++ rest)) ∧
      ∀ c ∈ rest.head?, ¬ OffsetClause.isDurationChar c := by
  induction t with
  | nil => cases h
  | cons c cs ih =>
    obtain ⟨next, hnext, hread⟩ := Option.bind_eq_some_iff.mp h
    simp only [tailReader] at hnext
    split_ifs at hnext with hparen hblank
    · cases hnext
      obtain ⟨closing, grouping, o, rest, hclosing, hgrouping, hp, ho, rfl, hrest⟩ := ih hread
      exact ⟨c :: closing, grouping, o, rest, List.forall_mem_cons.mpr ⟨hparen, hclosing⟩,
        hgrouping, hp, ho, rfl, hrest⟩
    · cases hnext
      obtain ⟨blanks, word, b, behind, hblanks, hb, hoffset | hgrouping, rfl⟩ :=
        exists_of_gap hread
      · obtain ⟨rfl, hclosed, hread⟩ := hoffset
        obtain ⟨o, rest, ho, hsource, hrest⟩ := exists_of_spaced hblank hblanks hb hread
        have hp : p = .closed := hclosed.resolve_left Bool.noConfusion
        refine ⟨[], none, o, rest, nofun, nofun, ?_, ho, hsource, hrest⟩
        rw [hp]
        exact nofun
      · obtain ⟨hword, -, hread⟩ := hgrouping
        obtain ⟨blanks', names, behind, hblanks', hne, hnames, rfl, hlabelled⟩ :=
          exists_of_spaced_grouping hread
        obtain ⟨o, rest, ho, rfl, hrest⟩ := exists_of_labelled hlabelled
        refine ⟨[], some ⟨c :: blanks, word, b :: blanks', names⟩, o, rest, nofun, ?_,
          fun _ => rfl, ho, ?_, hrest⟩
        · rintro g ⟨⟩
          exact ⟨⟨List.cons_ne_nil _ _, List.forall_mem_cons.mpr ⟨hblank, hblanks⟩⟩, hword,
            ⟨List.cons_ne_nil _ _, List.forall_mem_cons.mpr ⟨hb, hblanks'⟩⟩, hne, hnames⟩
        · simp [GroupingClause.sourceOf, GroupingClause.source]

end TailState

/-! ### The parts behind a range -/

/-- What a pass looks for behind the bracket that closes a range, and the rest of the text. -/
structure Tail where
  blanks : Text
  closing : Text
  grouping : Option GroupingClause
  offset : OffsetClause
  rest : Text
  deriving DecidableEq, Repr

namespace Tail

open TailState

variable {p : Pass} {t : Tail}

/-- The parts as they stand in the text. -/
def text (t : Tail) : Text :=
  t.blanks ++ (t.closing ++ (GroupingClause.sourceOf t.grouping ++ (t.offset.source ++ t.rest)))

/-- The first pass allows blanks in front of the parentheses, and needs two of them and a grouping
clause. The duration ends where the rest starts. -/
structure Formed (p : Pass) (t : Tail) : Prop where
  blanks : ∀ c ∈ t.blanks, isBlank c
  blanks_eq_nil : p = .closed → t.blanks = []
  closing : Offset.IsClosing t.closing
  two_le_length : p = .grouped → 2 ≤ t.closing.length
  grouping : ∀ g ∈ t.grouping, g.Formed
  isSome_grouping : p = .grouped → t.grouping.isSome
  offset : t.offset.Formed
  rest : ∀ c ∈ t.rest.head?, ¬ OffsetClause.isDurationChar c

section Parts

variable {blanks closing rest : Text} {offset : OffsetClause}

/-- The parts that the second pass looks for. -/
theorem formed_closed {grouping : Option GroupingClause} (hclosing : Offset.IsClosing closing)
    (hgrouping : ∀ g ∈ grouping, g.Formed) (hoffset : offset.Formed)
    (hrest : ∀ c ∈ rest.head?, ¬ OffsetClause.isDurationChar c) :
    Formed .closed ⟨[], closing, grouping, offset, rest⟩ where
  blanks _ hc := absurd hc List.not_mem_nil
  blanks_eq_nil _ := rfl
  closing := hclosing
  two_le_length hp := Pass.noConfusion hp
  grouping := hgrouping
  isSome_grouping hp := Pass.noConfusion hp
  offset := hoffset
  rest := hrest

/-- The parts that the first pass looks for. -/
theorem formed_grouped {grouping : Option GroupingClause} (hblanks : ∀ c ∈ blanks, isBlank c)
    (hclosing : Offset.IsClosing closing) (hlength : 2 ≤ closing.length)
    (hgrouping : ∀ g ∈ grouping, g.Formed) (hsome : grouping.isSome) (hoffset : offset.Formed)
    (hrest : ∀ c ∈ rest.head?, ¬ OffsetClause.isDurationChar c) :
    Formed .grouped ⟨blanks, closing, grouping, offset, rest⟩ where
  blanks := hblanks
  blanks_eq_nil hp := Pass.noConfusion hp
  closing := hclosing
  two_le_length _ := hlength
  grouping := hgrouping
  isSome_grouping _ := hsome
  offset := hoffset
  rest := hrest

end Parts

theorem Formed.run? (h : t.Formed p) : (tailReader p).run? .bracket t.text = some .found := by
  obtain ⟨closing, hclosing, hparens⟩ := h.closing.exists_cons
  cases p with
  | closed =>
    have hclauses := run?_clauses (p := .closed) hparens h.grouping h.offset nofun t.rest
    rw [text, h.blanks_eq_nil rfl, hclosing]
    exact hclauses
  | grouped =>
    have hlength := h.two_le_length rfl
    rw [hclosing] at hlength
    obtain ⟨d, others, rfl⟩ := List.exists_cons_of_length_pos (Nat.lt_of_succ_lt_succ hlength)
    obtain ⟨hd, hothers⟩ := List.forall_mem_cons.mp hparens
    have hblanks : (tailReader .grouped).run? .bracket t.blanks = some .bracket :=
      Reader.run?_of_forall fun c hc => by
        simp [tailReader, ne_paren_of_isBlank (h.blanks c hc), h.blanks c hc]
    have hclauses :=
      run?_clauses (p := .grouped) hothers h.grouping h.offset h.isSome_grouping t.rest
    rw [text, hclosing, hd, Reader.run?_append_of_some hblanks]
    exact hclauses

theorem exists_of_run? {s : Text} (h : (tailReader p).run? .bracket s = some .found) :
    ∃ t : Tail, t.Formed p ∧ t.text = s := by
  cases p with
  | closed =>
    cases s with
    | nil => cases h
    | cons c cs =>
      obtain ⟨next, hnext, hread⟩ := Option.bind_eq_some_iff.mp h
      have hparen : c = ')' ∧ .closed = next := by simpa [tailReader] using hnext
      obtain ⟨rfl, rfl⟩ := hparen
      obtain ⟨closing, grouping, o, rest, hclosing, hgrouping, hp, ho, rfl, hrest⟩ :=
        exists_of_closed hread
      exact ⟨⟨[], ')' :: closing, grouping, o, rest⟩, formed_closed ⟨List.cons_ne_nil _ _,
        List.forall_mem_cons.mpr ⟨rfl, hclosing⟩⟩ hgrouping ho hrest, rfl⟩
  | grouped =>
    have hloop : ∀ c, isBlank c → tailReader .grouped .bracket c = some .bracket := by
      intro c hc
      simp [tailReader, ne_paren_of_isBlank hc, hc]
    obtain ⟨blanks, c, behind, next, hblanks, hc, rfl, hnext, hread⟩ :=
      exists_of_blanks TailState.noConfusion hloop h
    have hparen : c = ')' ∧ .single = next := by simpa [tailReader, hc] using hnext
    obtain ⟨rfl, rfl⟩ := hparen
    cases behind with
    | nil => cases hread
    | cons d ds =>
      obtain ⟨next, hnext, hread⟩ := Option.bind_eq_some_iff.mp hread
      simp only [tailReader, Option.ite_none_right_eq_some, Option.some.injEq] at hnext
      obtain ⟨rfl, rfl⟩ := hnext
      obtain ⟨closing, grouping, o, rest, hclosing, hgrouping, hp, ho, rfl, hrest⟩ :=
        exists_of_closed hread
      have hparens : Offset.IsClosing (')' :: ')' :: closing) := ⟨List.cons_ne_nil _ _,
        List.forall_mem_cons.mpr ⟨rfl, List.forall_mem_cons.mpr ⟨rfl, hclosing⟩⟩⟩
      exact ⟨⟨blanks, ')' :: ')' :: closing, grouping, o, rest⟩, formed_grouped hblanks hparens
        (Nat.le_add_left 2 _) hgrouping (hp rfl) ho hrest, rfl⟩

/-- A pass comes to its end exactly behind the parts that it looks for. -/
theorem run?_eq_found_iff {s : Text} :
    (tailReader p).run? .bracket s = some .found ↔ ∃ t : Tail, t.Formed p ∧ t.text = s := by
  constructor
  · exact exists_of_run?
  · rintro ⟨t, ht, rfl⟩
    exact ht.run?

end Tail

end PromQL

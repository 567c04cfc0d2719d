import Mathlib
import PromQL.Proofs.Offset.Tail

/-!
# Where the rules find something

A rule of the repair finds something at the start of a text if there is a front of a certain kind,
a range behind it, and behind the range what the pass looks for. The first pass takes the name of an
aggregation, that of a function and a selector for the front; what the second one takes is in front
of a range at which it would find something, too.
-/

namespace PromQL

namespace Offset

/-- A front, a range, and behind it what a pass looks for. -/
def Found (p : Pass) (front text : Text) : Prop :=
  ∃ inner tail : Text, inner ≠ [] ∧ ']' ∉ inner ∧ text = front ++ '[' :: (inner ++ ']' :: tail) ∧
    (tailReader p).run? .bracket tail = some .found

variable {p : Pass} {front text range : Text}

theorem found_of_formed {t : Tail} (hrange : IsRange range) (ht : t.Formed p) (front : Text) :
    Found p front (front ++ (range ++ t.text)) := by
  obtain ⟨inner, hne, hinner, rfl⟩ := hrange
  exact ⟨inner, t.text, hne, hinner, by simp, ht.run?⟩

theorem Found.exists_formed (h : Found p front text) :
    ∃ (range : Text) (t : Tail), IsRange range ∧ t.Formed p ∧
      text = front ++ (range ++ t.text) := by
  obtain ⟨inner, tail, hne, hinner, rfl, hread⟩ := h
  obtain ⟨t, ht, rfl⟩ := Tail.exists_of_run? hread
  exact ⟨'[' :: inner ++ [']'], t, ⟨inner, hne, hinner, rfl⟩, ht, by simp⟩

theorem found_append_iff (lead : Text) : Found p (lead ++ front) (lead ++ text) ↔
    Found p front text := by
  simp only [Found, List.append_assoc, List.append_cancel_left_eq]

theorem Found.mem_bracket (h : Found p front text) : '[' ∈ text := by
  obtain ⟨inner, tail, -, -, rfl, -⟩ := h
  simp

/-- A closing bracket of a text is the one that closes the range, or stands in the front, or behind
the range. -/
theorem Found.cases_bracket {before behind : Text} (h : Found p front (before ++ ']' :: behind)) :
    (∃ inner : Text, inner ≠ [] ∧ ']' ∉ inner ∧ before = front ++ '[' :: inner ∧
        (tailReader p).run? .bracket behind = some .found) ∨
      (∃ rest, front = before ++ ']' :: rest ∧ Found p rest behind) ∨
      ∃ inner between : Text, inner ≠ [] ∧ ']' ∉ inner ∧
        before = front ++ '[' :: (inner ++ ']' :: between) ∧
          (tailReader p).run? .bracket (between ++ ']' :: behind) = some .found := by
  obtain ⟨inner, tail, hne, hinner, htext, hread⟩ := h
  have hsplit : before ++ ']' :: behind = (front ++ '[' :: inner) ++ ']' :: tail := by
    rw [htext]
    simp
  rcases exists_of_append_eq_append_cons hsplit with ⟨between, rfl, rfl⟩ | ⟨rest, hfront, hrest⟩
  · exact .inr (.inr ⟨inner, between, hne, hinner, by simp, hread⟩)
  · rcases List.cons_eq_append_iff.mp hrest with ⟨rfl, hbehind⟩ | ⟨rest, rfl, rfl⟩
    · obtain rfl : tail = behind := List.tail_eq_of_cons_eq hbehind
      exact .inl ⟨inner, hne, hinner, by simpa using hfront.symm, hread⟩
    · rcases exists_of_append_eq_append_cons hfront with ⟨rest, rfl, rfl⟩ | ⟨inner', -, hinner'⟩
      · exact .inr (.inl ⟨rest, rfl, inner, tail, hne, hinner, by simp, hread⟩)
      · rcases List.cons_eq_append_iff.mp hinner' with ⟨rfl, hbracket⟩ | ⟨inner'', rfl, rfl⟩
        · exact absurd (List.head_eq_of_cons_eq hbracket) (by decide)
        · simp at hinner

/-- A run of parentheses ends where a clause starts. -/
theorem run?_closing {t : Tail} (ht : t.Formed p) {closing : Text} (hclosing : IsClosing closing) :
    run? (· == ')') (closing ++
        (GroupingClause.sourceOf t.grouping ++ (t.offset.source ++ t.rest))) =
      some (closing, GroupingClause.sourceOf t.grouping ++ (t.offset.source ++ t.rest)) := by
  have hblank : ∀ {blanks : Text}, IsBlanks blanks → ∀ rest : Text,
      ∀ c ∈ (blanks ++ rest).head?, ¬ (c == ')') := by
    intro blanks hblanks rest c hc
    rw [List.head?_append_of_ne_nil _ hblanks.1] at hc
    simpa using TailState.ne_paren_of_isBlank (hblanks.2 c (List.mem_of_mem_head? hc))
  refine run?_append hclosing.1 (fun c hc => beq_iff_eq.mpr (hclosing.2 c hc)) ?_
  cases hgrouping : t.grouping with
  | none =>
    have hsource : GroupingClause.sourceOf none ++ (t.offset.source ++ t.rest) =
        t.offset.before ++
          ("offset".toList ++ (t.offset.between ++ (t.offset.duration ++ t.rest))) := by
      simp only [GroupingClause.sourceOf, OffsetClause.source, Option.map_none, Option.getD_none,
        List.nil_append, List.append_assoc]
    rw [hsource]
    exact hblank ht.offset.before _
  | some g =>
    have hsource : GroupingClause.sourceOf (some g) ++ (t.offset.source ++ t.rest) =
        g.before ++ (g.word ++ (g.between ++ '(' :: (g.labels ++ ')' ::
          (t.offset.source ++ t.rest)))) := by
      simp [GroupingClause.sourceOf, GroupingClause.source]
    rw [hsource]
    exact hblank (ht.grouping g hgrouping).before _

end Offset

open Offset (Found IsRange found_of_formed found_append_iff)

/-- An offset clause is no grouping clause. -/
theorem GroupingClause.read?_offset {o : OffsetClause} (h : o.Formed) (rest : Text) :
    read? (o.source ++ rest) = none := by
  have hbefore : run? isBlank
      (o.before ++ ("offset".toList ++ (o.between ++ (o.duration ++ rest)))) =
        some (o.before, "offset".toList ++ (o.between ++ (o.duration ++ rest))) :=
    run?_append h.before.1 h.before.2 (by rintro _ ⟨⟩; decide)
  have hword : word? ("offset".toList ++ (o.between ++ (o.duration ++ rest))) = none := rfl
  have hsource : o.source ++ rest =
      o.before ++ ("offset".toList ++ (o.between ++ (o.duration ++ rest))) := by
    simp only [OffsetClause.source, List.append_assoc]
  simp only [read?, hsource, hbefore, hword, bind, Option.bind_some, Option.bind_none]

/-! ### The second pass -/

namespace ClosedOffset

variable {lead text range : Text}

/-- Either the second pass finds nothing, or it moves the first offset that it finds. -/
theorem exists_first (t : Text) : (∀ s, s <:+ t → read? s = none) ∨
    ∃ (before rest : Text) (c : ClosedOffset), t = before ++ (c.source ++ rest) ∧
      read? (c.source ++ rest) = some c ∧
      editAll edit? t = before ++ (c.repaired ++ editAll edit? rest) := by
  rcases exists_first_read rfl isAnchored_edit? t with hnone | hsome
  · exact .inl hnone
  · obtain ⟨before, rest, c, htext, hread, -, -, hall⟩ := hsome
    exact .inr ⟨before, rest, c, htext, hread, hall⟩

/-- Behind a lead, the second pass finds a range and the parts behind it. -/
theorem readFrom?_append {t : Tail} (hrange : IsRange range) (ht : t.Formed .closed)
    (lead : Text) : readFrom? lead (range ++ t.text) =
      some ⟨lead, range, t.closing, t.grouping, t.offset⟩ := by
  have hclosing := Offset.run?_closing ht ht.closing
  have hoffset := OffsetClause.read?_source ht.offset ht.rest
  simp only [readFrom?, Offset.range?_append hrange, Tail.text, ht.blanks_eq_nil rfl,
    List.nil_append, hclosing, bind, Option.bind_some]
  cases hgrouping : t.grouping with
  | none =>
    simp only [GroupingClause.sourceOf, Option.map_none, Option.getD_none, List.nil_append,
      GroupingClause.read?_offset ht.offset, hoffset, Option.bind_some, pure]
  | some g =>
    simp only [GroupingClause.sourceOf, Option.map_some, Option.getD_some,
      GroupingClause.read?_source (ht.grouping g hgrouping), hoffset, Option.bind_some, pure]

theorem lead_of_readFrom? {c : ClosedOffset} (h : readFrom? lead text = some c) :
    c.lead = lead := by
  obtain ⟨⟨range, afterRange⟩, -, h⟩ := Option.bind_eq_some_iff.mp h
  obtain ⟨⟨closing, afterClosing⟩, -, h⟩ := Option.bind_eq_some_iff.mp h
  simp only at h
  split at h
  · obtain ⟨⟨offset, afterOffset⟩, -, h⟩ := Option.bind_eq_some_iff.mp h
    cases h
    rfl
  · obtain ⟨⟨offset, afterOffset⟩, -, h⟩ := Option.bind_eq_some_iff.mp h
    cases h
    rfl

theorem found_of_readFrom? {c : ClosedOffset} (h : readFrom? lead text = some c) :
    Found .closed [] text := by
  obtain ⟨hformed, rest, hsource, hrest⟩ := formed_of_readFrom? h
  rw [source, lead_of_readFrom? h, List.append_assoc, List.append_assoc, List.append_assoc,
    List.append_assoc, List.append_cancel_left_eq] at hsource
  rw [hsource]
  let t : Tail := ⟨[], c.closing, c.grouping, c.offset, rest⟩
  have ht : t.Formed .closed :=
    Tail.formed_closed hformed.closing hformed.grouping hformed.offset hrest
  have hfound := found_of_formed hformed.range ht []
  simpa [Tail.text, t, groupingSource, GroupingClause.sourceOf] using hfound

/-- The second pass finds something where a range stands with what it looks for. -/
theorem isSome_read?_of_found (h : Found .closed [] text) : (read? text).isSome := by
  obtain ⟨range, t, hrange, ht, htext⟩ := h.exists_formed
  have hmem : ([], text) ∈ leads text := by
    have hbraces : ([], text) ∈ withBraces [] text := by
      unfold withBraces
      split
      · exact List.mem_cons_of_mem _ (List.mem_singleton.mpr rfl)
      · exact List.mem_singleton.mpr rfl
    unfold leads
    split
    · exact List.mem_append_right _ hbraces
    · exact hbraces
  have hread : (readFrom? [] text).isSome := by
    rw [htext, List.nil_append, readFrom?_append hrange ht]
    rfl
  rw [read?, List.findSome?_isSome_iff]
  exact ⟨_, hmem, hread⟩

/-- What the second pass finds has a range in it with what it looks for. -/
theorem exists_found_of_read? {c : ClosedOffset} (h : read? text = some c) :
    ∃ s, s <:+ text ∧ Found .closed [] s := by
  obtain ⟨⟨lead, s⟩, hmem, h⟩ := List.exists_of_findSome?_eq_some h
  exact ⟨s, ⟨lead, append_of_mem_leads hmem⟩, found_of_readFrom? h⟩

end ClosedOffset

/-! ### The first pass -/

namespace GroupedOffset

variable {front text range : Text}

/-- Either the first pass finds nothing, or it rewrites the first aggregation that it finds. -/
theorem exists_first (t : Text) : (∀ s, s <:+ t → read? s = none) ∨
    ∃ (before rest : Text) (g : GroupedOffset), t = before ++ (g.source ++ rest) ∧
      read? (g.source ++ rest) = some g ∧
      (∀ s, s <:+ before → s ≠ [] → read? (s ++ (g.source ++ rest)) = none) ∧
      (⟨g.source, g.repaired⟩, rest) ∈ edits edit? t ∧
      editAll edit? t = before ++ (g.repaired ++ editAll edit? rest) :=
  exists_first_read rfl isAnchored_edit? t

/-- The front of a range in a call in an aggregation of a given name, up to the bracket. -/
def IsFront (op front : Text) : Prop :=
  ∃ name selector : Text, name ≠ [] ∧ (∀ c ∈ name, isInner c) ∧ selector ≠ [] ∧
    (∀ c ∈ selector, isInner c) ∧ front = op ++ '(' :: (name ++ '(' :: selector)

/-- Behind the selector, the first pass finds a range and the parts behind it. -/
theorem isSome_readFrom?_append {t : Tail} (hrange : IsRange range) (ht : t.Formed .grouped)
    (op argument : Text) : (readFrom? op argument (range ++ t.text)).isSome := by
  obtain ⟨closing, hc, -⟩ := ht.closing.exists_cons
  obtain ⟨d, others, rfl⟩ : ∃ d others, closing = d :: others := by
    have hlength := ht.two_le_length rfl
    rw [hc] at hlength
    exact List.exists_cons_of_length_pos (Nat.lt_of_succ_lt_succ hlength)
  obtain ⟨g, hg⟩ := Option.isSome_iff_exists.mp (ht.isSome_grouping rfl)
  have hclosing := Offset.run?_closing ht ht.closing
  have hstop : ∀ rest : Text, (t.blanks ++ (')' :: d :: others ++ rest)).dropWhile isBlank =
      ')' :: d :: others ++ rest := by
    intro rest
    rw [List.dropWhile_append_of_pos ht.blanks, List.cons_append,
      List.dropWhile_cons_of_neg (by decide)]
  rw [hc, hg] at hclosing
  have hgrouping := GroupingClause.read?_source (ht.grouping g hg) (t.offset.source ++ t.rest)
  have hoffset := OffsetClause.read?_source ht.offset ht.rest
  simp only [readFrom?, Offset.range?_append hrange, Tail.text, hc, hg, hstop, bind,
    Option.bind_some, hclosing]
  simp only [GroupingClause.sourceOf, Option.map_some, Option.getD_some, hgrouping, hoffset,
    Option.bind_some, List.isEmpty_cons, Bool.false_eq_true, if_false, pure, Option.isSome_some]

theorem argument_of_readFrom? {op argument : Text} {g : GroupedOffset}
    (h : readFrom? op argument text = some g) :
    ∃ range, IsRange range ∧ g.argument = argument ++ range := by
  obtain ⟨⟨range, afterRange⟩, hrange, h⟩ := Option.bind_eq_some_iff.mp h
  obtain ⟨⟨run, afterClosing⟩, -, h⟩ := Option.bind_eq_some_iff.mp h
  refine ⟨range, (Offset.isRange_of_range? hrange).1, ?_⟩
  simp only at h
  split at h
  · split at h
    · cases h
    · obtain ⟨⟨grouping, afterGrouping⟩, -, h⟩ := Option.bind_eq_some_iff.mp h
      obtain ⟨⟨offset, afterOffset⟩, -, h⟩ := Option.bind_eq_some_iff.mp h
      cases h
      rfl
  · cases h

theorem ne_nil_of_mem_cuts {before behind : Text} (h : (before, behind) ∈ cuts text) :
    before ≠ [] := by
  cases text with
  | nil => cases h
  | cons c cs =>
    rw [cuts, List.mem_append] at h
    rcases h with h | h
    · obtain ⟨⟨before, behind⟩, -, heq⟩ := List.mem_map.mp h
      cases heq
      exact List.cons_ne_nil c before
    · split at h
      · cases List.mem_singleton.mp h
        exact List.cons_ne_nil c []
      · cases h

/-- A text can be cut in front of each bracket but the first character. -/
theorem mem_cuts {before : Text} (hne : before ≠ []) (behind : Text) :
    (before, '[' :: behind) ∈ cuts (before ++ '[' :: behind) := by
  induction before with
  | nil => exact absurd rfl hne
  | cons c cs ih =>
    rw [List.cons_append, cuts, List.mem_append]
    cases cs with
    | nil => exact .inr (List.mem_singleton.mpr rfl)
    | cons d ds => exact .inl (List.mem_map.mpr ⟨_, ih (List.cons_ne_nil d ds), rfl⟩)

/-- The argument of an aggregation is a call of a function on a selector, up to its range. -/
theorem exists_argument_of_read? {g : GroupedOffset} (h : read? text = some g) :
    ∃ name selector range : Text, name ≠ [] ∧ (∀ c ∈ name, isInner c) ∧ selector ≠ [] ∧
      (∀ c ∈ selector, isInner c) ∧ IsRange range ∧
        g.argument = name ++ '(' :: (selector ++ range) := by
  obtain ⟨⟨op, afterOp⟩, -, h⟩ := Option.bind_eq_some_iff.mp h
  obtain ⟨⟨name, afterName⟩, hname, h⟩ := Option.bind_eq_some_iff.mp h
  obtain ⟨behind, -, h⟩ := Option.bind_eq_some_iff.mp h
  obtain ⟨⟨selector, rest⟩, hmem, h⟩ := List.exists_of_findSome?_eq_some h
  obtain ⟨hne, hall, -⟩ := forall_of_run? hname
  obtain ⟨range, hrange, hargument⟩ := argument_of_readFrom? h
  refine ⟨name, selector, range, hne, hall, ne_nil_of_mem_cuts hmem, fun c hc => ?_, hrange, ?_⟩
  · have hcut := append_of_mem_cuts hmem
    have hc : c ∈ behind.takeWhile isInner := by
      rw [← hcut]
      exact List.mem_append_left _ hc
    exact List.mem_takeWhile_imp hc
  · rw [hargument]
    simp

/-- What the first pass finds is an aggregation in front of a range with what it looks for. -/
theorem exists_found_of_read? {g : GroupedOffset} (h : read? text = some g) :
    ∃ front, IsFront g.op front ∧ Found .grouped front text := by
  obtain ⟨hformed, rest, htext, hrest⟩ := formed_of_read? h
  obtain ⟨name, selector, range, hname, hinName, hselector, hinSelector, hrange, hargument⟩ :=
    exists_argument_of_read? h
  let t : Tail := ⟨g.blanks, g.closing ++ [')'], some g.grouping, g.offset, rest⟩
  have hlength : 2 ≤ (g.closing ++ [')']).length := by
    have hpos := List.length_pos_iff.mpr hformed.closing.1
    rw [List.length_append, List.length_singleton]
    omega
  have ht : t.Formed .grouped := Tail.formed_grouped hformed.blanks hformed.closing.append_paren
    hlength (by simpa using hformed.grouping) rfl hformed.offset hrest
  have hfound := found_of_formed hrange ht (g.op ++ '(' :: (name ++ '(' :: selector))
  refine ⟨_, ⟨name, selector, hname, hinName, hselector, hinSelector, rfl⟩, ?_⟩
  rw [htext]
  simpa [t, source, hargument, Tail.text, GroupingClause.sourceOf] using hfound

/-- The first pass finds something where such a front stands with a range behind it. -/
theorem isSome_read?_of_found {op : Text} (hop : isName isWordStart isWordChar op)
    (hfront : IsFront op front) (h : Found .grouped front text) : (read? text).isSome := by
  obtain ⟨name, selector, hname, hinName, hselector, hinSelector, rfl⟩ := hfront
  obtain ⟨range, t, hrange, ht, rfl⟩ := h.exists_formed
  obtain ⟨inner, -, -, rfl⟩ := id hrange
  have htext : op ++ '(' :: (name ++ '(' :: selector) ++ ('[' :: inner ++ [']'] ++ t.text) =
      op ++ '(' :: (name ++ '(' :: (selector ++ ('[' :: inner ++ [']'] ++ t.text))) := by
    simp
  let behind := inner ++ ']' :: t.text
  have hbehind : '[' :: inner ++ [']'] ++ t.text = '[' :: behind := by simp [behind]
  have hopening := Offset.opening?_append hop
    (name ++ '(' :: (selector ++ ('[' :: inner ++ [']'] ++ t.text)))
  have hrun : run? isInner (name ++ '(' :: (selector ++ ('[' :: inner ++ [']'] ++ t.text))) =
      some (name, '(' :: (selector ++ ('[' :: inner ++ [']'] ++ t.text))) :=
    run?_append hname hinName (by rintro _ ⟨⟩; decide)
  have hopen : after? "(" ('(' :: (selector ++ ('[' :: inner ++ [']'] ++ t.text))) =
      some (selector ++ ('[' :: inner ++ [']'] ++ t.text)) := after?_append "(" _
  have htake : (selector ++ ('[' :: inner ++ [']'] ++ t.text)).takeWhile isInner =
      selector ++ '[' :: behind.takeWhile isInner := by
    rw [hbehind, List.takeWhile_append_of_pos hinSelector]
    rfl
  have hdrop : (selector ++ ('[' :: inner ++ [']'] ++ t.text)).dropWhile isInner =
      behind.dropWhile isInner := by
    rw [hbehind, List.dropWhile_append_of_pos hinSelector]
    rfl
  have hread : (readFrom? op (name ++ '(' :: selector)
      ('[' :: behind.takeWhile isInner ++ behind.dropWhile isInner)).isSome := by
    rw [List.cons_append, List.takeWhile_append_dropWhile, ← hbehind]
    exact isSome_readFrom?_append hrange ht op _
  rw [htext]
  simp only [read?, hopening, hrun, hopen, htake, hdrop, bind, Option.bind_some]
  rw [List.findSome?_isSome_iff]
  exact ⟨_, mem_cuts hselector _, hread⟩

end GroupedOffset

end PromQL

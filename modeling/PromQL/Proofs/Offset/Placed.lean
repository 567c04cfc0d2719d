import Mathlib
import PromQL.Proofs.Offset.Finding

/-!
# What is found in front of an edit

An edit writes an offset right behind a range and parentheses behind the offset. A pass that looks
for something in front of the edit may only get over that part while it reads labels: all other
states end at the blank or at the word of the offset. So what is found in front of an edit was there
before, but for one case: the name of an aggregation that an edit parts from its parenthesis may be
the word that a trailing offset starts with.
-/

namespace PromQL

/-! ### What has been read -/

namespace TailState

open Reader (run?_nil run?_cons run?_append run?_append_of_some)

variable {p : Pass} {s s' : TailState} {x t : Text}

/-- What is known of a text that ends where the reader is in a state: a word behind a blank, as far
as it has been spelled, or a blank. -/
def ReadBy (x : Text) : TailState → Prop
  | .gap _ | .spaced _ => ∃ y b, isBlank b ∧ x = y ++ [b]
  | .spelling left word => (∀ c ∈ left, isWordStart c) ∧
      (word = .offset → ∃ y b, isBlank b ∧ x ++ left = y ++ b :: "offset".toList)
  | _ => True

theorem readBy_step {c : Char} (h : ReadBy x s) (hstep : tailReader p s c = some s') :
    ReadBy (x ++ [c]) s' := by
  have hletters : ∀ {left : Text}, left.all isWordStart → ∀ d ∈ left, isWordStart d :=
    fun hall => List.all_eq_true.mp hall
  cases s with
  | bracket =>
    simp only [tailReader] at hstep
    split_ifs at hstep <;> cases hstep <;> trivial
  | single =>
    simp only [tailReader, Option.ite_none_right_eq_some, Option.some.injEq] at hstep
    obtain ⟨-, rfl⟩ := hstep
    trivial
  | closed =>
    simp only [tailReader] at hstep
    split_ifs at hstep with hparen hblank
    · cases hstep
      trivial
    · cases hstep
      exact ⟨x, c, hblank, rfl⟩
  | gap labelled =>
    obtain ⟨y, b, hb, rfl⟩ := h
    simp only [tailReader, Pass.word?] at hstep
    split_ifs at hstep with hblank ho hallowed hlabelled hby hwithout
    · cases hstep
      exact ⟨y ++ [b], c, hblank, rfl⟩
    · cases hstep
      refine ⟨hletters (by decide), fun _ => ⟨y, b, hb, ?_⟩⟩
      rw [ho, List.append_assoc, List.append_assoc]
      rfl
    · cases hstep
      exact ⟨hletters (by decide), fun hword => ClauseWord.noConfusion hword⟩
    · cases hstep
      exact ⟨hletters (by decide), fun hword => ClauseWord.noConfusion hword⟩
  | spelling left word =>
    cases left with
    | nil =>
      simp only [tailReader, Option.ite_none_right_eq_some, Option.some.injEq] at hstep
      obtain ⟨hblank, rfl⟩ := hstep
      exact ⟨x, c, hblank, rfl⟩
    | cons d ds =>
      simp only [tailReader, Option.ite_none_right_eq_some, Option.some.injEq] at hstep
      obtain ⟨rfl, rfl⟩ := hstep
      refine ⟨(List.forall_mem_cons.mp h.1).2, fun hword => ?_⟩
      obtain ⟨y, b, hb, hspelled⟩ := h.2 hword
      exact ⟨y, b, hb, by rw [← hspelled]; simp⟩
  | spaced word =>
    cases word with
    | grouping =>
      simp only [tailReader] at hstep
      split_ifs at hstep with hblank hparen
      · cases hstep
        exact ⟨x, c, hblank, rfl⟩
      · cases hstep
        trivial
    | offset =>
      simp only [tailReader] at hstep
      split_ifs at hstep with hblank hduration
      · cases hstep
        exact ⟨x, c, hblank, rfl⟩
      · cases hstep
        trivial
  | opened =>
    simp only [tailReader, Option.ite_none_left_eq_some, Option.some.injEq] at hstep
    obtain ⟨-, rfl⟩ := hstep
    trivial
  | labels =>
    simp only [tailReader, Option.some.injEq] at hstep
    subst hstep
    split_ifs <;> trivial
  | labelled =>
    simp only [tailReader, Option.ite_none_right_eq_some, Option.some.injEq] at hstep
    obtain ⟨hblank, rfl⟩ := hstep
    exact ⟨x, c, hblank, rfl⟩
  | found =>
    cases hstep
    trivial

theorem readBy_run (h : ReadBy x s) (hrun : (tailReader p).run? s t = some s') :
    ReadBy (x ++ t) s' := by
  induction t generalizing x s with
  | nil =>
    rw [run?_nil, Option.some.injEq] at hrun
    rw [← hrun, List.append_nil]
    exact h
  | cons c cs ih =>
    obtain ⟨next, hnext, hrest⟩ := Option.bind_eq_some_iff.mp hrun
    have hread := ih (readBy_step h hnext) hrest
    rwa [List.append_assoc] at hread

theorem readBy_of_run? (h : (tailReader p).run? .bracket t = some s) : ReadBy t s :=
  readBy_run (x := []) (s := .bracket) trivial h

/-- A reader goes over a bracket only in labels, or when it has come to its end. -/
theorem eq_of_bracket (h : ReadBy x s) (hstep : tailReader p s ']' = some s') :
    s' = .labels ∨ s' = .found := by
  cases s with
  | bracket => cases p <;> cases hstep
  | single => cases hstep
  | closed => cases hstep
  | gap labelled => cases labelled <;> cases hstep
  | spelling left word =>
    cases left with
    | nil => cases hstep
    | cons d ds =>
      simp only [tailReader, Option.ite_none_right_eq_some, Option.some.injEq] at hstep
      obtain ⟨rfl, -⟩ := hstep
      exact absurd (h.1 ']' List.mem_cons_self) (by decide)
  | spaced word => cases word <;> cases hstep
  | opened =>
    cases hstep
    exact .inl rfl
  | labels =>
    cases hstep
    exact .inl rfl
  | labelled => cases hstep
  | found =>
    cases hstep
    exact .inr rfl

/-- Without a parenthesis, a reader does not get away from the bracket. -/
theorem run?_bracket_of_append {b z : Text} (hb : ')' ∉ b)
    (h : (tailReader p).run? .bracket (b ++ z) = some .found) :
    (tailReader p).run? .bracket z = some .found := by
  induction b with
  | nil => exact h
  | cons c cs ih =>
    rw [List.mem_cons, not_or] at hb
    obtain ⟨next, hnext, hrest⟩ := Option.bind_eq_some_iff.mp h
    simp only [tailReader, if_neg (Ne.symm hb.1), Option.ite_none_right_eq_some,
      Option.some.injEq] at hnext
    obtain ⟨-, rfl⟩ := hnext
    exact ih hb.2 hrest

/-- The word of a grouping clause is read behind blanks in its place only. -/
theorem run?_groupingWord_eq_none {g : GroupingClause} (hg : g.Formed) (rest : Text)
    (hs : s = .bracket ∨ s = .gap true ∨ s = .spaced .grouping) :
    (tailReader p).run? s (g.word ++ rest) = none := by
  rcases hs with rfl | rfl | rfl <;> rcases hg.word with hword | hword <;> rw [hword] <;>
    cases p <;> rfl

/-- Where a grouping clause may stand, it is read, but then a parenthesis is not. -/
theorem run?_closed_groupingClause {g : GroupingClause} (hg : g.Formed) (z : Text) :
    (tailReader p).run? .closed (g.source ++ ' ' :: '(' :: z) = none := by
  rw [run?_append_of_some (run?_groupingClause hg)]
  rfl

/-- Labels end at the parenthesis of a grouping clause, and another one is not read behind them. -/
theorem run?_labels_groupingClause {g : GroupingClause} (hg : g.Formed) (z : Text) :
    (tailReader p).run? TailState.labels (g.source ++ ' ' :: '(' :: z) = none := by
  have hparen : ')' ∉ g.before ++ (g.word ++ (g.between ++ '(' :: g.labels)) := by
    simp only [List.mem_append, List.mem_cons, not_or]
    exact ⟨hg.before.not_mem (by decide), hg.rightParen_not_mem_word,
      hg.between.not_mem (by decide), by decide, hg.labels⟩
  have hsplit : g.source ++ ' ' :: '(' :: z =
      (g.before ++ (g.word ++ (g.between ++ '(' :: g.labels))) ++ ')' :: ' ' :: '(' :: z := by
    simp [GroupingClause.source]
  rw [hsplit, run?_append_of_some (run?_labels hparen)]
  rfl

/-- A grouping clause in front of a parenthesis is read to its end only behind the word of an
offset, of which its own word seems to be the duration. -/
theorem eq_of_run?_grouping {g : GroupingClause} {z : Text} (hg : g.Formed)
    (hbefore : g.before = [' ']) (hs : ReadBy x s)
    (h : (tailReader p).run? s (g.source ++ ' ' :: '(' :: z) = some .found) :
    s = .found ∨ s = .spelling [] .offset ∨ s = .spaced .offset := by
  let behind := g.between ++ '(' :: (g.labels ++ ')' :: ' ' :: '(' :: z)
  have hsource : g.source ++ ' ' :: '(' :: z = ' ' :: (g.word ++ behind) := by
    simp [GroupingClause.source, hbefore, behind]
  have hclause := run?_closed_groupingClause (p := p) hg z
  have hlabels := run?_labels_groupingClause (p := p) hg z
  rw [hsource] at h hclause hlabels
  obtain ⟨next, hnext, hread⟩ := Option.bind_eq_some_iff.mp h
  -- none of the states in which a blank is skipped gets over the word behind it
  have hdead : ¬ (next = .bracket ∨ next = .gap true ∨ next = .spaced .grouping) := by
    intro hnext
    cases (run?_groupingWord_eq_none hg behind hnext).symm.trans hread
  cases s with
  | bracket =>
    cases p with
    | grouped =>
      cases hnext
      exact absurd (.inl rfl) hdead
    | closed => cases hnext
  | single => cases hnext
  | closed => cases hclause.symm.trans h
  | gap labelled =>
    cases labelled with
    | false => cases hclause.symm.trans h
    | true =>
      cases hnext
      exact absurd (.inr (.inl rfl)) hdead
  | spelling left word =>
    cases left with
    | nil =>
      cases word with
      | grouping =>
        cases hnext
        exact absurd (.inr (.inr rfl)) hdead
      | offset => exact .inr (.inl rfl)
    | cons d ds =>
      simp only [tailReader, Option.ite_none_right_eq_some, Option.some.injEq] at hnext
      obtain ⟨rfl, -⟩ := hnext
      exact absurd (hs.1 ' ' List.mem_cons_self) (by decide)
  | spaced word =>
    cases word with
    | grouping =>
      cases hnext
      exact absurd (.inr (.inr rfl)) hdead
    | offset => exact .inr (.inr rfl)
  | opened => cases hlabels.symm.trans h
  | labels => cases hlabels.symm.trans h
  | labelled =>
    cases hnext
    exact absurd (.inr (.inl rfl)) hdead
  | found => exact .inl rfl

end TailState

/-! ### Offsets behind their range -/

namespace Offset

variable {p : Pass} {front x t : Text}

/-- An offset that is written behind a range is not found there again. -/
theorem run?_text (p : Pass) (o : OffsetClause) (z : Text) :
    (tailReader p).run? .bracket (o.text ++ z) = none := by
  have htext : o.text ++ z = ' ' :: 'o' :: ("ffset ".toList ++ (o.duration ++ z)) := by
    have hword : " offset ".toList = ' ' :: 'o' :: "ffset ".toList := rfl
    unfold OffsetClause.text
    rw [hword]
    simp only [List.append_assoc, List.cons_append]
  rw [htext]
  cases p <;> rfl

theorem not_mem_text {o : OffsetClause} (ho : o.Formed) {c : Char} (hword : c ∉ " offset ".toList)
    (hc : ¬ OffsetClause.isDurationChar c) : c ∉ o.text := by
  unfold OffsetClause.text
  rw [List.mem_append, not_or]
  exact ⟨hword, fun hmem => hc (ho.duration c hmem)⟩

/-- What is found in a text with an offset behind a range is found in front of that. -/
theorem Found.exists_between {before z : Text} {o : OffsetClause}
    (h : Found p front (before ++ ']' :: (o.text ++ ')' :: z))) (hfront : ')' ∉ front)
    (ho : o.Formed) : ∃ inner between : Text, inner ≠ [] ∧ ']' ∉ inner ∧
      before = front ++ '[' :: (inner ++ ']' :: between) ∧
        (tailReader p).run? .bracket (between ++ ']' :: (o.text ++ ')' :: z)) = some .found := by
  rcases h.cases_bracket with ⟨-, -, -, -, hread⟩ | ⟨rest, rfl, hrest⟩ | hbetween
  · cases (run?_text p o _).symm.trans hread
  · obtain ⟨inner, tail, -, -, htext, -⟩ := hrest
    have hparen : ')' ∉ rest := fun hmem => hfront (by simp [hmem])
    have hbracket : '[' ∉ o.text := not_mem_text ho (by decide) (by decide)
    exact absurd htext.symm (append_cons_ne_append_cons (by decide) hbracket hparen)
  · exact hbetween

/-- In front of a parenthesis with no bracket before it, nothing is found. -/
theorem not_found_of_suffix_paren {w written out : Text} (hw : '[' ∉ w) (hne : written ≠ [])
    (hwritten : written <:+ w ++ [')']) (hfront : ')' ∉ front) :
    ¬ Found p front (written ++ out) := by
  rintro ⟨inner, tail, -, -, htext, -⟩
  obtain ⟨k, hk⟩ := hwritten
  obtain ⟨w', d, rfl⟩ := (List.eq_nil_or_concat' written).resolve_left hne
  rw [← List.append_assoc, List.append_singleton_inj] at hk
  obtain ⟨rfl, rfl⟩ := hk
  have hbracket : '[' ∉ w' := fun hmem => hw (List.mem_append_right k hmem)
  rw [List.append_assoc, List.singleton_append] at htext
  exact append_cons_ne_append_cons (by decide) hbracket hfront htext.symm

end Offset

open Offset (Found IsRange)

/-! ### The second pass -/

namespace ClosedOffset

variable {p : Pass} {front x t : Text}

/-- Labels that go over an offset in its place have gone over it where it was: they end at the only
parenthesis behind the range. -/
theorem run?_source_of_labels {c : ClosedOffset} (hc : c.Formed) {z : Text} (rest : Text)
    (h : (tailReader p).run? TailState.labels
      (c.offset.text ++ (c.closing ++ (c.groupingSource ++ z))) = some .found) :
    (tailReader p).run? TailState.labels
      (c.closing ++ (c.groupingSource ++ (c.offset.source ++ rest))) = some .found := by
  have hparen : ')' ∉ c.offset.text := Offset.not_mem_text hc.offset (by decide) (by decide)
  obtain ⟨closing, hclosing, hothers⟩ := hc.closing.exists_cons
  have hlabelled : ∀ y : Text, (tailReader p).run? TailState.labels (')' :: y) =
      (tailReader p).run? .labelled y := fun _ => rfl
  rw [Reader.run?_append_of_some (TailState.run?_labels hparen), hclosing, List.cons_append,
    hlabelled] at h
  rw [hclosing, List.cons_append, hlabelled]
  obtain rfl : closing = [] := by
    cases closing with
    | nil => rfl
    | cons e es =>
      obtain ⟨rfl, -⟩ := List.forall_mem_cons.mp hothers
      cases h
  cases hgrouping : c.grouping with
  | none =>
    have hsource : c.groupingSource = [] := by rw [groupingSource, hgrouping]; rfl
    rw [hsource]
    have hoffset := TailState.run?_offsetClause (p := p) (s := .labelled) hc.offset (.inl rfl)
    exact (Reader.run?_append_of_some hoffset rest).trans (TailState.run?_found p rest)
  | some g =>
    have hg := hc.grouping g hgrouping
    have hbefore : (tailReader p).run? .labelled g.before = some (.gap true) :=
      TailState.run?_blanks (fun _ => TailState.tailReader_labelled_blank)
        (fun _ => TailState.tailReader_gap_blank) hg.before
    have hsource : c.groupingSource ++ z = g.before ++ (g.word ++ (g.between ++
        '(' :: (g.labels ++ ')' :: z))) := by
      simp [groupingSource, hgrouping, GroupingClause.source]
    rw [List.nil_append, hsource, Reader.run?_append_of_some hbefore] at h
    rcases hg.word with hword | hword <;> rw [hword] at h <;> cases h

/-- What is found in front of an edit of the second pass was there before. -/
theorem found_of_editAll (hfront : ')' ∉ front) (h : Found p front (x ++ editAll edit? t)) :
    Found p front (x ++ t) := by
  rcases exists_first t with hnone | ⟨before, rest, c, rfl, hread, hall⟩
  · exact (editAll_of_read?_eq_none hnone : editAll edit? t = t) ▸ h
  · obtain ⟨hc, -⟩ := formed_of_read? hread
    obtain ⟨range, hne, hrange, hinner⟩ := hc.range
    obtain ⟨closing, hclosing, -⟩ := hc.closing.exists_cons
    let z := c.groupingSource ++ editAll edit? rest
    let moved := x ++ before ++ c.lead ++ '[' :: range
    have hout : x ++ editAll edit? (before ++ (c.source ++ rest)) =
        moved ++ ']' :: (c.offset.text ++ (c.closing ++ z)) := by
      rw [hall]
      simp [repaired, hinner, moved, z]
    have htext : x ++ (before ++ (c.source ++ rest)) = moved ++
        ']' :: (c.closing ++ (c.groupingSource ++ (c.offset.source ++ rest))) := by
      simp [source, hinner, moved]
    have hout' : c.closing ++ z = ')' :: (closing ++ z) := by rw [hclosing, List.cons_append]
    rw [hout, hout'] at h
    obtain ⟨inner, between, hne', hinner', hmoved, hread'⟩ := h.exists_between hfront hc.offset
    refine ⟨inner, between ++ ']' :: (c.closing ++ (c.groupingSource ++ (c.offset.source ++ rest))),
      hne', hinner', ?_, ?_⟩
    · rw [htext, hmoved]
      simp
    · rw [← hout'] at hread'
      obtain ⟨s, hs, hread'⟩ := Reader.exists_of_run?_append hread'
      obtain ⟨next, hnext, hread'⟩ := Option.bind_eq_some_iff.mp hread'
      rw [Reader.run?_append_of_some hs, Reader.run?_cons, hnext, Option.bind_some]
      rcases TailState.eq_of_bracket (TailState.readBy_of_run? hs) hnext with rfl | rfl
      · exact run?_source_of_labels hc rest hread'
      · exact TailState.run?_found p _

/-- What stands behind the range of an edit ends in a parenthesis. -/
theorem exists_concat_paren {c : ClosedOffset} (hc : c.Formed) :
    ∃ w, c.closing ++ c.groupingSource = w ++ [')'] := by
  cases hgrouping : c.grouping with
  | none =>
    obtain ⟨w, d, hw⟩ := (List.eq_nil_or_concat' c.closing).resolve_left hc.closing.1
    obtain rfl : d = ')' := hc.closing.2 d (by simp [hw])
    exact ⟨w, by simp [groupingSource, hgrouping, hw]⟩
  | some g =>
    refine ⟨c.closing ++ (g.before ++ (g.word ++ (g.between ++ '(' :: g.labels))), ?_⟩
    simp [groupingSource, hgrouping, GroupingClause.source]

/-- Nothing is found in what an edit of the second pass has written, if it has gone over no brackets
but those of its range. -/
theorem not_found_of_suffix_repaired {c : ClosedOffset} {written out : Text} (hc : c.Formed)
    (hlead : ']' ∉ c.lead) (hgrouping : '[' ∉ c.groupingSource) (hne : written ≠ [])
    (hwritten : written <:+ c.repaired) (hfront : ')' ∉ front) :
    ¬ Found p front (written ++ out) := by
  intro hfound
  obtain ⟨range, -, hrange, hinner⟩ := hc.range
  obtain ⟨y, hy⟩ := hwritten
  have hrepaired : c.repaired = (c.lead ++ '[' :: range) ++
      ']' :: (c.offset.text ++ (c.closing ++ c.groupingSource)) := by
    simp [repaired, hinner]
  rw [hrepaired] at hy
  rcases exists_of_append_eq_append_cons hy with ⟨k, -, hk⟩ | ⟨a, hcut, rfl⟩
  · obtain ⟨w, hw⟩ := exists_concat_paren hc
    have hbracket : '[' ∉ c.offset.text ++ w := by
      have hmem : '[' ∉ w ++ [')'] := by
        rw [← hw, List.mem_append, not_or]
        exact ⟨hc.closing.not_mem (by decide), hgrouping⟩
      rw [List.mem_append, not_or]
      exact ⟨Offset.not_mem_text hc.offset (by decide) (by decide),
        fun hmem' => hmem (List.mem_append_left _ hmem')⟩
    have hsuffix : written <:+ (c.offset.text ++ w) ++ [')'] :=
      ⟨k, by rw [← hk, hw, List.append_assoc]⟩
    exact Offset.not_found_of_suffix_paren hbracket hne hsuffix hfront hfound
  · obtain ⟨closing, hclosing, -⟩ := hc.closing.exists_cons
    rw [hclosing, List.append_assoc, List.cons_append, List.append_assoc, List.cons_append,
      List.cons_append] at hfound
    obtain ⟨inner, between, -, -, ha, -⟩ := hfound.exists_between hfront hc.offset
    have hmem : ']' ∈ c.lead ++ '[' :: range := by
      rw [hcut, ha]
      simp
    simp [hlead, hrange] at hmem

end ClosedOffset

/-! ### The first pass -/

namespace GroupedOffset

variable {g : GroupedOffset} {front x t lead inner : Text}

/-- The grouping clause as it is written in front. -/
def clause (g : GroupedOffset) : GroupingClause :=
  ⟨[' '], g.grouping.word, [' '], g.grouping.labels⟩

theorem Formed.clause (h : g.Formed) : g.clause.Formed := by
  have hblank : IsBlanks [' '] := ⟨List.cons_ne_nil _ _, List.forall_mem_singleton.mpr rfl⟩
  exact ⟨hblank, h.grouping.word, hblank, h.grouping.labels_ne_nil, h.grouping.labels⟩

/-- The aggregation with its grouping in front, up to the bracket that closes its range, if its
argument is a lead and a range. -/
def head (g : GroupedOffset) (lead inner : Text) : Text :=
  g.op ++ (g.clause.source ++ ' ' :: '(' :: (lead ++ '[' :: inner))

theorem repaired_eq (h : g.argument = lead ++ '[' :: inner ++ [']']) :
    g.repaired = g.head lead inner ++ ']' :: (g.offset.text ++ (g.closing ++ [')'])) := by
  simp [repaired, head, clause, GroupingClause.source, h]

/-- From no bracket inside of the head does the first pass come to the end of what it looks for. -/
theorem run?_of_head {y k : Text} (hg : g.Formed) (hlead : ')' ∉ lead) (hinner : ']' ∉ inner)
    (h : g.head lead inner = y ++ ']' :: k) (z : Text) :
    (tailReader .grouped).run? .bracket (k ++ z) ≠ some .found := by
  intro hread
  let labelled := g.op ++ ' ' :: (g.grouping.word ++ ' ' :: '(' :: g.grouping.labels)
  have hlabelled : ')' ∉ labelled := by
    simp only [labelled, List.mem_append, List.mem_cons, not_or]
    exact ⟨Offset.not_mem_name hg.op (by decide), by decide, hg.grouping.rightParen_not_mem_word,
      by decide, by decide, hg.grouping.labels⟩
  have hhead : labelled ++ ([')', ' ', '('] ++ (lead ++ '[' :: inner)) = y ++ ']' :: k := by
    rw [← h]
    simp [labelled, head, clause, GroupingClause.source]
  -- the bracket stands in the labels, in the lead, or in the range, which has none
  rcases exists_of_append_eq_append_cons hhead with ⟨k', hk', rfl⟩ | ⟨y', -, hy'⟩
  · have hparen : ')' ∉ k' := fun hmem => hlabelled (by simp [hk', hmem])
    rw [List.append_assoc] at hread
    cases TailState.run?_bracket_of_append hparen hread
  · rcases exists_of_append_eq_append_cons hy' with ⟨k', hk', -⟩ | ⟨y', -, hy'⟩
    · have hmem : ']' ∈ [')', ' ', '('] := by simp [hk']
      exact absurd hmem (by decide)
    · rcases exists_of_append_eq_append_cons hy' with ⟨k', rfl, rfl⟩ | ⟨y', -, hy'⟩
      · have hparen : ')' ∉ k' := fun hmem => hlead (by simp [hmem])
        rw [List.append_assoc] at hread
        cases TailState.run?_bracket_of_append hparen hread
      · have hmem : ']' ∈ '[' :: inner := by simp [hy']
        exact absurd hmem (by simpa using hinner)

/-- What the first pass finds in a text with an edit of its own, it finds in front of that. -/
theorem exists_between {a z : Text} (hg : g.Formed) (hlead : ')' ∉ lead) (hinner : ']' ∉ inner)
    (ha : a <:+ g.head lead inner) (hfront : ')' ∉ front)
    (h : Found .grouped front (x ++ (a ++ ']' :: (g.offset.text ++ ')' :: z)))) :
    ∃ range between : Text, range ≠ [] ∧ ']' ∉ range ∧
      x = front ++ '[' :: (range ++ ']' :: between) ∧
        (tailReader .grouped).run? .bracket
          (between ++ (a ++ ']' :: (g.offset.text ++ ')' :: z))) = some .found := by
  rw [← List.append_assoc] at h
  obtain ⟨range, between, hne, hrange, hcut, hread⟩ := h.exists_between hfront hg.offset
  have hcut : x ++ a = (front ++ '[' :: range) ++ ']' :: between := by
    rw [hcut]
    simp
  rcases exists_of_append_eq_append_cons hcut with ⟨k, rfl, rfl⟩ | ⟨y, -, rfl⟩
  · exact ⟨range, k, hne, hrange, by simp, by rwa [List.append_assoc] at hread⟩
  · obtain ⟨y', hy'⟩ := ha
    have hhead : g.head lead inner = (y' ++ y) ++ ']' :: between := by
      rw [← hy']
      simp
    exact absurd hread (run?_of_head hg hlead hinner hhead _)

/-- A blank in front of or in a name is in front of it. -/
theorem exists_of_append_name {between name y w : Text} {b : Char}
    (hname : isName isWordStart isWordChar name) (hb : isBlank b)
    (h : between ++ name = y ++ b :: w) : ∃ k, between = y ++ b :: k ∧ w = k ++ name := by
  rcases exists_of_append_eq_append_cons h with hcut | ⟨y', -, rfl⟩
  · exact hcut
  · exact absurd (by simp) (Offset.not_mem_name hname (IsSeparator.of_isBlank hb).1)

/-- Over the head of an aggregation the first pass comes to its end only if it has come there behind
the name, or if it takes the name for the end of the word that an offset starts with. -/
theorem run?_op {between z : Text} (hg : g.Formed)
    (h : (tailReader .grouped).run? .bracket (between ++ (g.head lead inner ++ z)) = some .found) :
    (tailReader .grouped).run? .bracket (between ++ g.op) = some .found ∨
      ∃ k, k <:+ between ∧ "offset".toList = k ++ g.op := by
  have hsplit : between ++ (g.head lead inner ++ z) =
      (between ++ g.op) ++ (g.clause.source ++ ' ' :: '(' :: (lead ++ '[' :: (inner ++ z))) := by
    simp [head]
  rw [hsplit] at h
  obtain ⟨s, hs, h⟩ := Reader.exists_of_run?_append h
  have hread := TailState.readBy_of_run? hs
  rcases TailState.eq_of_run?_grouping hg.clause rfl hread h with rfl | rfl | rfl
  · exact .inl hs
  · obtain ⟨y, b, hb, hspelled⟩ := hread.2 rfl
    rw [List.append_nil] at hspelled
    obtain ⟨k, rfl, hk⟩ := exists_of_append_name hg.op hb hspelled
    exact .inr ⟨k, ⟨y ++ [b], by simp⟩, hk⟩
  · obtain ⟨y, b, hb, hblank⟩ := hread
    obtain ⟨k, -, hk⟩ := exists_of_append_name hg.op hb hblank
    obtain ⟨-, hop⟩ := List.append_eq_nil_iff.mp hk.symm
    have hname := hg.op
    rw [hop] at hname
    cases hname

theorem IsFront.rightParen_not_mem {op : Text} (hop : isName isWordStart isWordChar op)
    (h : IsFront op front) : ')' ∉ front := by
  obtain ⟨name, selector, -, hname, -, hselector, rfl⟩ := h
  simp only [List.mem_append, List.mem_cons, not_or]
  exact ⟨Offset.not_mem_name hop (by decide), by decide,
    fun hmem => absurd (hname ')' hmem) (by decide), by decide,
    fun hmem => absurd (hselector ')' hmem) (by decide)⟩

/-- An aggregation is found as well with more characters in front of its name. -/
theorem isSome_read?_append {k : Text} (h : read? t = some g)
    (hk : isName isWordStart isWordChar (k ++ g.op)) : (read? (k ++ t)).isSome := by
  obtain ⟨front, ⟨name, selector, hname, hinName, hselector, hinSelector, rfl⟩, hfound⟩ :=
    exists_found_of_read? h
  refine isSome_read?_of_found hk ?_ ((Offset.found_append_iff k).mpr hfound)
  exact ⟨name, selector, hname, hinName, hselector, hinSelector, by simp⟩

/-- The argument of an aggregation is a range and what is in front of it. -/
theorem exists_lead_of_read? (h : read? t = some g) :
    ∃ lead inner : Text, ')' ∉ lead ∧ ']' ∉ inner ∧
      g.argument = lead ++ '[' :: inner ++ [']'] := by
  obtain ⟨name, selector, range, -, hname, -, hselector, ⟨inner, -, hinner, rfl⟩, hargument⟩ :=
    exists_argument_of_read? h
  refine ⟨name ++ '(' :: selector, inner, ?_, hinner, by simp [hargument]⟩
  simp only [List.mem_append, List.mem_cons, not_or]
  exact ⟨fun hmem => absurd (hname ')' hmem) (by decide), by decide,
    fun hmem => absurd (hselector ')' hmem) (by decide)⟩

/-- The first pass finds nothing in what it writes. -/
theorem read?_of_suffix_repaired {rest written : Text} (h : read? (g.source ++ rest) = some g)
    (hne : written ≠ []) (hwritten : written <:+ g.repaired) (out : Text) :
    read? (written ++ out) = none := by
  obtain ⟨hg, -⟩ := formed_of_read? h
  obtain ⟨lead, inner, hlead, hinner, hargument⟩ := exists_lead_of_read? h
  rw [Option.eq_none_iff_forall_ne_some]
  intro g' hread
  obtain ⟨front, hfront, hfound⟩ := exists_found_of_read? hread
  have hparen := hfront.rightParen_not_mem (formed_of_read? hread).1.op
  obtain ⟨y, hy⟩ := hwritten
  rw [repaired_eq hargument] at hy
  rcases exists_of_append_eq_append_cons hy with ⟨k, -, hk⟩ | ⟨a, hhead, rfl⟩
  · -- it starts behind the range, and a parenthesis comes before another range
    have hbracket : '[' ∉ g.offset.text ++ g.closing := by
      rw [List.mem_append, not_or]
      exact ⟨Offset.not_mem_text hg.offset (by decide) (by decide), hg.closing.not_mem (by decide)⟩
    have hsuffix : written <:+ (g.offset.text ++ g.closing) ++ [')'] :=
      ⟨k, by rw [← hk, List.append_assoc]⟩
    exact Offset.not_found_of_suffix_paren hbracket hne hsuffix hparen hfound
  · obtain ⟨closing, hclosing, -⟩ := hg.closing.exists_cons
    have htext : (a ++ ']' :: (g.offset.text ++ (g.closing ++ [')']))) ++ out =
        [] ++ (a ++ ']' :: (g.offset.text ++ ')' :: (closing ++ ')' :: out))) := by
      simp [hclosing]
    rw [htext] at hfound
    obtain ⟨range, between, -, -, hnil, -⟩ :=
      exists_between hg hlead hinner ⟨y, hhead.symm⟩ hparen hfound
    simp at hnil

/-- Where the name of an aggregation is the end of the word that an offset starts with, it is the
whole word, or the aggregation is found in front of it. -/
theorem offset_prefix_source {rest k : Text} (hread : read? (g.source ++ rest) = some g)
    (hoffset : "offset".toList = k ++ g.op) (hk : k <:+ x)
    (hx : ∀ s, s <:+ x → s ≠ [] → read? (s ++ (g.source ++ rest)) = none) :
    "offset(".toList <+: g.source := by
  cases k with
  | nil =>
    have hword : "offset(".toList = "offset".toList ++ ['('] := rfl
    refine ⟨g.argument ++ (g.blanks ++ (g.closing ++ ')' :: (g.grouping.source ++
      g.offset.source))), ?_⟩
    rw [hword, hoffset]
    simp [source]
  | cons d ds =>
    have hsome := isSome_read?_append (k := d :: ds) hread (by rw [← hoffset]; decide)
    rw [hx _ hk (List.cons_ne_nil d ds)] at hsome
    cases hsome

/-- What the first pass finds in front of its own edits was there before, if no aggregation that it
edits is named like an offset, and none starts where the text in front is added. -/
theorem found_of_editAll (hx : ∀ s, s <:+ x → s ≠ [] → read? (s ++ t) = none)
    (hname : ∀ e ∈ edits edit? t, ¬ "offset(".toList <+: e.1.source) (hfront : ')' ∉ front)
    (h : Found .grouped front (x ++ editAll edit? t)) : Found .grouped front (x ++ t) := by
  rcases exists_first t with hnone | ⟨before, rest, g, rfl, hread, hbefore, hmem, hall⟩
  · exact (editAll_of_read?_eq_none hnone : editAll edit? t = t) ▸ h
  · obtain ⟨hg, -⟩ := formed_of_read? hread
    obtain ⟨lead, inner, hlead, hinner, hargument⟩ := exists_lead_of_read? hread
    obtain ⟨closing, hclosing, -⟩ := hg.closing.exists_cons
    let z := closing ++ ')' :: editAll edit? rest
    have hout : x ++ editAll edit? (before ++ (g.source ++ rest)) =
        (x ++ before) ++ (g.head lead inner ++ ']' :: (g.offset.text ++ ')' :: z)) := by
      rw [hall, repaired_eq hargument, hclosing]
      simp [z]
    rw [hout] at h
    obtain ⟨range, between, hne', hrange, hcut, hrun⟩ :=
      exists_between hg hlead hinner List.suffix_rfl hfront h
    let behind := '(' :: (g.argument ++ (g.blanks ++ (g.closing ++ ')' :: (g.grouping.source ++
      (g.offset.source ++ rest)))))
    have htext : x ++ (before ++ (g.source ++ rest)) =
        front ++ '[' :: (range ++ ']' :: (between ++ (g.op ++ behind))) := by
      have hsource : x ++ (before ++ (g.source ++ rest)) = (x ++ before) ++ (g.op ++ behind) := by
        simp [source, behind]
      rw [hsource, hcut]
      simp
    rcases run?_op hg hrun with hop | ⟨k, hk, hoffset⟩
    · refine ⟨range, between ++ (g.op ++ behind), hne', hrange, htext, ?_⟩
      rw [← List.append_assoc, Reader.run?_append_of_some hop, TailState.run?_found]
    · have hnone : ∀ s, s <:+ x ++ before → s ≠ [] → read? (s ++ (g.source ++ rest)) = none := by
        intro s hs hs_ne
        rcases suffix_append_cases hs with hs | ⟨s', hs'_ne, hs', rfl⟩
        · exact hbefore s hs hs_ne
        · rw [List.append_assoc]
          exact hx s' hs' hs'_ne
      have hsuffix : k <:+ x ++ before := by
        rw [hcut]
        exact hk.trans ⟨front ++ '[' :: (range ++ [']']), by simp⟩
      exact absurd (offset_prefix_source hread hoffset hsuffix hnone) (hname _ hmem)

end GroupedOffset

end PromQL

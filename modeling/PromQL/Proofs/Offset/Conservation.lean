import Mathlib
import PromQL.Proofs.Offset.Shape

/-!
# Repairing loses nothing

A repair moves a clause and writes blanks of its own, but every other character of the text stays,
as often as it was there. For an aggregation the offset goes behind the last range of its argument:
the argument always ends in a range, blanks and parentheses, so there is one.
-/

namespace PromQL

/-! ### Characters that are no blanks -/

/-- The characters of a text that are no blanks. -/
def visible (text : Text) : Text := text.filter fun c => !isBlank c

@[simp] theorem visible_nil : visible [] = [] := rfl

@[simp] theorem visible_append (a b : Text) : visible (a ++ b) = visible a ++ visible b :=
  List.filter_append a b

theorem visible_cons (c : Char) (text : Text) : visible (c :: text) = visible [c] ++ visible text :=
  visible_append [c] text

@[simp] theorem visible_open (text : Text) : visible ('(' :: text) = '(' :: visible text :=
  visible_cons '(' text

@[simp] theorem visible_close (text : Text) : visible (')' :: text) = ')' :: visible text :=
  visible_cons ')' text

@[simp] theorem visible_space (text : Text) : visible (' ' :: text) = visible text :=
  visible_cons ' ' text

theorem visible_of_blanks {text : Text} (h : ∀ c ∈ text, isBlank c) : visible text = [] := by
  rw [visible, List.filter_eq_nil_iff]
  intro c hc
  simpa using h c hc

/-- A rule that finds what stands at the start of the text, and writes the same visible characters
in some order, keeps those of the whole text. -/
theorem visible_editAll_perm {rule : Text → Option Edit}
    (hrule : ∀ text edit, rule text = some edit →
      edit.source <+: text ∧ edit.source ≠ [] ∧
        (visible edit.replacement).Perm (visible edit.source)) (text : Text) :
    (visible (editAll rule text)).Perm (visible text) := by
  have hanchored : IsAnchored rule := fun t edit hr => ⟨(hrule t edit hr).1, (hrule t edit hr).2.1⟩
  induction text using editAll_induction hanchored with
  | nil => exact .refl _
  | skip c cs hr ih =>
    rw [editAll_cons_of_none hr, visible_cons, visible_cons c cs]
    exact ih.append_left _
  | edited edit rest hne hr ih =>
    rw [editAll_append_of_some hne hr, visible_append, visible_append]
    exact (hrule _ edit hr).2.2.append ih

/-! ### What is moved -/

theorem GroupingClause.Formed.visible_source {c : GroupingClause} (h : c.Formed) :
    visible c.source = visible c.word ++ '(' :: (visible c.labels ++ [')']) := by
  simp [source, visible_of_blanks h.before.2, visible_of_blanks h.between.2]

theorem OffsetClause.Formed.visible_source {c : OffsetClause} (h : c.Formed) :
    visible c.source = visible "offset".toList ++ visible c.duration := by
  simp only [source, visible_append, visible_of_blanks h.before.2, visible_of_blanks h.between.2,
    List.append_nil, List.nil_append]

/-- The clause is written with the characters that it has been found with, up to blanks. -/
theorem OffsetClause.Formed.visible_text {c : OffsetClause} (h : c.Formed) :
    visible c.text = visible c.source := by
  have hword : visible " offset ".toList = visible "offset".toList := by decide +kernel
  calc visible c.text = visible " offset ".toList ++ visible c.duration := visible_append _ _
    _ = visible "offset".toList ++ visible c.duration := by rw [hword]
    _ = visible c.source := h.visible_source.symm

/-- Moving a grouping clause to the front and an offset behind the range keeps the visible
characters of an aggregation. -/
theorem GroupedOffset.Formed.visible_repaired_perm {g : GroupedOffset} (h : g.Formed) :
    (visible g.repaired).Perm (visible g.source) := by
  have hrepaired : visible g.repaired =
      visible g.op ++ (visible g.grouping.source ++ '(' :: (visible g.argument ++
        (visible g.offset.source ++ (visible g.closing ++ [')'])))) := by
    simp [repaired, h.offset.visible_text, h.grouping.visible_source]
  have hsource : visible g.source =
      visible g.op ++ '(' :: (visible g.argument ++ (visible g.closing ++
        ')' :: (visible g.grouping.source ++ visible g.offset.source))) := by
    simp [source, visible_of_blanks h.blanks]
  rw [hrepaired, hsource, List.perm_iff_count]
  intro c
  simp only [List.count_append, List.count_cons, List.count_nil]
  omega

/-- Moving an offset behind the range keeps the visible characters of a closed range. -/
theorem ClosedOffset.Formed.visible_repaired_perm {c : ClosedOffset} (h : c.Formed) :
    (visible c.repaired).Perm (visible c.source) := by
  simp only [repaired, source, visible_append, h.offset.visible_text, List.append_assoc]
  rw [List.perm_iff_count]
  intro d
  simp only [List.count_append]
  omega

/-! ### The last range -/

namespace Offset

/-- Reads a range that ends the text, up to blanks and parentheses behind it. -/
def lastRange? (text : Text) : Option (Text × Text) := do
  let (range, rest) ← range? text
  let closing := rest.dropWhile isBlank
  if closing.all (· == ')') then some (range, closing) else none

/-- Writes an offset clause behind the last range of a text, if the text ends in one. -/
def insertBehindRange? (offset : OffsetClause) : Text → Option Text
  | [] => none
  | c :: cs =>
    match lastRange? (c :: cs) with
    | some (range, closing) => some (range ++ offset.text ++ closing)
    | none => (insertBehindRange? offset cs).map (c :: ·)

/-- A text ends in one range only: a bracket that closes another one is not the last. -/
theorem eq_of_lastRange? {lead behind range closing : Text}
    (h : lastRange? (lead ++ ']' :: behind) = some (range, closing)) :
    range = lead ++ [']'] ∧ closing = behind.dropWhile isBlank := by
  obtain ⟨⟨found, rest⟩, hrange, h⟩ := Option.bind_eq_some_iff.mp h
  obtain ⟨⟨inside, -, hinside, rfl⟩, htext⟩ := isRange_of_range? hrange
  simp only [Option.ite_none_right_eq_some, Option.some.injEq, Prod.mk.injEq] at h
  obtain ⟨hclosing, rfl, rfl⟩ := h
  have hrest : ']' ∉ rest := by
    intro hmem
    rw [← List.takeWhile_append_dropWhile (p := isBlank) (l := rest), List.mem_append] at hmem
    rcases hmem with hmem | hmem
    · exact absurd (List.mem_takeWhile_imp hmem) (by decide)
    · exact absurd (List.all_eq_true.mp hclosing _ hmem) (by decide)
  rw [List.append_assoc, List.singleton_append, eq_comm,
    List.append_cons_inj_of_notMem (by simpa using hinside) hrest] at htext
  rw [← htext.1, ← htext.2.2]
  exact ⟨rfl, rfl⟩

theorem dropWhile_isBlank_closing {blanks closing : Text} (hblanks : ∀ c ∈ blanks, isBlank c)
    (hclosing : IsClosing closing) : (blanks ++ closing).dropWhile isBlank = closing := by
  obtain ⟨c, cs, rfl⟩ := List.exists_cons_of_ne_nil hclosing.1
  rw [List.dropWhile_append_of_pos hblanks, hclosing.2 c List.mem_cons_self]
  rfl

theorem lastRange?_eq {range blanks closing : Text} (hrange : IsRange range)
    (hblanks : ∀ c ∈ blanks, isBlank c) (hclosing : IsClosing closing) :
    lastRange? (range ++ (blanks ++ closing)) = some (range, closing) := by
  have hall : closing.all (· == ')') := by simpa using hclosing.2
  simp only [lastRange?, range?_append hrange, bind, Option.bind_some,
    dropWhile_isBlank_closing hblanks hclosing, hall, if_true]

/-- The offset goes behind the range at the end of the text, whatever is in front of it. -/
theorem insertBehindRange?_eq (offset : OffsetClause) {range blanks closing : Text}
    (hrange : IsRange range) (hblanks : ∀ c ∈ blanks, isBlank c) (hclosing : IsClosing closing)
    (lead : Text) :
    insertBehindRange? offset (lead ++ (range ++ (blanks ++ closing))) =
      some (lead ++ (range ++ (offset.text ++ closing))) := by
  induction lead with
  | nil =>
    have hlast := lastRange?_eq hrange hblanks hclosing
    obtain ⟨inner, -, -, rfl⟩ := hrange
    simp only [List.nil_append, List.cons_append] at hlast ⊢
    rw [insertBehindRange?, hlast]
    simp
  | cons c lead ih =>
    simp only [List.cons_append]
    rw [insertBehindRange?]
    split
    · next found closing' hfound =>
      obtain ⟨inner, -, -, rfl⟩ := hrange
      have hsplit : c :: (lead ++ ('[' :: inner ++ [']'] ++ (blanks ++ closing))) =
          (c :: lead ++ '[' :: inner) ++ ']' :: (blanks ++ closing) := by simp
      rw [hsplit] at hfound
      obtain ⟨rfl, rfl⟩ := eq_of_lastRange? hfound
      rw [dropWhile_isBlank_closing hblanks hclosing]
      simp
    · rw [ih]
      rfl

/-- Moving offsets keeps all characters but blanks, as often as they are there. In an aggregation
with a misplaced offset the offset finds the range that it is written behind. -/
theorem visible_repair_perm (query : Text) :
    (visible (repair query)).Perm (visible query) ∧
      ∀ text g, GroupedOffset.read? text = some g →
        ∃ inner, insertBehindRange? g.offset (g.argument ++ (g.blanks ++ g.closing)) = some inner ∧
          g.repaired = g.op ++ ' ' :: g.grouping.word ++ " (".toList ++ g.grouping.labels ++
            ") (".toList ++ inner ++ [')'] := by
  refine ⟨?_, fun text g hread => ?_⟩
  · refine (visible_editAll_perm ?_ _).trans (visible_editAll_perm ?_ query)
    · intro text edit h
      obtain ⟨c, hread, rfl⟩ := Option.map_eq_some_iff.mp h
      have hformed := (ClosedOffset.formed_of_read? hread).1
      exact ⟨ClosedOffset.prefix_of_read? hread, hformed.source_ne_nil,
        hformed.visible_repaired_perm⟩
    · intro text edit h
      obtain ⟨g, hread, rfl⟩ := Option.map_eq_some_iff.mp h
      have hformed := (GroupedOffset.formed_of_read? hread).1
      exact ⟨GroupedOffset.prefix_of_read? hread, g.source_ne_nil,
        hformed.visible_repaired_perm⟩
  · have hformed := (GroupedOffset.formed_of_read? hread).1
    obtain ⟨lead, range, hrange, hargument⟩ := hformed.argument
    refine ⟨g.argument ++ (g.offset.text ++ g.closing), ?_, ?_⟩
    · rw [hargument, List.append_assoc, insertBehindRange?_eq g.offset hrange hformed.blanks
        hformed.closing, List.append_assoc]
    · simp [GroupedOffset.repaired]

/-- An aggregation of a rate, with a blank behind the range and the offset behind everything. -/
def sumOfRates : Text := "sum(rate(m[5m] )) by (x) offset 1d".toList

/-- The parts of it that a repair moves. -/
def partsOfSum : GroupedOffset where
  op := "sum".toList
  argument := "rate(m[5m]".toList
  blanks := [' ']
  closing := [')']
  grouping := ⟨[' '], "by".toList, [' '], ['x']⟩
  offset := ⟨[' '], [' '], "1d".toList⟩

theorem visible_repair_sumOfRates :
    (visible (repair sumOfRates)).Perm (visible sumOfRates) ∧
      GroupedOffset.read? sumOfRates = some partsOfSum ∧
      ∃ inner, insertBehindRange? partsOfSum.offset
          (partsOfSum.argument ++ (partsOfSum.blanks ++ partsOfSum.closing)) = some inner ∧
        partsOfSum.repaired = "sum by (x) (".toList ++ inner ++ [')'] := by
  have hread : GroupedOffset.read? sumOfRates = some partsOfSum := by decide +kernel
  obtain ⟨inner, hinner, hrepaired⟩ := (visible_repair_perm sumOfRates).2 _ _ hread
  exact ⟨(visible_repair_perm sumOfRates).1, hread, inner, hinner, hrepaired⟩

end Offset

end PromQL

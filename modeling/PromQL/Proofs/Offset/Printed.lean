import Mathlib
import PromQL.Options
import PromQL.Proofs.Expr.Assembly
import PromQL.Proofs.Offset.Trailing
import PromQL.Proofs.Text.Reader

/-!
# Expressions as they are written have no offset to repair

A reader goes through a text with a look at its closing brackets. It stops where a clause starts
behind a bracket and parentheses, as a misplaced offset does. In the text of an expression there are
only parentheses, commas, other brackets and operators behind them, and the one operator that starts
like a clause is told from it by its second letter.
-/

namespace PromQL

/-! ### Reading behind brackets -/

/-- What has been read last. -/
inductive RangeState where
  /-- Neither of the others. -/
  | apart
  /-- A closing bracket, and blanks behind it. -/
  | bracket
  /-- A closing bracket, and parentheses and blanks behind it. -/
  | closed
  /-- The letter `o` behind these. -/
  | letter
  deriving DecidableEq, Repr

/-- Stops at a character that starts a clause behind a closed range. -/
def rangeReader : Reader RangeState := fun state c =>
  if c = ']' then some .bracket
  else match state with
    | .apart => some .apart
    | .bracket => some (if isBlank c then .bracket else if c = ')' then .closed else .apart)
    | .closed =>
      if isBlank c || c == ')' then some .closed
      else if c = 'b' || c = 'w' then none
      else some (if c = 'o' then .letter else .apart)
    | .letter => if c = 'f' then none else some .apart

namespace RangeState

open Reader (run?_cons run?_append_of_some run?_of_forall)

variable {state : RangeState} {a : Text}

/-! ### Clauses stop the reader -/

theorem ne_bracket_of_isBlank {c : Char} (h : isBlank c) : c ≠ ']' := by
  rintro rfl
  exact absurd h (by decide)

theorem rangeReader_blank {c : Char} (h : isBlank c) (hstate : state ≠ letter) :
    rangeReader state c = some state := by
  cases state with
  | apart | bracket | closed => simp [rangeReader, ne_bracket_of_isBlank h, h]
  | letter => exact absurd rfl hstate

theorem run?_closing (h : Offset.IsClosing a) : rangeReader.run? bracket a = some closed := by
  obtain ⟨c, cs, rfl⟩ := List.exists_cons_of_ne_nil h.1
  obtain ⟨rfl, hcs⟩ := List.forall_mem_cons.mp h.2
  have hrest : rangeReader.run? closed cs = some closed := by
    refine run?_of_forall fun d hd => ?_
    rw [hcs d hd]
    rfl
  rw [run?_cons]
  exact hrest

/-- Behind parentheses the reader stops at the word of a clause. -/
theorem run?_clause {blanks word : Text} (hblanks : ∀ c ∈ blanks, isBlank c)
    (hword : word = "by".toList ∨ word = "without".toList ∨ word = "offset".toList) (rest : Text) :
    rangeReader.run? closed (blanks ++ (word ++ rest)) = none := by
  have hclosed : rangeReader.run? closed blanks = some closed :=
    run?_of_forall fun c hc => rangeReader_blank (hblanks c hc) nofun
  rw [run?_append_of_some hclosed]
  rcases hword with rfl | rfl | rfl <;> rfl

theorem run?_trailing {s : Text} (h : Offset.Trailing s) (state : RangeState) :
    rangeReader.run? state s = none := by
  cases h with
  | @intro closing offset blanks rest grouping hblanks hclosing hgrouping hoffset =>
    have hstart : rangeReader state ']' = some bracket := by cases state <;> rfl
    have hbracket : rangeReader.run? bracket blanks = some bracket :=
      run?_of_forall fun c hc => rangeReader_blank (hblanks c hc) nofun
    rw [run?_cons, hstart, Option.bind_some, run?_append_of_some hbracket,
      run?_append_of_some (run?_closing hclosing)]
    cases grouping with
    | none =>
      have hclause := run?_clause hoffset.before.2 (.inr (.inr rfl))
        (offset.between ++ (offset.duration ++ rest))
      simpa [OffsetClause.source] using hclause
    | some g =>
      have hformed := hgrouping g rfl
      have hclause := run?_clause hformed.before.2 (hformed.word.imp_right .inl)
        (g.between ++ ('(' :: (g.labels ++ ')' :: (offset.source ++ rest))))
      simpa [GroupingClause.source] using hclause

end RangeState

/-- A text that is read to its end has no offset behind a closed range. -/
theorem Offset.not_trailing_of_run? {text s : Text} {state : RangeState}
    (h : rangeReader.run? .apart text = some state) (hs : s <:+ text) : ¬ Trailing s := by
  intro htrailing
  obtain ⟨front, rfl⟩ := hs
  rw [Reader.run?_append] at h
  obtain ⟨_, -, h⟩ := Option.bind_eq_some_iff.mp h
  rw [RangeState.run?_trailing htrailing] at h
  cases h

/-- The second pass leaves a text that is read to its end as it is. -/
theorem Offset.editAll_closed_of_run? {text : Text} {state : RangeState}
    (h : rangeReader.run? .apart text = some state) :
    editAll ClosedOffset.edit? text = text := by
  refine editAll_of_none fun a b hab _ => ?_
  rw [ClosedOffset.edit?, Option.map_eq_none_iff, Option.eq_none_iff_forall_ne_some]
  intro c hread
  obtain ⟨s, hs, htrailing⟩ := ClosedOffset.trailing_of_read? hread
  exact not_trailing_of_run? h (hs.trans ⟨a, hab.symm⟩) htrailing

/-- A text that is read to its end is not repaired. -/
theorem Offset.repair_of_run? {text : Text} {state : RangeState}
    (h : rangeReader.run? .apart text = some state) : repair text = text :=
  repair_of_not_trailing fun _ hs => not_trailing_of_run? h hs

/-! ### Texts of expressions are read to their end -/

namespace RangeState

open Reader (run?_cons run?_append_of_some run?_of_forall)

/-- A text that is read to its end, and does not end in the start of a clause. -/
def Reads (text : Text) : Prop := ∃ state, state ≠ letter ∧ rangeReader.run? apart text = some state

theorem run?_of_not_mem (h : ']' ∉ a) : rangeReader.run? apart a = some apart :=
  run?_of_forall fun c hc => by simp [rangeReader, ne_of_mem_of_not_mem hc h]

theorem run?_gap (h : a.all isSpacing) (hstate : state ≠ letter) :
    rangeReader.run? state a = some state := by
  refine run?_of_forall fun c hc => rangeReader_blank ?_ hstate
  have hc := List.all_eq_true.mp h c hc
  simp only [isSpacing, Bool.or_eq_true, beq_iff_eq] at hc
  rcases hc with rfl | rfl <;> rfl

/-- An operator is told from the start of a clause. -/
theorem run?_operator (op : BinaryOp) (hstate : state ≠ letter) :
    rangeReader.run? state op.text = some apart := by
  cases state with
  | letter => exact absurd rfl hstate
  | apart | bracket | closed => cases op <;> rfl

theorem not_mem_of_composed {isOutside : Char → Bool} (houtside : ¬ isOutside ']') {t : Text}
    (h : Composed isOutside (fun v => ']' ∉ v) t) : ']' ∉ t :=
  h.not_mem houtside (fun _ hv => hv) (by decide)

theorem run?_inline {t : Text} (h : Inline (fun v => ']' ∉ v) t) :
    rangeReader.run? apart t = some apart :=
  run?_of_not_mem (not_mem_of_composed (by decide) h)

/-- Modifiers start with a blank and a sign or letter that no clause behind parentheses has. -/
theorem run?_modifiers (m : Modifiers) :
    ∃ state, state ≠ letter ∧ rangeReader.run? bracket m.text = some state := by
  have hmodifiers := run?_inline (Inline.modifiers m)
  obtain ⟨time, offset⟩ := m
  cases time with
  | some t =>
    refine ⟨apart, nofun, ?_⟩
    cases t <;> exact hmodifiers
  | none =>
    cases offset with
    | some o => exact ⟨apart, nofun, hmodifiers⟩
    | none => exact ⟨bracket, nofun, rfl⟩

theorem rangeReader_separator {c : Char} (hc : c = ',' ∨ c = '[') (hstate : state ≠ letter) :
    rangeReader state c = some apart := by
  cases state with
  | letter => exact absurd rfl hstate
  | apart | bracket | closed => rcases hc with rfl | rfl <;> rfl

theorem rangeReader_rightParen (hstate : state ≠ letter) :
    ∃ next, next ≠ letter ∧ rangeReader state ')' = some next := by
  cases state with
  | letter => exact absurd rfl hstate
  | apart => exact ⟨apart, nofun, rfl⟩
  | bracket | closed => exact ⟨closed, nofun, rfl⟩

theorem Reads.intercalate {texts : List Text} (h : ∀ t ∈ texts, Reads t) :
    Reads (", ".toList.intercalate texts) := by
  induction texts with
  | nil => exact ⟨apart, nofun, rfl⟩
  | cons t texts ih =>
    obtain ⟨ht, htexts⟩ := List.forall_mem_cons.mp h
    cases texts with
    | nil => simpa using ht
    | cons u texts =>
      obtain ⟨state, hstate, hrun⟩ := ht
      obtain ⟨last, hlast, hrest⟩ := ih htexts
      refine ⟨last, hlast, ?_⟩
      rw [List.intercalate_cons_cons, List.append_assoc, run?_append_of_some hrun]
      have hcomma : rangeReader state ',' = some apart := rangeReader_separator (.inl rfl) hstate
      exact (congrArg (Option.bind · _) hcomma).trans hrest

/-- Every text that expressions are put together from is read to its end. -/
theorem reads_of_assembled {t : Text} (h : Assembled isSpacing (fun v => ']' ∉ v) t) : Reads t := by
  induction h with
  | inline h => exact ⟨apart, nofun, run?_inline h⟩
  | negated _ ih => exact ih
  | @ranged t range m _ hrange ih =>
    obtain ⟨state, hstate, hrun⟩ := ih
    obtain ⟨last, hlast, hmodifiers⟩ := run?_modifiers m
    refine ⟨last, hlast, ?_⟩
    rw [List.append_assoc, run?_append_of_some hrun, List.cons_append, run?_cons,
      rangeReader_separator (.inr rfl) hstate, Option.bind_some,
      run?_append_of_some (run?_inline hrange)]
    exact hmodifiers
  | @enclosed lead opening closing texts hlead hopening hclosing _ ih =>
    obtain ⟨state, hstate, hrun⟩ := Reads.intercalate ih
    obtain ⟨last, hlast, hparen⟩ := rangeReader_rightParen hstate
    have hparens : rangeReader apart '(' = some apart := rfl
    have hbefore : rangeReader.run? apart opening = some apart := run?_gap hopening nofun
    refine ⟨last, hlast, ?_⟩
    simp only [List.append_assoc, List.cons_append]
    rw [run?_append_of_some (run?_inline hlead), run?_cons, hparens, Option.bind_some,
      run?_append_of_some hbefore, run?_append_of_some hrun,
      run?_append_of_some (run?_gap hclosing hstate), run?_cons, hparen]
    rfl
  | @operated left right gap behind op hgap hbehind _ _ ihleft ihright =>
    obtain ⟨state, hstate, hleft⟩ := ihleft
    obtain ⟨last, hlast, hright⟩ := ihright
    refine ⟨last, hlast, ?_⟩
    have hbetween : rangeReader.run? apart behind = some apart :=
      run?_of_not_mem (not_mem_of_composed (by decide) hbehind)
    simp only [List.append_assoc]
    rw [run?_append_of_some hleft, run?_append_of_some (run?_gap hgap hstate),
      run?_append_of_some (run?_operator op hstate), run?_append_of_some hbetween, hright]

end RangeState

/-- An expression without closing brackets in its strings and names is written, on one line and
over several, in a way that no offset in it is repaired. -/
theorem Expr.repair_line_and_layout (options : Options) (depth : Nat) {e : Expr}
    (h : e.TextsAre fun t => ']' ∉ t) :
    Offset.repair e.line = e.line ∧
      Offset.repair (e.layout options.indent depth) = e.layout options.indent depth := by
  obtain ⟨_, -, hline⟩ := RangeState.reads_of_assembled (assembled_line rfl e h)
  obtain ⟨_, -, hlayout⟩ :=
    RangeState.reads_of_assembled (assembled_layout options.indent depth e h)
  exact ⟨Offset.repair_of_run? hline, Offset.repair_of_run? hlayout⟩

/-- A union of a parenthesised call and a metric, both of which have the word of a clause for their
name, with an offset in a string. -/
def clauseNames : Expr :=
  .binary .or .empty
    (.paren (.call "by".toList [.matrix
      ⟨some "offset".toList, ⟨[⟨"a".toList, .equal, ")) offset 5m".toList⟩], []⟩,
        some .queryStart, none⟩ ⟨300000000000⟩]))
    (.vector ⟨some "without".toList, .empty, .empty⟩)

theorem repair_clauseNames :
    Offset.repair clauseNames.line = clauseNames.line ∧
      Offset.repair (clauseNames.layout 4 1) = clauseNames.layout 4 1 := by
  have hcall : ∀ t ∈ ["offset".toList, "a".toList, ")) offset 5m".toList], ']' ∉ t := by decide
  have hvector : ∀ t ∈ ["without".toList], ']' ∉ t := by decide
  have htexts : clauseNames.TextsAre fun t => ']' ∉ t :=
    ⟨nofun, ⟨by decide, hcall, trivial⟩, hvector⟩
  exact Expr.repair_line_and_layout .default 1 htexts

end PromQL

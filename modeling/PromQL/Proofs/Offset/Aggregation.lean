import Mathlib
import PromQL.Proofs.Offset.Printed
import PromQL.Proofs.Template.Separation

/-!
# Aggregations with an offset behind their labels

The recognisers of the first pass find every clause of the shape that they look for. So in terms
that are joined by signs, each of which is an aggregation of one call with its offset behind the
labels, every offset is moved into its range, and the second pass finds nothing more.
-/

namespace PromQL

/-! ### Clauses are found -/

theorem GroupingClause.read?_source {c : GroupingClause} (h : c.Formed) (rest : Text) :
    read? (c.source ++ rest) = some (c, rest) := by
  let behind := c.labels ++ ')' :: rest
  have hbefore : run? isBlank (c.before ++ (c.word ++ (c.between ++ '(' :: behind))) =
      some (c.before, c.word ++ (c.between ++ '(' :: behind)) := by
    refine run?_append h.before.1 h.before.2 fun d hd => ?_
    rcases h.word with hword | hword <;> rw [hword] at hd <;> cases hd <;> decide
  have hword : word? (c.word ++ (c.between ++ '(' :: behind)) =
      some (c.word, c.between ++ '(' :: behind) := by
    rcases h.word with hword | hword <;> rw [hword] <;> rfl
  have hbetween : run? isBlank (c.between ++ '(' :: behind) = some (c.between, '(' :: behind) :=
    run?_append h.between.1 h.between.2 (by rintro _ ⟨⟩; decide)
  have hopen : after? "(" ('(' :: behind) = some behind := after?_append "(" behind
  have hlabels : run? (· != ')') behind = some (c.labels, ')' :: rest) :=
    run?_append h.labels_ne_nil (fun d hd => by simpa using ne_of_mem_of_not_mem hd h.labels)
      (by simp)
  have hclose : after? ")" (')' :: rest) = some rest := after?_append ")" rest
  have hsource : c.source ++ rest = c.before ++ (c.word ++ (c.between ++ '(' :: behind)) := by
    simp [source, behind]
  simp only [read?, hsource, hbefore, hword, hbetween, hopen, hlabels, hclose, bind,
    Option.bind_some, pure]

namespace OffsetClause

theorem not_isBlank_of_isDurationChar {c : Char} (h : isDurationChar c) : ¬ isBlank c := by
  intro hblank
  obtain ⟨hword, hdollar⟩ := IsSeparator.of_isBlank hblank
  rw [isDurationChar, ← isWordChar, Bool.or_eq_true, beq_iff_eq] at h
  exact h.elim hword hdollar

theorem read?_source {c : OffsetClause} (h : c.Formed) {rest : Text}
    (hrest : ∀ d ∈ rest.head?, ¬ isDurationChar d) : read? (c.source ++ rest) = some (c, rest) := by
  let behind := c.duration ++ rest
  have hbefore : run? isBlank (c.before ++ ("offset".toList ++ (c.between ++ behind))) =
      some (c.before, "offset".toList ++ (c.between ++ behind)) :=
    run?_append h.before.1 h.before.2 (by rintro _ ⟨⟩; decide)
  have hword := after?_append "offset" (c.between ++ behind)
  have hbetween : run? isBlank (c.between ++ behind) = some (c.between, behind) := by
    refine run?_append h.between.1 h.between.2 fun d hd => ?_
    rw [List.head?_append_of_ne_nil _ h.duration_ne_nil] at hd
    exact not_isBlank_of_isDurationChar (h.duration d (List.mem_of_mem_head? hd))
  have hduration : run? (fun c => c.isAlphanum || c == '_' || c == '$') behind =
      some (c.duration, rest) := run?_append h.duration_ne_nil h.duration hrest
  have hsource : c.source ++ rest =
      c.before ++ ("offset".toList ++ (c.between ++ behind)) := by simp [source, behind]
  simp only [read?, hsource, hbefore, hword, hbetween, hduration, bind, Option.bind_some, pure]

end OffsetClause

namespace Offset

theorem exists_cons_of_isName {name : Text} (h : isName isWordStart isWordChar name) :
    ∃ c cs, name = c :: cs ∧ isWordStart c ∧ ∀ d ∈ c :: cs, isWordChar d := by
  cases name with
  | nil => cases h
  | cons c cs =>
    rw [isName_cons, Bool.and_eq_true, List.all_eq_true] at h
    exact ⟨c, cs, rfl, h.1, List.forall_mem_cons.mpr ⟨isWordChar_of_isWordStart h.1, h.2⟩⟩

theorem not_mem_name {name : Text} {c : Char} (h : isName isWordStart isWordChar name)
    (hc : ¬ isWordChar c) : c ∉ name := by
  obtain ⟨d, ds, rfl, -, hall⟩ := exists_cons_of_isName h
  exact fun hmem => hc (hall c hmem)

theorem opening?_append {name : Text} (h : isName isWordStart isWordChar name) (rest : Text) :
    opening? (name ++ '(' :: rest) = some (name, rest) := by
  obtain ⟨c, cs, rfl, hstart, hall⟩ := exists_cons_of_isName h
  have hrun : run? isWordChar (c :: cs ++ '(' :: rest) = some (c :: cs, '(' :: rest) :=
    run?_append (List.cons_ne_nil c cs) hall (by rintro _ ⟨⟩; decide)
  have hhead : ((c :: cs ++ '(' :: rest).head?.map isWordStart).getD false := hstart
  rw [opening?, if_pos hhead, hrun]
  rfl

theorem opening?_cons_of_not {c : Char} (h : ¬ isWordStart c) (cs : Text) :
    opening? (c :: cs) = none := if_neg h

end Offset

namespace GroupedOffset

theorem cuts_of_not_mem {text : Text} (h : '[' ∉ text) : cuts text = [] := by
  induction text with
  | nil => rfl
  | cons c cs ih =>
    have hcs : '[' ∉ cs := fun hmem => h (List.mem_cons_of_mem c hmem)
    have hhead : ¬ (cs.head? == some '[') := fun hhead =>
      hcs (List.mem_of_mem_head? (beq_iff_eq.mp hhead))
    rw [cuts, ih hcs, if_neg hhead]
    rfl

/-- A text with one bracket is cut there. -/
theorem cuts_append {selector behind : Text} (hne : selector ≠ []) (hselector : '[' ∉ selector)
    (hbehind : '[' ∉ behind) : cuts (selector ++ '[' :: behind) = [(selector, '[' :: behind)] := by
  induction selector with
  | nil => exact absurd rfl hne
  | cons c cs ih =>
    have hcs : '[' ∉ cs := fun hmem => hselector (List.mem_cons_of_mem c hmem)
    cases cs with
    | nil =>
      have hhead : ¬ (behind.head? == some '[') := fun hhead =>
        hbehind (List.mem_of_mem_head? (beq_iff_eq.mp hhead))
      have hrest : cuts ('[' :: behind) = [] := by
        rw [cuts, cuts_of_not_mem hbehind, if_neg hhead]
        rfl
      rw [List.singleton_append, cuts, hrest]
      rfl
    | cons d ds =>
      have hhead : ¬ ((d :: ds ++ '[' :: behind).head? == some '[') := by
        have hd : d ≠ '[' := fun hd => hcs (by rw [hd]; exact List.mem_cons_self)
        simpa using hd
      rw [List.cons_append, cuts, ih (List.cons_ne_nil d ds) hcs, if_neg hhead]
      rfl

end GroupedOffset

/-! ### Aggregations -/

namespace Offset

/-- A text that is not empty and has neither parentheses nor brackets. -/
structure IsPlain (text : Text) : Prop where
  ne_nil : text ≠ []
  leftParen : '(' ∉ text
  rightParen : ')' ∉ text
  leftBracket : '[' ∉ text
  rightBracket : ']' ∉ text

theorem isInner_of_isWordChar {c : Char} (h : isWordChar c) : GroupedOffset.isInner c := by
  have hparens : ∀ d, ¬ isWordChar d → c ≠ d := fun d hd hc => hd (hc ▸ h)
  simp [GroupedOffset.isInner, hparens '(' (by decide), hparens ')' (by decide)]

theorem IsPlain.isInner {text : Text} (h : IsPlain text) : ∀ c ∈ text, GroupedOffset.isInner c := by
  intro c hc
  simp [GroupedOffset.isInner, ne_of_mem_of_not_mem hc h.leftParen,
    ne_of_mem_of_not_mem hc h.rightParen]

/-- An aggregation of a call by labels or without them, and the duration of its offset. -/
structure Aggregation where
  op : Text
  function : Text
  selector : Text
  range : Text
  word : Text
  labels : Text
  duration : Text
  op_isName : isName isWordStart isWordChar op
  function_isName : isName isWordStart isWordChar function
  selector_isPlain : IsPlain selector
  range_isPlain : IsPlain range
  word_eq : word = "by".toList ∨ word = "without".toList
  labels_isPlain : IsPlain labels
  duration_ne_nil : duration ≠ []
  duration_isWord : duration.all OffsetClause.isDurationChar

namespace Aggregation

/-- The aggregation with its offset behind the labels, where the grammar does not allow it. -/
def trailing (a : Aggregation) : Text :=
  a.op ++ '(' :: a.function ++ '(' :: a.selector ++ '[' :: a.range ++ "])) ".toList ++ a.word ++
    " (".toList ++ a.labels ++ ") offset ".toList ++ a.duration

/-- The aggregation with its labels in front and its offset behind the range. -/
def placed (a : Aggregation) : Text :=
  a.op ++ ' ' :: a.word ++ " (".toList ++ a.labels ++ ") (".toList ++ a.function ++
    '(' :: a.selector ++ '[' :: a.range ++ "] offset ".toList ++ a.duration ++ "))".toList

/-- The aggregation as the first pass finds it. -/
def grouped (a : Aggregation) : GroupedOffset where
  op := a.op
  argument := a.function ++ '(' :: a.selector ++ ('[' :: a.range ++ [']'])
  blanks := []
  closing := [')']
  grouping := ⟨[' '], a.word, [' '], a.labels⟩
  offset := ⟨[' '], [' '], a.duration⟩

theorem source_grouped (a : Aggregation) : a.grouped.source = a.trailing := by
  have hclosing : "])) ".toList = [']', ')', ')', ' '] := rfl
  have hopen : " (".toList = [' ', '('] := rfl
  have hoffset : ") offset ".toList = ')' :: ' ' :: "offset".toList ++ [' '] := rfl
  rw [trailing, hclosing, hopen, hoffset]
  simp only [grouped, GroupedOffset.source, GroupingClause.source, OffsetClause.source,
    List.append_assoc, List.cons_append, List.nil_append]

theorem repaired_grouped (a : Aggregation) : a.grouped.repaired = a.placed := by
  have hoffset : "] offset ".toList = ']' :: " offset ".toList := rfl
  have hclosing : "))".toList = [')', ')'] := rfl
  unfold grouped placed GroupedOffset.repaired OffsetClause.text
  rw [hoffset, hclosing]
  simp only [List.append_assoc, List.cons_append, List.nil_append]

theorem grouping_formed (a : Aggregation) : a.grouped.grouping.Formed := by
  have hblank : IsBlanks [' '] := ⟨List.cons_ne_nil _ _, List.forall_mem_singleton.mpr rfl⟩
  exact ⟨hblank, a.word_eq, hblank, a.labels_isPlain.ne_nil, a.labels_isPlain.rightParen⟩

theorem offset_formed (a : Aggregation) : a.grouped.offset.Formed := by
  have hblank : IsBlanks [' '] := ⟨List.cons_ne_nil _ _, List.forall_mem_singleton.mpr rfl⟩
  exact ⟨hblank, hblank, a.duration_ne_nil, List.all_eq_true.mp a.duration_isWord⟩

/-- Behind the selector, the first pass finds the range and all that is behind it. -/
theorem readFrom?_trailing (a : Aggregation) {rest : Text}
    (hrest : ∀ c ∈ rest.head?, ¬ OffsetClause.isDurationChar c) :
    GroupedOffset.readFrom? a.op (a.function ++ '(' :: a.selector)
      ('[' :: a.range ++ [']'] ++ ([')', ')'] ++
        (a.grouped.grouping.source ++ (a.grouped.offset.source ++ rest)))) = some a.grouped := by
  let behind := a.grouped.grouping.source ++ (a.grouped.offset.source ++ rest)
  have hrange : range? ('[' :: a.range ++ [']'] ++ ([')', ')'] ++ behind)) =
      some ('[' :: a.range ++ [']'], [')', ')'] ++ behind) :=
    range?_append ⟨a.range, a.range_isPlain.ne_nil, a.range_isPlain.rightBracket, rfl⟩
  have hclosing : run? (· == ')') ([')', ')'] ++ behind) = some ([')', ')'], behind) :=
    run?_append (List.cons_ne_nil _ _) (by simp) (by rintro _ ⟨⟩; decide)
  have hgrouping := GroupingClause.read?_source a.grouping_formed (a.grouped.offset.source ++ rest)
  have hoffset := OffsetClause.read?_source a.offset_formed hrest
  have htake : ([')', ')'] ++ behind).takeWhile isBlank = [] := rfl
  have hdrop : ([')', ')'] ++ behind).dropWhile isBlank = [')', ')'] ++ behind := rfl
  refine Option.bind_eq_some_iff.mpr ⟨_, hrange, ?_⟩
  refine Option.bind_eq_some_iff.mpr ⟨_, hclosing, ?_⟩
  refine Option.bind_eq_some_iff.mpr ⟨_, hgrouping, ?_⟩
  exact Option.bind_eq_some_iff.mpr ⟨_, hoffset, rfl⟩

/-- The first pass finds an aggregation whole. -/
theorem read?_trailing (a : Aggregation) {rest : Text}
    (hrest : ∀ c ∈ rest.head?, ¬ OffsetClause.isDurationChar c) :
    GroupedOffset.read? (a.trailing ++ rest) = some a.grouped := by
  let behind := a.grouped.grouping.source ++ (a.grouped.offset.source ++ rest)
  let argument := a.selector ++ '[' :: (a.range ++ [']'])
  have htext : a.trailing ++ rest =
      a.op ++ '(' :: (a.function ++ '(' :: (argument ++ ([')', ')'] ++ behind))) := by
    rw [← source_grouped]
    simp [GroupedOffset.source, grouped, argument, behind]
  have hop := opening?_append a.op_isName
    (a.function ++ '(' :: (argument ++ ([')', ')'] ++ behind)))
  have hfunction : run? GroupedOffset.isInner
      (a.function ++ '(' :: (argument ++ ([')', ')'] ++ behind))) =
        some (a.function, '(' :: (argument ++ ([')', ')'] ++ behind))) := by
    obtain ⟨c, cs, hname, -, hall⟩ := exists_cons_of_isName a.function_isName
    rw [hname]
    exact run?_append (List.cons_ne_nil c cs) (fun d hd => isInner_of_isWordChar (hall d hd))
      (by rintro _ ⟨⟩; decide)
  have hopen : after? "(" ('(' :: (argument ++ ([')', ')'] ++ behind))) =
      some (argument ++ ([')', ')'] ++ behind)) := after?_append "(" _
  have hargument : ∀ c ∈ argument, GroupedOffset.isInner c := by
    have hrange : ∀ c ∈ a.range ++ [']'], GroupedOffset.isInner c :=
      List.forall_mem_append.mpr ⟨a.range_isPlain.isInner, List.forall_mem_singleton.mpr rfl⟩
    exact List.forall_mem_append.mpr
      ⟨a.selector_isPlain.isInner, List.forall_mem_cons.mpr ⟨rfl, hrange⟩⟩
  have htake : (argument ++ ([')', ')'] ++ behind)).takeWhile GroupedOffset.isInner = argument :=
    (List.takeWhile_append_of_pos hargument).trans (List.append_nil argument)
  have hdrop : (argument ++ ([')', ')'] ++ behind)).dropWhile GroupedOffset.isInner =
      [')', ')'] ++ behind := List.dropWhile_append_of_pos hargument
  have hcuts : GroupedOffset.cuts argument = [(a.selector, '[' :: (a.range ++ [']']))] := by
    refine GroupedOffset.cuts_append a.selector_isPlain.ne_nil a.selector_isPlain.leftBracket ?_
    simp [a.range_isPlain.leftBracket]
  rw [htext]
  refine Option.bind_eq_some_iff.mpr ⟨_, hop, ?_⟩
  refine Option.bind_eq_some_iff.mpr ⟨_, hfunction, ?_⟩
  refine Option.bind_eq_some_iff.mpr ⟨_, hopen, ?_⟩
  rw [htake, hdrop, hcuts, List.findSome?_singleton]
  exact readFrom?_trailing a hrest

theorem trailing_ne_nil (a : Aggregation) : a.trailing ≠ [] := by
  obtain ⟨c, cs, hop, -, -⟩ := exists_cons_of_isName a.op_isName
  rw [trailing, hop]
  simp

/-- The first pass puts the offset of an aggregation in its place. -/
theorem editAll_trailing_append (a : Aggregation) {rest : Text}
    (hrest : ∀ c ∈ rest.head?, ¬ OffsetClause.isDurationChar c) :
    editAll GroupedOffset.edit? (a.trailing ++ rest) =
      a.placed ++ editAll GroupedOffset.edit? rest := by
  let edit : Edit := ⟨a.trailing, a.placed⟩
  have hedit : GroupedOffset.edit? (edit.source ++ rest) = some edit := by
    rw [GroupedOffset.edit?, read?_trailing a hrest, Option.map_some, source_grouped,
      repaired_grouped]
  exact editAll_append_of_some a.trailing_ne_nil hedit

/-- The only closing bracket of an aggregation with its offset in place is in front of the
offset. -/
theorem run?_placed (a : Aggregation) : rangeReader.run? .apart a.placed = some .apart := by
  let front := a.op ++ ' ' :: a.word ++ " (".toList ++ a.labels ++ ") (".toList ++ a.function ++
    '(' :: a.selector ++ '[' :: a.range
  let behind := "ffset ".toList ++ a.duration ++ "))".toList
  have hplaced : a.placed = front ++ (']' :: ' ' :: 'o' :: behind) := by
    have hoffset : "] offset ".toList = ']' :: ' ' :: 'o' :: "ffset ".toList := rfl
    rw [placed, hoffset]
    simp only [front, behind, List.append_assoc, List.cons_append]
  have hword : ']' ∉ a.word := by
    rcases a.word_eq with h | h <;> rw [h] <;> decide
  have hfront : ']' ∉ front := by
    simp only [front, List.mem_append, List.mem_cons, not_or]
    exact ⟨⟨⟨⟨⟨⟨⟨not_mem_name a.op_isName (by decide), by decide, hword⟩, by decide⟩,
      a.labels_isPlain.rightBracket⟩, by decide⟩, not_mem_name a.function_isName (by decide)⟩,
      by decide, a.selector_isPlain.rightBracket⟩, by decide, a.range_isPlain.rightBracket⟩
  have hduration : ']' ∉ a.duration := fun hmem =>
    absurd (a.offset_formed.duration ']' hmem) (by decide)
  have hbehind : ']' ∉ behind := by
    simp only [behind, List.mem_append, not_or]
    exact ⟨⟨by decide, hduration⟩, by decide⟩
  have hbracket : rangeReader.run? .apart (']' :: ' ' :: 'o' :: behind) =
      rangeReader.run? .apart behind := rfl
  rw [hplaced, Reader.run?_append_of_some (RangeState.run?_of_not_mem hfront), hbracket,
    RangeState.run?_of_not_mem hbehind]

end Aggregation

/-! ### Joined aggregations -/

/-- The signs between joined terms. -/
inductive Sign where
  | plus | minus | times | slash

/-- The character of a sign. -/
def Sign.char : Sign → Char
  | plus => '+'
  | minus => '-'
  | times => '*'
  | slash => '/'

/-- A sign with the spaces around it. -/
def Sign.text (sign : Sign) : Text := [' ', sign.char, ' ']

theorem Sign.of_mem_text {sign : Sign} {c : Char} (h : c ∈ sign.text) :
    ¬ isWordStart c ∧ c ≠ ']' := by
  have hspace : ¬ isWordStart ' ' ∧ ' ' ≠ ']' := by decide
  have hchar : ¬ isWordStart sign.char ∧ sign.char ≠ ']' := by cases sign <;> decide
  rcases List.mem_cons.mp h with rfl | h
  · exact hspace
  · rcases List.mem_cons.mp h with rfl | h
    · exact hchar
    · rw [List.mem_singleton.mp h]
      exact hspace

/-- Aggregations with signs between them, each of them written in the same way. -/
def joined (written : Aggregation → Text) (first : Aggregation) :
    List (Sign × Aggregation) → Text
  | [] => written first
  | (sign, next) :: others => written first ++ (sign.text ++ joined written next others)

/-- Behind an aggregation there is nothing or a space, which ends the duration in front. -/
theorem not_isDurationChar_joined (written : Aggregation → Text) (sign : Sign)
    (next : Aggregation) (others : List (Sign × Aggregation)) :
    ∀ c ∈ (sign.text ++ joined written next others).head?, ¬ OffsetClause.isDurationChar c := by
  rintro _ ⟨⟩
  decide

/-- The first pass puts every offset in its place. -/
theorem editAll_grouped_joined (first : Aggregation) (others : List (Sign × Aggregation)) :
    editAll GroupedOffset.edit? (joined Aggregation.trailing first others) =
      joined Aggregation.placed first others := by
  induction others generalizing first with
  | nil =>
    have hnil : ∀ c ∈ ([] : Text).head?, ¬ OffsetClause.isDurationChar c := by
      rintro _ ⟨⟩
    have hfirst := first.editAll_trailing_append hnil
    rwa [List.append_nil, editAll_nil, List.append_nil] at hfirst
  | cons other others ih =>
    obtain ⟨sign, next⟩ := other
    have hrest := not_isDurationChar_joined Aggregation.trailing sign next others
    have hsign : ∀ a b : Text, sign.text = a ++ b → b ≠ [] →
        GroupedOffset.edit? (b ++ joined Aggregation.trailing next others) = none := by
      intro a b hab hb
      obtain ⟨c, cs, rfl⟩ := List.exists_cons_of_ne_nil hb
      have hc : c ∈ sign.text := by rw [hab]; simp
      rw [List.cons_append, GroupedOffset.edit?, GroupedOffset.read?,
        opening?_cons_of_not (Sign.of_mem_text hc).1]
      rfl
    rw [joined, first.editAll_trailing_append hrest, editAll_append_of_none hsign, ih next]
    rfl

/-- No bracket is closed in front of parentheses and an offset after the first pass. -/
theorem run?_joined (first : Aggregation) (others : List (Sign × Aggregation)) :
    rangeReader.run? .apart (joined Aggregation.placed first others) = some .apart := by
  induction others generalizing first with
  | nil => exact first.run?_placed
  | cons other others ih =>
    obtain ⟨sign, next⟩ := other
    have hsign : ']' ∉ sign.text := fun hmem => (Sign.of_mem_text hmem).2 rfl
    rw [joined, Reader.run?_append_of_some first.run?_placed,
      Reader.run?_append_of_some (RangeState.run?_of_not_mem hsign), ih next]

/-- In aggregations that are joined by signs, each offset behind the labels is moved behind the
range, and the labels are moved in front. -/
theorem repair_joined (first : Aggregation) (others : List (Sign × Aggregation)) :
    repair (joined Aggregation.trailing first others) = joined Aggregation.placed first others := by
  rw [repair, editAll_grouped_joined]
  exact editAll_closed_of_run? (run?_joined first others)

/-- A sum with a variable for its offset. -/
def regionSum : Aggregation where
  op := "sum".toList
  function := "rate".toList
  selector := "m\x7bs=\"x\"\x7d".toList
  range := "1m".toList
  word := "by".toList
  labels := "region".toList
  duration := "$shift".toList
  op_isName := by decide
  function_isName := by decide
  selector_isPlain := by constructor <;> decide
  range_isPlain := by constructor <;> decide
  word_eq := .inl rfl
  labels_isPlain := by constructor <;> decide
  duration_ne_nil := by decide
  duration_isWord := by decide

/-- An average that leaves out two labels. -/
def overallAverage : Aggregation where
  op := "avg".toList
  function := "increase".toList
  selector := "n".toList
  range := "$__interval".toList
  word := "without".toList
  labels := "a, b".toList
  duration := "1d".toList
  op_isName := by decide
  function_isName := by decide
  selector_isPlain := by constructor <;> decide
  range_isPlain := by constructor <;> decide
  word_eq := .inr rfl
  labels_isPlain := by constructor <;> decide
  duration_ne_nil := by decide
  duration_isWord := by decide

/-- A quotient in which both terms have an offset behind their labels. -/
theorem repair_joined_quotient :
    joined Aggregation.trailing regionSum [(.slash, overallAverage)] =
        ("sum(rate(m\x7bs=\"x\"\x7d[1m])) by (region) offset $shift / " ++
          "avg(increase(n[$__interval])) without (a, b) offset 1d").toList ∧
      repair (joined Aggregation.trailing regionSum [(.slash, overallAverage)]) =
        ("sum by (region) (rate(m\x7bs=\"x\"\x7d[1m] offset $shift)) / " ++
          "avg without (a, b) (increase(n[$__interval] offset 1d))").toList := by
  refine ⟨by decide +kernel, ?_⟩
  rw [repair_joined]
  decide +kernel

end Offset

end PromQL

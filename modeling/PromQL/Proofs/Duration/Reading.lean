import Mathlib
import PromQL.Duration.Reading
import PromQL.Proofs.Token.Spelling

/-!
# Durations read back

The groups of a written duration go down from the longest unit and make up its milliseconds, so the
text is read as the duration cut to whole milliseconds. The exceptions are a duration below one
millisecond and a count that does not fit thirty-two bits.
-/

namespace PromQL

namespace Duration

/-! ### Groups -/

/-- The whole milliseconds of a duration. -/
def milliseconds (d : Duration) : Nat := d.nanoseconds / 1000000

/-- A duration cut to whole milliseconds. -/
def cut (d : Duration) : Duration := ⟨d.milliseconds * 1000000⟩

/-- The groups of a duration as it is written. -/
def parts (d : Duration) : List (Nat × TimeUnit) :=
  if d.nanoseconds = 0 then [(0, .second)] else groups TimeUnit.all d.milliseconds

theorem text_eq_parts (d : Duration) : d.text = d.parts.flatMap groupText := by
  unfold text parts
  split_ifs <;> rfl

theorem cut_cut (d : Duration) : d.cut.cut = d.cut := by
  simp [cut, milliseconds]

theorem count_mul_le (unit : TimeUnit) (left : Nat) :
    count unit left * unit.milliseconds ≤ left := by
  unfold count
  split_ifs
  · omega
  · exact Nat.div_mul_le_self left unit.milliseconds

/-- The units of the groups are some of the units that are tried, in their order. -/
theorem units_groups_sublist (units : List TimeUnit) (left : Nat) :
    ((groups units left).map Prod.snd).Sublist units := by
  induction units generalizing left with
  | nil => exact .slnil
  | cons unit units ih =>
    rw [groups]
    split_ifs
    · exact (ih _).cons unit
    · exact (ih _).cons_cons unit

/-- The groups make up all milliseconds if milliseconds are the last unit. -/
theorem sum_groups (units : List TimeUnit) (left : Nat) :
    ((groups (units ++ [.millisecond]) left).map fun g => g.1 * g.2.milliseconds).sum = left := by
  induction units generalizing left with
  | nil =>
    have hcount : count .millisecond left = left := by
      simp [count, TimeUnit.onlyExact, TimeUnit.milliseconds]
    rw [List.nil_append, groups, hcount]
    split_ifs with h
    · simp [h]
    · simp [TimeUnit.milliseconds]
  | cons unit units ih =>
    have hle := count_mul_le unit left
    rw [List.cons_append, groups]
    split_ifs with h
    · rw [ih, h]
      omega
    · rw [List.map_cons, List.sum_cons, ih]
      exact Nat.add_sub_cancel' hle

theorem sum_groups_all (left : Nat) :
    ((groups TimeUnit.all left).map fun g => g.1 * g.2.milliseconds).sum = left :=
  sum_groups [.year, .week, .day, .hour, .minute, .second] left

/-- The units of a written duration go down. -/
theorem descending_parts (d : Duration) : descending d.parts = true := by
  simp only [descending, decide_eq_true_eq]
  unfold parts
  split_ifs
  · exact List.pairwise_singleton _ _
  · have hall : (TimeUnit.all.map TimeUnit.rank).Pairwise (· < ·) := by decide
    have hsub := (units_groups_sublist TimeUnit.all d.milliseconds).map TimeUnit.rank
    rw [List.map_map] at hsub
    exact hall.sublist hsub

/-- Only the first unit of a written duration may be years. -/
theorem ne_year_of_mem_tail {d : Duration} {g : Nat × TimeUnit} (h : g ∈ d.parts.tail) :
    g.2 ≠ .year := by
  have hdesc := descending_parts d
  simp only [descending, decide_eq_true_eq] at hdesc
  intro hyear
  cases hparts : d.parts with
  | nil => simp [hparts] at h
  | cons first others =>
    rw [hparts] at h hdesc
    have hlt := List.rel_of_pairwise_cons hdesc (List.mem_map_of_mem h)
    rw [hyear] at hlt
    exact Nat.not_lt_zero _ hlt

/-! ### Reading -/

theorem readGroups?_digit {count : Option Nat} {c : Char} {cs : Text} (h : c.isDigit) :
    readGroups? count (c :: cs) =
      readGroups? (some (count.getD 0 * 10 + (c.toNat - '0'.toNat))) cs := by
  rw [readGroups?.eq_def]
  split
  case h_1 | h_2 => contradiction
  case h_3 heq => cases heq; exact absurd h (by decide)
  case h_4 heq =>
    cases heq
    rw [digit?_ten_of_isDigit h]

/-- The digits of a count. -/
theorem readGroups?_digits {count : Option Nat} {ds rest : Text} (hne : ds ≠ [])
    (h : ∀ c ∈ ds, c.isDigit) :
    readGroups? count (ds ++ rest) =
      readGroups? (some (Nat.ofDigitChars 10 ds (count.getD 0))) rest := by
  induction ds generalizing count with
  | nil => exact absurd rfl hne
  | cons c cs ih =>
    rw [List.cons_append, readGroups?_digit (h c List.mem_cons_self), Nat.ofDigitChars_cons,
      Nat.mul_comm 10 (count.getD 0)]
    cases cs with
    | nil => rfl
    | cons d ds => exact ih (List.cons_ne_nil d ds) fun e he => h e (List.mem_cons_of_mem c he)

/-- The unit behind a count, if no letter follows it. -/
theorem readGroups?_symbol (n : Nat) (unit : TimeUnit) {rest : Text}
    (h : rest.head? ≠ some 's') :
    readGroups? (some n) (unit.symbol ++ rest) = (readGroups? none rest).map ((n, unit) :: ·) := by
  cases unit
  case minute =>
    rw [readGroups?.eq_def]
    split
    case h_1 | h_2 => contradiction
    case h_3 heq =>
      cases heq
      exact absurd rfl h
    case h_4 heq _ =>
      cases heq
      rfl
  all_goals rfl

theorem head?_flatMap_groupText (gs : List (Nat × TimeUnit)) :
    ∀ c ∈ (gs.flatMap groupText).head?, c.isDigit := by
  intro c hc
  cases gs with
  | nil => simp at hc
  | cons g gs =>
    obtain ⟨d, ds, hdecimal⟩ := List.exists_cons_of_ne_nil (decimal_ne_nil g.1)
    have hd : c = d := by
      simp only [List.flatMap_cons, groupText, hdecimal, List.cons_append, List.head?_cons] at hc
      exact (Option.some.inj hc).symm
    exact isDigit_of_mem_decimal (n := g.1) (by rw [hdecimal, hd]; exact List.mem_cons_self)

/-- Written groups are read as the groups. -/
theorem readGroups?_groups (gs : List (Nat × TimeUnit)) :
    readGroups? none (gs.flatMap groupText) = some gs := by
  induction gs with
  | nil => rfl
  | cons g gs ih =>
    have hs : (gs.flatMap groupText).head? ≠ some 's' := fun h =>
      absurd (head?_flatMap_groupText gs 's' h) (by decide)
    rw [List.flatMap_cons, groupText, List.append_assoc,
      readGroups?_digits (decimal_ne_nil g.1) fun _ => isDigit_of_mem_decimal,
      readGroups?_symbol _ _ hs, ih]
    simp only [Option.getD_none, decimal, Nat.ofDigitChars_ten_toDigits]
    rfl

/-- The text of a duration is read as what its counts that fit thirty-two bits make up, if that is
anything at all. -/
theorem ofText?_text (d : Duration) :
    ofText? d.text =
      if totalMilliseconds d.parts = 0 then none
      else some ⟨totalMilliseconds d.parts * 1000000⟩ := by
  rw [ofText?, text_eq_parts, readGroups?_groups]
  simp only [Option.bind_eq_bind, Option.bind_some, descending_parts, Bool.true_and, bne_iff_ne]
  split_ifs <;> simp_all

theorem totalMilliseconds_le (gs : List (Nat × TimeUnit)) :
    totalMilliseconds gs ≤ (gs.map fun g => g.1 * g.2.milliseconds).sum ∧
      (totalMilliseconds gs = (gs.map fun g => g.1 * g.2.milliseconds).sum ↔
        ∀ g ∈ gs, g.1 * g.2.milliseconds ≠ 0 → g.1 < halfWordCount) := by
  induction gs with
  | nil => simp
  | cons g gs ih =>
    obtain ⟨hle, heq⟩ := ih
    rw [totalMilliseconds_cons, List.map_cons, List.sum_cons, List.forall_mem_cons, ← heq]
    unfold groupMilliseconds
    split_ifs with h
    · exact ⟨by omega, ⟨fun hsum => ⟨fun _ => h, by omega⟩, fun ⟨_, hsum⟩ => by omega⟩⟩
    · refine ⟨by omega, ⟨fun hsum => ⟨fun hne => by omega, by omega⟩, fun ⟨himp, hsum⟩ => ?_⟩⟩
      by_cases hzero : g.1 * g.2.milliseconds = 0
      · omega
      · exact absurd (himp hzero) h

/-! ### Readable durations -/

/-- Whether a duration is written so that it can be read: it is at least a millisecond, and each of
its counts fits thirty-two bits. -/
def Readable (d : Duration) : Prop :=
  d.milliseconds ≠ 0 ∧ ∀ g ∈ groups TimeUnit.all d.milliseconds, g.1 < halfWordCount

instance (d : Duration) : Decidable d.Readable := inferInstanceAs (Decidable (_ ∧ _))

theorem count_ne_zero_of_mem {units : List TimeUnit} {left : Nat} {g : Nat × TimeUnit}
    (h : g ∈ groups units left) : g.1 * g.2.milliseconds ≠ 0 := by
  induction units generalizing left with
  | nil => simp at h
  | cons unit units ih =>
    rw [groups] at h
    split_ifs at h with hcount
    · exact ih h
    · rcases List.mem_cons.mp h with rfl | h
      · exact Nat.mul_ne_zero hcount (Nat.ne_of_gt unit.milliseconds_pos)
      · exact ih h

/-- A duration is read back, cut to whole milliseconds, if and only if it is readable. -/
theorem ofText?_text_eq_cut_iff (d : Duration) : ofText? d.text = some d.cut ↔ d.Readable := by
  rw [ofText?_text]
  by_cases hzero : d.nanoseconds = 0
  · have hms : d.milliseconds = 0 := by simp [milliseconds, hzero]
    have hparts : d.parts = [(0, .second)] := if_pos hzero
    simp [hparts, Readable, hms, groupMilliseconds]
  · have hparts : d.parts = groups TimeUnit.all d.milliseconds := if_neg hzero
    obtain ⟨hle, heq⟩ := totalMilliseconds_le d.parts
    rw [hparts, sum_groups_all] at hle heq
    have hfits : (∀ g ∈ groups TimeUnit.all d.milliseconds,
        g.1 * g.2.milliseconds ≠ 0 → g.1 < halfWordCount) ↔
        ∀ g ∈ groups TimeUnit.all d.milliseconds, g.1 < halfWordCount :=
      ⟨fun h g hg => h g hg (count_ne_zero_of_mem hg), fun h g hg _ => h g hg⟩
    rw [hfits] at heq
    rw [hparts, Readable, ← heq]
    split_ifs with htotal
    · simp only [false_iff]
      omega
    · simp only [cut, Option.some.injEq, Duration.mk.injEq]
      omega

theorem text_eq_nil_iff (d : Duration) :
    d.text = [] ↔ d.nanoseconds ≠ 0 ∧ d.milliseconds = 0 := by
  rw [text_eq_parts]
  unfold parts
  split_ifs with hzero
  · simp [hzero, groupText]
    decide
  · constructor
    · intro h
      refine ⟨hzero, ?_⟩
      have hsum := sum_groups_all d.milliseconds
      cases hgroups : groups TimeUnit.all d.milliseconds with
      | nil => simpa [hgroups] using hsum.symm
      | cons g gs =>
        rw [hgroups] at h
        simp [groupText, decimal_ne_nil] at h
    · rintro ⟨-, h⟩
      rw [h]
      rfl

end Duration

/-! ### Durations as tokens -/

namespace Lexeme

theorem unitSpan?_cons {units : String} {c : Char} {rest : Text} (h : units.toList.contains c) :
    unitSpan? units (c :: rest) =
      some (c :: (optionalOf (· == 's') rest).1, (optionalOf (· == 's') rest).2) := by
  rw [unitSpan?, if_pos h]

theorem unitSpan?_symbol (units : String) (unit : TimeUnit) {rest : Text}
    (hunit : ∀ c ∈ unit.symbol.head?, units.toList.contains c) (hrest : rest.head? ≠ some 's') :
    unitSpan? units (unit.symbol ++ rest) = some (unit.symbol, rest) := by
  have hs : optionalOf (· == 's') rest = ([], rest) :=
    optionalOf_of_not fun c hc hcs => hrest (by rw [hc, beq_iff_eq.mp hcs])
  have hone : ∀ c, unit.symbol = [c] →
      unitSpan? units (unit.symbol ++ rest) = some (unit.symbol, rest) := by
    intro c hc
    rw [hc] at hunit ⊢
    rw [List.singleton_append, unitSpan?_cons (hunit c rfl), hs]
  cases unit
  case millisecond => exact unitSpan?_cons (hunit 'm' rfl)
  all_goals exact hone _ rfl

theorem head?_ne_s (gs : List (Nat × TimeUnit)) {rest : Text} (hrest : IsNameEnd rest) :
    (gs.flatMap Duration.groupText ++ rest).head? ≠ some 's' := by
  intro h
  cases hgs : gs.flatMap Duration.groupText with
  | nil =>
    rw [hgs] at h
    exact absurd (by decide) (hrest 's' h)
  | cons c cs =>
    have hdigit := Duration.head?_flatMap_groupText gs c (by rw [hgs]; rfl)
    rw [hgs, List.cons_append, List.head?_cons, Option.some.injEq] at h
    rw [h] at hdigit
    exact absurd hdigit (by decide)

/-- The groups behind the first one, none of which is of years. -/
theorem groupsSpan?_groups {fuel : Nat} {gs : List (Nat × TimeUnit)} {rest : Text}
    (hfuel : gs.length < fuel) (hyear : ∀ g ∈ gs, g.2 ≠ .year) (hrest : IsNameEnd rest) :
    groupsSpan? fuel (gs.flatMap Duration.groupText ++ rest) =
      some (gs.flatMap Duration.groupText, rest) := by
  induction gs generalizing fuel with
  | nil =>
    obtain ⟨fuel, rfl⟩ := Nat.exists_eq_succ_of_ne_zero (Nat.ne_zero_of_lt hfuel)
    have hspan : spanOf Char.isDigit ([] ++ rest) = ([], rest) :=
      spanOf_of_forall (by simp) hrest.not_isDigit
    rw [List.nil_append] at hspan
    rw [List.flatMap_nil, List.nil_append, groupsSpan?, hspan]
  | cons g gs ih =>
    obtain ⟨fuel, rfl⟩ := Nat.exists_eq_succ_of_ne_zero (Nat.ne_zero_of_lt hfuel)
    have ih := ih (Nat.lt_of_succ_lt_succ hfuel) fun h hh => hyear h (List.mem_cons_of_mem g hh)
    have hunit : ∀ c ∈ g.2.symbol.head?, "smhdw".toList.contains c := by
      have hne := hyear g List.mem_cons_self
      cases hg : g.2 <;> rintro c ⟨⟩ <;> first | decide | exact absurd hg hne
    have hsymbol := unitSpan?_symbol "smhdw" g.2 hunit (head?_ne_s gs hrest)
    have hdigits : spanOf Char.isDigit
        (decimal g.1 ++ (g.2.symbol ++ (gs.flatMap Duration.groupText ++ rest))) =
          (decimal g.1, g.2.symbol ++ (gs.flatMap Duration.groupText ++ rest)) := by
      refine spanOf_of_forall (fun _ => isDigit_of_mem_decimal) fun c hc => ?_
      cases hg : g.2 <;> rw [hg] at hc <;> cases hc <;> decide
    rw [List.flatMap_cons, Duration.groupText]
    simp only [List.append_assoc, groupsSpan?, hdigits]
    split
    · next heq => exact absurd (Prod.mk.inj heq).1 (decimal_ne_nil g.1)
    · next heq =>
      cases heq
      simp only [hsymbol, ih, Option.bind_eq_bind, Option.bind_some]
      rfl

theorem length_le_groupTexts (gs : List (Nat × TimeUnit)) :
    gs.length ≤ (gs.flatMap Duration.groupText).length := by
  induction gs with
  | nil => exact Nat.le_refl 0
  | cons g gs ih =>
    have hpos := List.length_pos_iff.mpr (decimal_ne_nil g.1)
    rw [List.flatMap_cons, Duration.groupText, List.length_append, List.length_append,
      List.length_cons]
    omega

/-- The rest of a duration behind its first count. -/
theorem durationSpan?_groups (unit : TimeUnit) {gs : List (Nat × TimeUnit)} {rest : Text}
    (hyear : ∀ g ∈ gs, g.2 ≠ .year) (hrest : IsNameEnd rest) :
    durationSpan? (unit.symbol ++ (gs.flatMap Duration.groupText ++ rest)) =
      some (unit.symbol ++ gs.flatMap Duration.groupText, rest) := by
  have hsymbol := unitSpan?_symbol "smhdwy" unit
    (by cases unit <;> rintro c ⟨⟩ <;> decide) (head?_ne_s gs hrest)
  have hend : ¬ (rest.head?.map isWordChar).getD false := by
    cases hhead : rest.head? with
    | none => decide
    | some c => simpa using hrest c hhead
  have hlength : gs.length <
      (unit.symbol ++ (gs.flatMap Duration.groupText ++ rest)).length + 1 := by
    have hgroups := length_le_groupTexts gs
    simp only [List.length_append]
    omega
  simp only [durationSpan?, hsymbol, Option.bind_eq_bind, Option.bind_some,
    groupsSpan?_groups hlength hyear hrest, if_neg hend]
  rfl

theorem quantity?_duration {d : Duration} {rest : Text} (hne : d.text ≠ [])
    (hrest : IsNameEnd rest) : quantity? (d.text ++ rest) = some (.duration d.text, rest) := by
  rw [Duration.text_eq_parts] at hne ⊢
  have hyear : ∀ h ∈ d.parts.tail, h.2 ≠ .year := fun _ => Duration.ne_year_of_mem_tail
  cases hparts : d.parts with
  | nil => simp [hparts] at hne
  | cons g gs =>
    rw [hparts, List.tail_cons] at hyear
    have hduration := durationSpan?_groups g.2 hyear hrest
    have hnumber : numberSpan
        (decimal g.1 ++ (g.2.symbol ++ (gs.flatMap Duration.groupText ++ rest))) =
          (decimal g.1, g.2.symbol ++ (gs.flatMap Duration.groupText ++ rest)) := by
      have hdigits : NumberParts.IsDigits ⟨decimal g.1, none, none⟩ :=
        ⟨decimal_ne_nil g.1, fun _ => isDigit_of_mem_decimal, by simp, by simp⟩
      have htext : NumberParts.text ⟨decimal g.1, none, none⟩ = decimal g.1 := by
        simp [NumberParts.text, NumberParts.fractionText, NumberParts.exponentText]
      have hend : IsDigitsEnd (g.2.symbol ++ (gs.flatMap Duration.groupText ++ rest)) := by
        intro c hc
        cases hg : g.2 <;> rw [hg] at hc <;> cases hc <;> decide
      have hspan := numberSpan_text hdigits hend
      rwa [htext] at hspan
    have hstart : ((g.2.symbol ++ (gs.flatMap Duration.groupText ++ rest)).head?.map fun c =>
        isWordStart c || c == '.').getD false := by
      cases g.2 <;> rfl
    rw [List.flatMap_cons, Duration.groupText, List.append_assoc, List.append_assoc]
    simp only [quantity?, hnumber, if_pos hstart, hduration, Option.bind_eq_bind,
      Option.bind_some, Option.pure_def, List.append_assoc]

/-- A written duration is read in front of what does not go on a name. -/
theorem reads_duration {mode : LexMode} {d : Duration} {rest : Text} (hmode : mode ≠ .braces)
    (hne : d.text ≠ []) (hrest : IsNameEnd rest) : (Token.duration d.text).Reads mode rest := by
  have hquantity := quantity?_duration hne hrest
  have hdigit := Duration.head?_flatMap_groupText d.parts
  rw [← Duration.text_eq_parts] at hdigit
  obtain ⟨c, cs, hcs⟩ := List.exists_cons_of_ne_nil hne
  have hc := hdigit c (by rw [hcs]; rfl)
  refine ⟨fun e he => ?_, ?_⟩
  · rw [Token.spelling, hcs] at he
    cases he
    exact isSpace_of_isWordChar (.inl (isWordChar_of_isDigit hc))
  · rw [Token.spelling]
    rw [hcs] at hquantity ⊢
    rw [List.cons_append] at hquantity ⊢
    rw [read?_quantity hmode hc, hquantity]
    cases mode <;> rfl

end Lexeme

end PromQL

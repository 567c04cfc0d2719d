import Mathlib
import PromQL.Proofs.Double.Numeral
import PromQL.Proofs.Duration.Reading

/-!
# What a written duration denotes

The groups of a written duration make up its whole milliseconds, from the longest unit to the
shortest. Each count is as small as the unit before it allows, and years or weeks stand alone.
-/

namespace PromQL

/-- How many of a unit make up the unit before it; days, weeks and years have no such bound. -/
def TimeUnit.limit? : TimeUnit → Option Nat
  | year | week | day => none
  | hour => some 24
  | minute | second => some 60
  | millisecond => some 1000

namespace Duration

/-- Whether a text is written in groups, each a count and a unit, that make up so many milliseconds
with no count larger than its place allows. -/
structure Denotes (text : Text) (gs : List (Nat × TimeUnit)) (total : Nat) : Prop where
  ne_nil : gs ≠ []
  text_eq : text = gs.flatMap fun g => decimal g.1 ++ g.2.symbol
  /-- The units go down, and none is there twice. -/
  units_sublist : (gs.map Prod.snd).Sublist TimeUnit.all
  count_pos : ∀ g ∈ gs, 0 < g.1
  /-- The digits of a count stand for it, without a zero in front. -/
  digits : ∀ g ∈ gs, natural? 10 (decimal g.1) = some g.1 ∧ (decimal g.1).head? ≠ some '0'
  sum_eq : (gs.map fun g => g.1 * g.2.milliseconds).sum = total
  count_lt : ∀ g ∈ gs, ∀ limit ∈ g.2.limit?, g.1 < limit
  /-- Years or weeks are all there is. -/
  alone : ∀ g ∈ gs, g.2 = .year ∨ g.2 = .week → gs = [g]

/-! ### Counts -/

theorem groups_zero (units : List TimeUnit) : groups units 0 = [] := by
  induction units with
  | nil => rfl
  | cons unit units ih =>
    have hcount : count unit 0 = 0 := by simp [count]
    rw [groups, hcount, if_pos rfl, Nat.zero_mul, ih]

theorem mem_groups_cons {unit : TimeUnit} {units : List TimeUnit} {left : Nat} {g : Nat × TimeUnit}
    (h : g ∈ groups (unit :: units) left) :
    g = (count unit left, unit) ∧ count unit left ≠ 0 ∨
      g ∈ groups units (left - count unit left * unit.milliseconds) := by
  rw [groups] at h
  split_ifs at h with hcount
  · exact .inr h
  · exact (List.mem_cons.mp h).imp_left fun hg => ⟨hg, hcount⟩

/-- What a unit that need not be exact leaves is less than the unit. -/
theorem sub_count_lt {unit : TimeUnit} (hexact : ¬ unit.onlyExact) (left : Nat) :
    left - count unit left * unit.milliseconds < unit.milliseconds := by
  have hcount : count unit left = left / unit.milliseconds := by simp [count, hexact]
  have hmod := Nat.mod_lt left unit.milliseconds_pos
  have hdiv := Nat.div_add_mod' left unit.milliseconds
  rw [hcount]
  omega

/-- A unit that has to be exact leaves nothing if it is used. -/
theorem sub_count_eq_zero {unit : TimeUnit} {left : Nat} (hexact : unit.onlyExact)
    (hcount : count unit left ≠ 0) : left - count unit left * unit.milliseconds = 0 := by
  rw [count, hexact, Bool.true_and] at hcount ⊢
  split_ifs at hcount ⊢ with hmod
  · exact absurd rfl hcount
  · have hmod : left % unit.milliseconds = 0 := by simpa using hmod
    have hdiv := Nat.div_add_mod' left unit.milliseconds
    omega

/-- Each unit with a bound makes up the one in front of it, which need not be exact. -/
def Graded (unit next : TimeUnit) : Prop :=
  ∀ limit ∈ next.limit?, ¬ unit.onlyExact ∧ unit.milliseconds = limit * next.milliseconds

theorem isChain_graded_all : TimeUnit.all.IsChain Graded := by
  simp [TimeUnit.all, Graded, TimeUnit.limit?, TimeUnit.onlyExact, TimeUnit.milliseconds]

/-- Counts stay below the bounds of their units if this holds of what is left at the start. -/
theorem count_lt_of_mem_groups {units : List TimeUnit} {left : Nat} {g : Nat × TimeUnit}
    (hchain : units.IsChain Graded)
    (hleft : ∀ unit ∈ units.head?, ∀ limit ∈ unit.limit?, left < limit * unit.milliseconds)
    (hg : g ∈ groups units left) : ∀ limit ∈ g.2.limit?, g.1 < limit := by
  induction units generalizing left with
  | nil => cases hg
  | cons unit units ih =>
    rcases mem_groups_cons hg with ⟨rfl, -⟩ | hg
    · intro limit hlimit
      have hlt := hleft unit rfl limit hlimit
      have hle := count_mul_le unit left
      exact Nat.lt_of_mul_lt_mul_right (hle.trans_lt hlt)
    · refine ih hchain.tail (fun next hnext limit hlimit => ?_) hg
      obtain ⟨hexact, hunit⟩ := hchain.rel_head? hnext limit hlimit
      rw [← hunit]
      exact sub_count_lt hexact left

/-- A group of a unit that has to be exact is the only one, if only such units are in front. -/
theorem groups_eq_singleton {units : List TimeUnit} {left : Nat} {g : Nat × TimeUnit}
    (hunits : units.Pairwise fun unit next => next.onlyExact → unit.onlyExact)
    (hg : g ∈ groups units left) (hexact : g.2.onlyExact) : groups units left = [g] := by
  induction units generalizing left with
  | nil => cases hg
  | cons unit units ih =>
    have hrest : unit.onlyExact → count unit left ≠ 0 →
        groups units (left - count unit left * unit.milliseconds) = [] := fun hunit hcount => by
      rw [sub_count_eq_zero hunit hcount, groups_zero]
    rcases mem_groups_cons hg with ⟨rfl, hcount⟩ | hmem
    · rw [groups, if_neg hcount, hrest hexact hcount]
    · have hunit : unit.onlyExact :=
        List.rel_of_pairwise_cons hunits
          ((units_groups_sublist _ _).subset (List.mem_map_of_mem hmem)) hexact
      by_cases hcount : count unit left = 0
      · rw [groups, if_pos hcount]
        exact ih hunits.of_cons hmem
      · rw [hrest hunit hcount] at hmem
        cases hmem

/-! ### Texts -/

/-- A duration of no length is written `0s`. One of at least a millisecond is written in groups
that denote its whole milliseconds. -/
theorem text_denotes (d : Duration) :
    (d.nanoseconds = 0 → d.text = "0s".toList) ∧
      (1000000 ≤ d.nanoseconds → ∃ gs, Denotes d.text gs (d.nanoseconds / 1000000)) := by
  refine ⟨fun h => if_pos h, fun h => ⟨groups TimeUnit.all d.milliseconds, ?_⟩⟩
  have hms : 0 < d.milliseconds := Nat.div_pos h (by decide)
  have hsum := sum_groups_all d.milliseconds
  have hexacts : TimeUnit.all.Pairwise fun unit next => next.onlyExact → unit.onlyExact := by
    decide
  have hpos : ∀ g ∈ groups TimeUnit.all d.milliseconds, 0 < g.1 := fun g hg =>
    Nat.pos_of_mul_pos_right (Nat.pos_of_ne_zero (count_ne_zero_of_mem hg))
  constructor
  case ne_nil =>
    intro hnil
    rw [hnil] at hsum
    exact Nat.ne_of_lt hms hsum
  case text_eq => exact if_neg (Nat.ne_of_gt (Nat.lt_of_lt_of_le (by decide) h))
  case units_sublist => exact units_groups_sublist TimeUnit.all d.milliseconds
  case count_pos => exact hpos
  case digits =>
    exact fun g hg => ⟨natural?_decimal g.1, head?_decimal (Nat.ne_of_gt (hpos g hg))⟩
  case sum_eq => exact hsum
  case count_lt =>
    refine fun g hg => count_lt_of_mem_groups isChain_graded_all ?_ hg
    rintro _ ⟨⟩ limit ⟨⟩
  case alone =>
    refine fun g hg hunit => groups_eq_singleton hexacts hg ?_
    rcases hunit with hunit | hunit <;> rw [hunit] <;> rfl

/-- Three weeks and two days and a bit are no whole number of weeks, so they are written in days. -/
theorem text_denotes_threeWeeks :
    (⟨0⟩ : Duration).text = "0s".toList ∧
      (⟨1990800000999999⟩ : Duration).text = "23d1h".toList ∧
      ∃ gs, Denotes "23d1h".toList gs 1990800000 :=
  ⟨(text_denotes ⟨0⟩).1 rfl, rfl, (text_denotes ⟨1990800000999999⟩).2 (by decide)⟩

end Duration

end PromQL

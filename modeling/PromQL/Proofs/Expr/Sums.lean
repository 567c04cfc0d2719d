import Mathlib
import PromQL.Proofs.Expr.Clauses

/-!
# Sums over matchers

A quantity that is given for every token, and adds up over them, adds up over the matchers that the
tokens in braces stand for, whatever their order and however they are grouped. Commas and the words
between alternatives count nothing.
-/

namespace PromQL

variable {M : Type} [AddCommMonoid M]

/-! ### Groups of matchers -/

/-- A matcher adds its share, whether it starts an alternative or not. -/
theorem Matchers.sum_add (g : Matcher → M) (ms : Matchers) (alternative : Bool) (m : Matcher) :
    ((ms.add alternative m).flatten.map g).sum = (ms.flatten.map g).sum + g m := by
  obtain ⟨group, alternatives⟩ := ms
  cases alternative with
  | true =>
    have hgroup : (if group.isEmpty then [] else [group]).flatten = group := by
      cases group <;> simp
    simp only [Matchers.add, Matchers.flatten, if_true, List.flatten_append, hgroup]
    simp [add_comm, add_assoc]
  | false =>
    simp only [Matchers.add, Bool.false_eq_true, if_false]
    split
    · next last hlast =>
      have halternatives := List.dropLast_append_getLast? last hlast
      conv_rhs => rw [← halternatives]
      simp [Matchers.flatten, add_assoc]
    · next hlast =>
      obtain rfl := List.getLast?_eq_none_iff.mp hlast
      simp [Matchers.flatten]

namespace Grammar

/-! ### Pieces -/

variable {f : Token → M}

theorem sum_pieces (hcomma : f .comma = 0) (hor : f .orWord = 0) (ts : List Token) :
    (ts.map f).sum =
      ((pieces ts).1.map f).sum + ((pieces ts).2.map fun p => (p.2.map f).sum).sum := by
  induction ts with
  | nil => simp [pieces]
  | cons t ts ih =>
    rw [List.map_cons, List.sum_cons, ih]
    simp only [pieces]
    split
    · simp [hcomma]
    · simp [hor]
    · simp [add_assoc]

theorem sum_withoutLastComma (others : List (Bool × List Token)) :
    ((withoutLastComma others).map fun p => (p.2.map f).sum).sum =
      (others.map fun p => (p.2.map f).sum).sum := by
  unfold withoutLastComma
  split
  · next hlast =>
    conv_rhs => rw [← List.dropLast_append_getLast? _ hlast]
    simp
  · rfl

/-! ### Matchers -/

/-- The matchers that are added in turn. -/
theorem sum_foldl (g : Matcher → M) {links : List (Bool × Option Matcher)} {acc : Option Matchers}
    {ms : Matchers} (h : links.foldl (fun acc (alternative, m) =>
      acc.bind fun ms => m.map fun m => ms.add alternative m) acc = some ms) :
    ∃ (start : Matchers) (added : List Matcher),
      acc = some start ∧ links.map Prod.snd = added.map some ∧
      (ms.flatten.map g).sum = (start.flatten.map g).sum + (added.map g).sum := by
  induction links generalizing acc with
  | nil => exact ⟨ms, [], h, rfl, by simp⟩
  | cons link links ih =>
    obtain ⟨start, added, hstart, hlinks, hsum⟩ := ih h
    obtain ⟨start', hacc, hlink⟩ := Option.bind_eq_some_iff.mp hstart
    obtain ⟨m, hm, rfl⟩ := Option.map_eq_some_iff.mp hlink
    refine ⟨start', m :: added, hacc, ?_, ?_⟩
    · rw [List.map_cons, hm, hlinks, List.map_cons]
    · rw [hsum, Matchers.sum_add, List.map_cons, List.sum_cons, add_assoc]

/-- Pieces that are read one by one add up to what they are read as. -/
theorem sum_mapM (g : Matcher → M)
    (hpiece : ∀ piece m, matcherOf? piece = some (some m) → (piece.map f).sum = g m)
    {parts : List (Bool × List Token)} {links : List (Bool × Option Matcher)}
    (h : parts.mapM (fun (alternative, piece) =>
      (matcherOf? piece).map fun m => (alternative, m)) = some links)
    {added : List Matcher} (hadded : links.map Prod.snd = added.map some) :
    (parts.map fun p => (p.2.map f).sum).sum = (added.map g).sum := by
  induction parts generalizing links added with
  | nil =>
    cases h
    cases added with
    | nil => rfl
    | cons m ms => cases hadded
  | cons part parts ih =>
    rw [List.mapM_cons] at h
    obtain ⟨link, hlink, h⟩ := Option.bind_eq_some_iff.mp h
    obtain ⟨more, hmore, h⟩ := Option.bind_eq_some_iff.mp h
    cases h
    obtain ⟨m?, hm, rfl⟩ := Option.map_eq_some_iff.mp hlink
    cases added with
    | nil => cases hadded
    | cons m ms =>
      obtain ⟨hhead, htail⟩ := List.cons.inj hadded
      rw [List.map_cons, List.sum_cons, List.map_cons, List.sum_cons, ih hmore htail,
        hpiece part.2 m (by rw [hm]; exact congrArg some hhead)]

/-- What is given for the tokens in braces adds up over the matchers that they stand for. -/
theorem sum_matchersOf? (hcomma : f .comma = 0) (hor : f .orWord = 0) (g : Matcher → M)
    (hpiece : ∀ piece m, matcherOf? piece = some (some m) → (piece.map f).sum = g m)
    {ts : List Token} {ms : Matchers} (h : matchersOf? ts = some (some ms)) :
    (ts.map f).sum = (ms.flatten.map g).sum := by
  have hsum := sum_pieces hcomma hor ts
  unfold matchersOf? at h
  split at h
  · next heq =>
    cases h
    rw [hsum, heq]
    simp [Matchers.flatten, Matchers.empty]
  · next first others _ heq =>
    obtain ⟨links, hlinks, h⟩ := Option.bind_eq_some_iff.mp h
    obtain ⟨start, added, hstart, hadded, hms⟩ := sum_foldl g (Option.some.inj h)
    cases hstart
    have hparts := sum_mapM g hpiece hlinks hadded
    rw [List.map_cons, List.sum_cons, sum_withoutLastComma] at hparts
    rw [hsum, heq, hms, ← hparts]
    simp [Matchers.flatten, Matchers.empty]

/-- Braces are read up to the first closing one. -/
theorem exists_of_matchers {ts rest : List Token} {ms : Option Matchers}
    (h : matchers ts = .ok (ms, rest)) :
    ∃ inner, ts = .leftBrace :: (inner ++ .rightBrace :: rest) ∧ matchersOf? inner = some ms := by
  unfold matchers at h
  split at h
  · next us =>
    split at h
    · next t behind ms' hdrop hms =>
      cases h
      have hbrace : t = .rightBrace := by
        have hnot := List.head?_dropWhile_not (· != Token.rightBrace) us
        rw [hdrop] at hnot
        simpa using hnot
      subst hbrace
      refine ⟨_, ?_, hms⟩
      rw [← hdrop, List.takeWhile_append_dropWhile]
    · cases h
  · cases h

end Grammar

end PromQL

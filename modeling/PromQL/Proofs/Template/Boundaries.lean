import Mathlib
import PromQL.Proofs.Template.Separation
import PromQL.Proofs.Token.Scanning

/-!
# Variables that are put back

What variables a text with placeholders has once they are put back is found piece by piece: a piece
that is cut in front of a character which no name has counts on its own, and a piece in which
neither a placeholder nor a variable can start counts nothing, wherever it stands in front of
others.
-/

namespace PromQL

theorem isNameEnd_nil : IsNameEnd [] := fun _ h => by cases h

/-- Nothing can start at a separator. -/
theorem IsSeparator.isFixed {c : Char} (hc : IsSeparator c) : c ≠ 'V' ∧ c ≠ '$' := by
  refine ⟨?_, hc.2⟩
  rintro rfl
  exact hc.1 rfl

namespace Placeholders

variable {m : Placeholders} {n : Nat}

/-! ### Putting variables back in pieces -/

theorem not_prefix_of_head {c : Char} (hc : c ≠ 'V') (cs : Text) : ¬ stemOf n <+: c :: cs := by
  rw [stemOf_eq_cons]
  intro h
  exact hc (List.cons_prefix_cons.mp h).1.symm

/-- A stem that is in a text with a separator is in front of the separator, or behind it. -/
theorem stemOf_infix_append_cons_iff {c : Char} (hc : IsSeparator c) (a b : Text) :
    stemOf n <:+: a ++ c :: b ↔ stemOf n <:+: a ∨ stemOf n <:+: b := by
  constructor
  · intro h
    induction a with
    | nil => exact .inr ((List.infix_cons_iff.mp h).resolve_left (not_prefix_of_head hc.isFixed.1 b))
    | cons d a ih =>
      rcases List.infix_cons_iff.mp h with hpre | hin
      · have htail : ∀ e ∈ (c :: b).head?, ¬ isStemTail e := by
          rintro e ⟨⟩ htail
          exact hc.1 (isWordChar_of_isStemTail htail)
        exact .inl (stemOf_prefix_of_append (List.cons_ne_nil d a) htail hpre).isInfix
      · exact (ih hin).imp_left fun hin => hin.trans (List.suffix_cons d a).isInfix
  · rintro (h | h)
    · exact h.trans (List.prefix_append a (c :: b)).isInfix
    · exact h.trans ((List.suffix_cons c b).trans (List.suffix_append a (c :: b))).isInfix

/-- At a placeholder, the edit does not look behind a character that no name has. -/
theorem unmasking?_append (hstem : m.stem = stemOf n) {a b : Text} (ha : a ≠ [])
    (hb : IsNameEnd b) : m.unmasking? (a ++ b) = m.unmasking? a := by
  have htail : ∀ c ∈ b.head?, ¬ isStemTail c := fun c hc h => hb c hc (isWordChar_of_isStemTail h)
  by_cases hpre : m.stem <+: a
  · obtain ⟨rest, rfl⟩ := hpre
    clear ha
    have hdigits : (rest ++ b).takeWhile Char.isDigit = rest.takeWhile Char.isDigit := by
      induction rest with
      | nil =>
        cases b with
        | nil => rfl
        | cons c cs => exact List.takeWhile_cons_of_neg (hb.not_isDigit c rfl)
      | cons c cs ih => simp only [List.cons_append, List.takeWhile_cons, ih]
    rw [List.append_assoc]
    simp only [unmasking?, isPrefixOf?_append, Option.bind_eq_bind, Option.bind_some, hdigits]
  · have hnot : ¬ m.stem <+: a ++ b := by
      intro h
      rw [hstem] at h hpre
      exact hpre (stemOf_prefix_of_append ha htail h)
    rw [unmasking?_eq_none hpre, unmasking?_eq_none hnot]

theorem isAnchored_unmasking? (hstem : m.stem = stemOf n) : IsAnchored m.unmasking? := by
  intro a edit h
  obtain ⟨rest, hrest, h⟩ := Option.bind_eq_some_iff.mp h
  cases h
  rw [isPrefixOf?_eq_some_iff] at hrest
  refine ⟨?_, ?_⟩
  · rw [hrest]
    exact List.prefix_append_right_inj _ |>.mpr (List.takeWhile_prefix _)
  · simp [hstem, stemOf_eq_cons]

/-- A text is unmasked on its own in front of a character that no name has. -/
theorem unmask_append (hstem : m.stem = stemOf n) {b : Text} (hb : IsNameEnd b) (a : Text) :
    m.unmask (a ++ b) = m.unmask a ++ m.unmask b := by
  unfold unmask
  split_ifs
  · rfl
  · exact editAll_append_of_local (fun a ha => unmasking?_append hstem ha hb)
      (isAnchored_unmasking? hstem) a

/-- A text in which no placeholder can start stays as it is. -/
theorem unmask_append_of_isFixed (hstem : m.stem = stemOf n) {a : Text} (ha : IsFixed a)
    (b : Text) :
    m.unmask (a ++ b) = a ++ m.unmask b := by
  unfold unmask
  split_ifs
  · rfl
  · refine editAll_append_of_none fun before rest hsplit hrest => unmasking?_eq_none ?_
    obtain ⟨c, cs, rfl⟩ := List.exists_cons_of_ne_nil hrest
    have hc := (ha c (by simp [hsplit])).1
    rw [hstem]
    exact not_prefix_of_head hc _

theorem isNameEnd_unmask (hstem : m.stem = stemOf n) {b : Text} (hb : IsNameEnd b) :
    IsNameEnd (m.unmask b) := by
  cases b with
  | nil =>
    unfold unmask
    split_ifs <;> exact isNameEnd_nil
  | cons c cs =>
    have hc : ¬ isWordChar c := hb c rfl
    unfold unmask
    split_ifs
    · exact hb
    · have hnone : m.unmasking? (c :: cs) = none := by
        refine unmasking?_eq_none ?_
        rw [hstem]
        refine not_prefix_of_head ?_ cs
        rintro rfl
        exact hc rfl
      rw [editAll_cons_of_none hnone]
      rintro d ⟨⟩
      exact hc

/-- Where no digit is, there is no placeholder. -/
theorem unmask_of_not_isDigit (hstem : m.stem = stemOf n) {text : Text}
    (h : ∀ c ∈ text, ¬ c.isDigit) : m.unmask text = text := by
  unfold unmask
  split_ifs
  · rfl
  · refine editAll_eq_self (isAnchored_unmasking? hstem) fun a ha edit hedit => ?_
    obtain ⟨rest, hrest, hedit⟩ := Option.bind_eq_some_iff.mp hedit
    rw [isPrefixOf?_eq_some_iff] at hrest
    have hdigits : rest.takeWhile Char.isDigit = [] := by
      cases rest with
      | nil => rfl
      | cons c cs =>
        have hmem : c ∈ text := ha.subset (by rw [hrest]; simp)
        exact List.takeWhile_cons_of_neg (h c hmem)
    have hget : m.get? (m.stem ++ []) = none := by
      simp [get?, index?]
    cases hedit
    rw [hdigits, hget]
    rfl

/-! ### Variables that are put back -/

/-- The variables of a text once they are put back, as often as they are there. -/
def restored (m : Placeholders) (text : Text) : Multiset Text := variablesOf (m.unmask text)

theorem restored_nil (m : Placeholders) : m.restored [] = 0 := by
  have hnil : m.unmask [] = [] := by
    unfold unmask
    split_ifs <;> rfl
  rw [restored, hnil]
  rfl

/-- A piece in front of a character that no name has counts on its own. -/
theorem restored_append (hstem : m.stem = stemOf n) {b : Text} (hb : IsNameEnd b) (a : Text) :
    m.restored (a ++ b) = m.restored a + m.restored b := by
  rw [restored, unmask_append hstem hb, variablesOf_append (isNameEnd_unmask hstem hb)]
  exact (Multiset.coe_add _ _).symm

/-- A piece in which nothing can start counts nothing. -/
theorem restored_append_of_isFixed (hstem : m.stem = stemOf n) {a : Text} (ha : IsFixed a)
    (b : Text) : m.restored (a ++ b) = m.restored b := by
  have hdollar : '$' ∉ a := fun hmem => (ha _ hmem).2 rfl
  rw [restored, unmask_append_of_isFixed hstem ha, variablesOf_append_of_not_mem hdollar]
  rfl

theorem restored_of_isFixed (hstem : m.stem = stemOf n) {a : Text} (ha : IsFixed a) :
    m.restored a = 0 := by
  have happend := restored_append_of_isFixed hstem ha []
  rwa [List.append_nil, restored_nil] at happend

theorem restored_cons (hstem : m.stem = stemOf n) {c : Char} (hc : c ≠ 'V' ∧ c ≠ '$') (b : Text) :
    m.restored (c :: b) = m.restored b :=
  restored_append_of_isFixed hstem (a := [c]) (by simpa [IsFixed] using hc) b

/-- What is in front of a separator counts on its own, and so does what is behind it. -/
theorem restored_append_cons (hstem : m.stem = stemOf n) {c : Char} (hc : IsSeparator c)
    (a b : Text) : m.restored (a ++ c :: b) = m.restored a + m.restored b := by
  have hend : IsNameEnd (c :: b) := by
    rintro d ⟨⟩
    exact hc.1
  rw [restored_append hstem hend, restored_cons hstem hc.isFixed]

/-- A text without dollar signs and stems counts nothing. -/
theorem restored_of_not_infix (hstem : m.stem = stemOf n) {a : Text} (hdollar : '$' ∉ a)
    (h : ¬ m.stem <:+: a) : m.restored a = 0 := by
  rw [restored, unmask_of_not_infix hstem h, variablesOf_of_not_mem hdollar]
  rfl

end Placeholders

end PromQL

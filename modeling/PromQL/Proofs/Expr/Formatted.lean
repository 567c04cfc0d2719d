import PromQL.Proofs.Expr.Brackets
import PromQL.Proofs.Expr.Completeness
import PromQL.Proofs.Expr.Soundness
import PromQL.Proofs.Expr.Spelling

/-!
# What formatted text is read as

The text of a formatted expression has the tokens of its canonical form, if it has any at all. It
stands for an expression that is the same as the one that was formatted if and only if the canonical
form is legible, down to whole milliseconds.
-/

namespace PromQL

namespace Expr

variable {e e' : Expr}

/-- What can be read of a formatted expression is scanned as its canonical form. -/
theorem tokens_format (indent : Nat) (he : e.Formed) (h : e.canonical.Legible .readable) :
    Token.ofText? (e.format indent) = some e.canonical.tokens := by
  have hneat := e.canonical.neat h
  have hbalanced : Token.balanced 0 e.canonical.tokens = true := by
    rw [← List.append_nil e.canonical.tokens, hneat.balanced]
    rfl
  have hgapped : Token.gapped e.canonical.tokens = false := by
    rw [← List.append_nil e.canonical.tokens, hneat.gapped]
    rfl
  rw [Token.ofText?_eq]
  rcases (spelled_format indent he).scan with hscan | ⟨-, hinfix⟩
  · rw [hscan, Option.bind_some, if_pos hbalanced]
  · rw [Token.gapped_of_infix hinfix] at hgapped
    cases hgapped

/-- Whatever a formatted expression is scanned as, it is its canonical form. -/
theorem eq_tokens_of_format {indent : Nat} (he : e.Formed) {ts : List Token}
    (h : Token.ofText? (e.format indent) = some ts) : ts = e.canonical.tokens := by
  rw [Token.ofText?_eq] at h
  obtain ⟨us, hscan, h⟩ := Option.bind_eq_some_iff.mp h
  rcases (spelled_format indent he).scan with hscan' | ⟨hnone, -⟩
  · rw [hscan'] at hscan
    cases hscan
    split at h
    · exact (Option.some.inj h).symm
    · cases h
  · rw [hnone] at hscan
    cases hscan

/-- What a formatted expression stands for is read from the tokens of its canonical form. -/
theorem whole_of_format {indent : Nat} (he : e.Formed)
    (h : ofText (e.format indent) = .ok e') :
    Grammar.whole e.canonical.tokens = .ok (some e') := by
  unfold ofText at h
  split at h
  · cases h
  · next ts hts =>
    rw [eq_tokens_of_format he hts] at h
    obtain ⟨e?, he', h⟩ := Reading.bind_eq_ok.mp h
    cases e? with
    | none => cases h
    | some e'' =>
      simp only at h
      split at h
      · cases h
        exact he'
      · cases h

/-- An expression that is legible is formatted to a text that stands for it, with its durations and
times as they are read. -/
theorem ofText_format (indent : Nat) (htyped : e.wellTyped) (he : e.Formed)
    (h : e.canonical.Legible .readable) :
    ofText (e.format indent) = .ok e.canonical.asRead := by
  have hformed := formed_canonical htyped he
  have hseparate := separate_of_legible (fun _ => Duration.text_ne_nil_of_reread) _ h
  unfold ofText
  rw [tokens_format indent he h]
  simp only
  rw [whole_tokens hformed hseparate, reread_eq_asRead _ hformed h, Reading.ok_bind]
  simp only
  rw [if_pos (wellTyped_asRead (wellTyped_canonical htyped))]
  rfl

/-- An expression that is read as one that is the same does not run into itself where it is
written, since it would weigh more than its tokens otherwise. -/
theorem separate_of_same {c : Expr} (hc : c.Formed) (hcanonical : c.canonical = c)
    (h : Grammar.whole c.tokens = .ok (some e')) (hsame : c.Same e') : c.Separate := by
  have hread : e'.weight ≤ tally c.tokens := (Grammar.whole_sound h).1
  have hweight : c.weight = e'.canonical.weight := by
    rw [← weight_cut c, ← weight_cut e'.canonical, ← hsame, hcanonical]
  have hle := weight_canonical_le e'
  obtain ⟨-, hseparate⟩ := outweighs c hc []
  apply hseparate
  rw [List.append_nil, tally_nil, Nat.add_zero, hweight]
  exact Nat.le_trans hle hread

/-- A formatted expression stands for one that is the same if and only if its canonical form is
legible, down to whole milliseconds. -/
theorem ofText_format_same_iff {indent : Nat} (htyped : e.wellTyped) (he : e.Formed) :
    (∃ e', ofText (e.format indent) = .ok e' ∧ e.Same e') ↔ e.canonical.Legible .faithful := by
  have hformed := formed_canonical htyped he
  have hcanonical : e.canonical.canonical = e.canonical := canonical_canonical e
  have hsame : ∀ e', e.canonical.Same e' ↔ e.Same e' := by
    intro e'
    rw [Same, Same, hcanonical]
  constructor
  · rintro ⟨e', h, hsame'⟩
    have hwhole := whole_of_format he h
    have hsame' := (hsame e').mpr hsame'
    have hseparate := separate_of_same hformed hcanonical hwhole hsame'
    rw [whole_tokens hformed hseparate] at hwhole
    exact (reread_same_iff hformed hseparate hcanonical).mp ⟨e', hwhole, hsame'⟩
  · intro h
    have hseparate := separate_of_legible (fun _ => Duration.text_ne_nil_of_readable) _ h
    have hreadable := ((readable_and_cut_asRead_iff e.canonical).mpr h).1
    obtain ⟨e', hreread, hsame'⟩ := (reread_same_iff hformed hseparate hcanonical).mpr h
    rw [reread_eq_asRead _ hformed hreadable] at hreread
    cases hreread
    exact ⟨_, ofText_format indent htyped he hreadable, (hsame _).mp hsame'⟩

end Expr

end PromQL

import PromQL.Proofs.Template.Stem
import PromQL.Proofs.Text.Digits
import PromQL.Proofs.Text.Editing

/-!
# Restoring template variables

Placeholders become their variables again. Where a text is written as segments, the literal ones do
not contain the stem, a placeholder ends where a character follows that is no digit, and its decimal
is the place of the variable. So a text is what its masked form is restored to, and a text that was
never masked is not changed, whatever it spells.

The places are words of sixty-four bits, hence the bound on the number of variables, which every
text in memory satisfies.
-/

namespace PromQL

/-! ### Segments of a text -/

namespace Segment

/-- A segment behind the first one of a text: a character that no name has and name characters
behind it, or a variable. -/
inductive IsCut : Segment → Prop
  | literal {c : Char} {run : Text} (hc : ¬ isWordChar c) (hrun : ∀ d ∈ run, isWordChar d) :
      IsCut (.literal (c :: run))
  | dollar {name : Text} (hne : name ≠ []) (hname : ∀ d ∈ name, isWordChar d) :
      IsCut (.dollar name)

theorem split_spec (text : Text) :
    (∀ d ∈ (split text).1, isWordChar d) ∧ ∀ s ∈ (split text).2, s.IsCut := by
  induction text with
  | nil => simp [split]
  | cons c cs ih =>
    obtain ⟨hrun, hsegments⟩ := ih
    simp only [split]
    split_ifs with hc hdollar
    · exact ⟨List.forall_mem_cons.mpr ⟨hc, hrun⟩, hsegments⟩
    · have hne : (split cs).1 ≠ [] := by simp at hdollar; exact hdollar.2
      exact ⟨by simp, List.forall_mem_cons.mpr ⟨.dollar hne hrun, hsegments⟩⟩
    · exact ⟨by simp, List.forall_mem_cons.mpr ⟨.literal hc hrun, hsegments⟩⟩

theorem text_infix_of_mem_ofText {text : Text} {s : Segment} (h : s ∈ ofText text) :
    s.text <:+: text := by
  obtain ⟨before, behind, hsplit⟩ := List.append_of_mem h
  have htext := flatMap_text_ofText text
  rw [hsplit, List.flatMap_append, List.flatMap_cons, ← List.append_assoc] at htext
  exact ⟨_, _, htext⟩

end Segment

namespace Placeholders

/-! ### Look-up -/

theorem index?_decimal {n : Nat} (h : n < wordCount) : index? (decimal n) = some n := by
  have hplus : ∀ cs, decimal n ≠ '+' :: cs := by
    intro cs hcs
    have : '+'.isDigit := isDigit_of_mem_decimal (n := n) (by rw [hcs]; exact List.mem_cons_self)
    exact absurd this (by decide)
  unfold index?
  split
  · next cs hcs => exact absurd hcs (hplus cs)
  · simp [natural?_decimal, h]

theorem get?_key (m : Placeholders) {n : Nat} (h : n < wordCount) :
    m.get? (key m.stem n) = m.occurrences[n]? := by
  simp [get?, key, isPrefixOf?_append, index?_decimal h]

/-! ### One piece of a text -/

theorem unmasking?_eq_none {m : Placeholders} {text : Text} (h : ¬ m.stem <+: text) :
    m.unmasking? text = none := by
  simp [unmasking?, isPrefixOf?_eq_none_iff.mpr h]

/-- Text without the stem stays as it is, if what follows does not go on like a stem. -/
theorem editAll_literal {m : Placeholders} {n : Nat} (hstem : m.stem = stemOf n) {t rest : Text}
    (ht : ¬ m.stem <:+: t) (hrest : ∀ c ∈ rest.head?, ¬ isStemTail c) :
    editAll m.unmasking? (t ++ rest) = t ++ editAll m.unmasking? rest := by
  apply editAll_append_of_none
  rintro a b rfl hb
  apply unmasking?_eq_none
  intro hpre
  rw [hstem] at hpre ht
  have hinside : stemOf n <+: b := stemOf_prefix_of_append hb hrest hpre
  exact ht (hinside.isInfix.trans (List.suffix_append a b).isInfix)

/-- A placeholder becomes its variable, if no digit follows. -/
theorem editAll_key {m : Placeholders} {n : Nat} (hstem : m.stem = stemOf n) {i : Nat} {v : Text}
    (hv : m.occurrences[i]? = some v) (hi : i < wordCount) {rest : Text}
    (hrest : ∀ c ∈ rest.head?, ¬ c.isDigit) :
    editAll m.unmasking? (key m.stem i ++ rest) = v ++ editAll m.unmasking? rest := by
  have hdigits : (decimal i ++ rest).takeWhile Char.isDigit = decimal i := by
    rw [List.takeWhile_append_of_pos fun c hc => isDigit_of_mem_decimal hc]
    cases rest with
    | nil => simp
    | cons c cs => simp [hrest c rfl]
  have hedit : m.unmasking? (key m.stem i ++ rest) = some ⟨key m.stem i, v⟩ := by
    rw [key, List.append_assoc]
    simp only [unmasking?, isPrefixOf?_append, Option.bind_eq_bind, Option.bind_some, hdigits]
    rw [← key, get?_key m hi, hv]
    rfl
  have hne : (Edit.mk (key m.stem i) v).source ≠ [] := by simp [key, hstem, stemOf_eq_cons]
  exact editAll_append_of_some hne hedit

/-! ### A whole text -/

/-- Behind a piece of a text, cut segments go on neither like a stem nor with a digit. -/
theorem head_fill {n index : Nat} {segments : List Segment} (h : ∀ s ∈ segments, s.IsCut) :
    ∀ c ∈ (fill (stemOf n) index segments).head?, ¬ isStemTail c ∧ ¬ c.isDigit := by
  cases segments with
  | nil => simp
  | cons s segments =>
    cases h s List.mem_cons_self with
    | literal hc hrun =>
      simp only [fill_literal, List.cons_append, List.head?_cons, Option.mem_some_iff]
      rintro _ rfl
      exact ⟨fun h => hc (isWordChar_of_isStemTail h), fun h => hc (isWordChar_of_isDigit h)⟩
    | dollar hne hname =>
      simp only [fill_dollar, key, stemOf_eq_cons, List.cons_append, List.head?_cons,
        Option.mem_some_iff]
      rintro _ rfl
      decide

/-- Cut segments that were written with placeholders are restored, the ones before them having
`index` variables. -/
theorem editAll_fill {m : Placeholders} {n : Nat} (hstem : m.stem = stemOf n)
    (hcount : m.occurrences.length ≤ wordCount) {segments : List Segment}
    (hcut : ∀ s ∈ segments, s.IsCut) (hfresh : ∀ s ∈ segments, ¬ m.stem <:+: s.text)
    {index : Nat} (hdrop : m.occurrences.drop index = segments.filterMap Segment.asVariable?) :
    editAll m.unmasking? (fill m.stem index segments) = segments.flatMap Segment.text := by
  induction segments generalizing index with
  | nil => rfl
  | cons s segments ih =>
    have hcut' : ∀ s ∈ segments, s.IsCut := fun s hs => hcut s (List.mem_cons_of_mem _ hs)
    have hfresh' : ∀ s ∈ segments, ¬ m.stem <:+: s.text :=
      fun s hs => hfresh s (List.mem_cons_of_mem _ hs)
    have hnext : ∀ i, ∀ c ∈ (fill m.stem i segments).head?, ¬ isStemTail c ∧ ¬ c.isDigit :=
      fun i => hstem ▸ head_fill hcut'
    cases s with
    | literal t =>
      have ht : ¬ m.stem <:+: t := hfresh _ List.mem_cons_self
      rw [fill_literal, editAll_literal hstem ht fun c hc => (hnext index c hc).1]
      rw [ih hcut' hfresh' hdrop]
      rfl
    | dollar name =>
      have hcons : m.occurrences.drop index =
          ('$' :: name) :: segments.filterMap Segment.asVariable? := hdrop
      have hv : m.occurrences[index]? = some ('$' :: name) := by
        rw [← List.head?_drop, hcons]
        rfl
      have hi : index < m.occurrences.length := (List.getElem?_eq_some_iff.mp hv).1
      have htail : m.occurrences.drop (index + 1) = segments.filterMap Segment.asVariable? := by
        rw [← List.tail_drop, hcons]
        rfl
      rw [fill_dollar, editAll_key hstem hv (by omega) fun c hc => (hnext (index + 1) c hc).2]
      rw [ih hcut' hfresh' htail]
      rfl

/-- A text without the stem is not changed by putting variables back. -/
theorem unmask_of_not_infix {m : Placeholders} {n : Nat} (hstem : m.stem = stemOf n) {text : Text}
    (h : ¬ m.stem <:+: text) : m.unmask text = text := by
  unfold unmask
  split_ifs
  · rfl
  · have happend : editAll m.unmasking? (text ++ []) = text ++ editAll m.unmasking? [] :=
      editAll_literal hstem h (by simp)
    simpa only [List.append_nil, editAll_nil] using happend

/-- Segments without variables are written as they are. -/
theorem fill_of_no_variables {stem : Text} {index : Nat} {segments : List Segment}
    (h : segments.filterMap Segment.asVariable? = []) :
    fill stem index segments = segments.flatMap Segment.text := by
  induction segments with
  | nil => rfl
  | cons s segments ih =>
    cases s with
    | literal t =>
      rw [fill_literal, ih h]
      rfl
    | dollar name => simp [Segment.asVariable?] at h

theorem unmask_mask {text : Text} (h : (variablesOf text).length ≤ wordCount) :
    (ofText text).unmask (mask text) = text := by
  obtain ⟨n, hstem, hfresh⟩ := freshStem_spec text
  have hm : (ofText text).stem = stemOf n := hstem
  unfold unmask
  split_ifs with hempty
  · rw [mask, fill_of_no_variables (List.isEmpty_iff.mp hempty)]
    exact Segment.flatMap_text_ofText text
  · obtain ⟨-, hcut⟩ := Segment.split_spec text
    have hnot : ∀ s ∈ Segment.ofText text, ¬ (ofText text).stem <:+: s.text := fun s hs hin =>
      hfresh (hm ▸ hin.trans (Segment.text_infix_of_mem_ofText hs))
    have hmask : mask text =
        (Segment.split text).1 ++ fill (ofText text).stem 0 (Segment.split text).2 := rfl
    have hnext : ∀ c ∈ (fill (ofText text).stem 0 (Segment.split text).2).head?,
        ¬ isStemTail c := fun c hc => (head_fill (n := n) hcut c (hm ▸ hc)).1
    have hrun : ¬ (ofText text).stem <:+: (Segment.split text).1 := hnot _ List.mem_cons_self
    rw [hmask, editAll_literal hm hrun hnext]
    rw [editAll_fill hm h hcut fun s hs => hnot s (List.mem_cons_of_mem _ hs)]
    · exact Segment.split_text text
    · rfl

/-- Masking a text and putting the variables back gives the text again, and so does putting them
back where there is no placeholder. -/
theorem unmask_mask_and_unmask_self (text : Text) (h : (variablesOf text).length ≤ wordCount) :
    (ofText text).unmask (mask text) = text ∧ (ofText text).unmask text = text := by
  obtain ⟨n, hstem, hfresh⟩ := freshStem_spec text
  have hm : (ofText text).stem = stemOf n := hstem
  exact ⟨unmask_mask h, unmask_of_not_infix hm (hm ▸ hfresh)⟩

/-- A text that spells two stems, with adjacent variables, variables that go on like a stem, dollar
signs without a name, and more than ten variables. -/
def crowdedText : Text :=
  "VAR0\x7bVAR_=\"$a$b1\"\x7d $ $$VAR$__0$ + $_$A$R$c$d$e$f$g$h".toList

theorem unmask_mask_crowdedText :
    (variablesOf crowdedText).length = 13 ∧ (ofText crowdedText).stem = "VAR__".toList ∧
      (ofText crowdedText).unmask (mask crowdedText) = crowdedText ∧
      (ofText crowdedText).unmask crowdedText = crowdedText :=
  ⟨by decide, by decide, unmask_mask_and_unmask_self crowdedText (by decide)⟩

end Placeholders

end PromQL

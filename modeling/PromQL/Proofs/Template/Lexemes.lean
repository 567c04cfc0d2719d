import PromQL.Proofs.Template.Atoms
import PromQL.Proofs.Template.Renumbering
import PromQL.Proofs.Token.Variables

/-!
# Lexemes with placeholders

Whether a text with placeholders is the name of a label, or the body of a string, does not depend on
the numbers of the placeholders. A text can be masked part by part, if the parts are cut behind a
separator, or where no name goes on.
-/

namespace PromQL

namespace Placeholders

/-! ### Names -/

/-- Whether a masked text is a name does not depend on the placeholders. -/
theorem all_isWordChar_fill (n k i j : Nat) (segments : List Segment) :
    (fill (stemOf n) i segments).all isWordChar = (fill (stemOf k) j segments).all isWordChar := by
  induction segments generalizing i j with
  | nil => rfl
  | cons s segments ih =>
    have hkey : ∀ n i, (key (stemOf n) i).all isWordChar = true := fun n i =>
      List.all_eq_true.mpr fun _ => isWordChar_of_mem_key
    cases s with
    | literal t => rw [fill_literal, fill_literal, List.all_append, List.all_append, ih]
    | dollar name => rw [fill_dollar, fill_dollar, List.all_append, List.all_append, hkey, hkey, ih]

theorem head?_fill (n k i j : Nat) (segments : List Segment) :
    (fill (stemOf n) i segments).head? = (fill (stemOf k) j segments).head? := by
  induction segments generalizing i j with
  | nil => rfl
  | cons s segments ih =>
    cases s with
    | literal t => rw [fill_literal, fill_literal, List.head?_append, List.head?_append, ih]
    | dollar name => rw [fill_dollar, fill_dollar, Forms.key_append, Forms.key_append]; rfl

theorem isBareLabel_eq (text : Text) :
    isBareLabel text = ((text.head?.any isWordStart) && text.all isWordChar) := by
  cases text with
  | nil => rfl
  | cons c cs =>
    rw [isBareLabel, isName_cons, List.head?_cons, Option.any_some, List.all_cons]
    cases hc : isWordStart c with
    | false => rfl
    | true =>
      rw [isWordChar_of_isWordStart hc]
      rfl

theorem isBareLabel_maskFrom {name : Text} (h : isBareLabel (mask name)) (n i : Nat) :
    isBareLabel (maskFrom (stemOf n) i name) := by
  obtain ⟨k, hk, -⟩ := freshStem_spec name
  rw [mask, hk] at h
  rw [isBareLabel_eq] at h ⊢
  rw [maskFrom, all_isWordChar_fill n k i 0, head?_fill n k i 0]
  exact h

/-- A placeholder has three characters at least. -/
theorem length_fill {n i : Nat} {segments : List Segment}
    (h : segments.filterMap Segment.asVariable? ≠ []) :
    3 ≤ (fill (stemOf n) i segments).length := by
  induction segments generalizing i with
  | nil => exact absurd rfl h
  | cons s segments ih =>
    cases s with
    | literal t =>
      have hrest := ih (i := i) h
      rw [fill_literal, List.length_append]
      omega
    | dollar name =>
      rw [fill_dollar, key, List.length_append, List.length_append, length_stemOf]
      omega

theorem maskFrom_eq_self {name : Text} {n i : Nat} (h : (maskFrom (stemOf n) i name).length < 3) :
    maskFrom (stemOf n) i name = name := by
  by_cases hvariables : (Segment.ofText name).filterMap Segment.asVariable? = []
  · rw [maskFrom, fill_of_no_variables hvariables, Segment.flatMap_text_ofText]
  · have hlength : 3 ≤ (maskFrom (stemOf n) i name).length := length_fill hvariables
    omega

/-! ### Cuts -/

/-- A text can be cut in two: each part is masked on its own and has its own variables. -/
structure Cuts (a b : Text) : Prop where
  maskFrom : ∀ stem i, maskFrom stem i (a ++ b) =
    maskFrom stem i a ++ maskFrom stem (i + (variablesOf a).length) b
  variablesOf : variablesOf (a ++ b) = variablesOf a ++ variablesOf b

theorem cuts_of_isNameEnd (a : Text) {b : Text} (hb : IsNameEnd b) : Cuts a b := by
  refine ⟨fun stem i => ?_, variablesOf_append hb a⟩
  have hfirst : (Segment.split b).1 = [] := by
    cases b with
    | nil => rfl
    | cons c cs =>
      have hc : isWordChar c = false := Bool.eq_false_of_not_eq_true (hb c rfl)
      simp only [Segment.split, hc, Bool.false_eq_true, if_false]
      split <;> rfl
  have hsplit : Segment.ofText (a ++ b) = Segment.ofText a ++ (Segment.split b).2 := by
    rw [Segment.ofText, Segment.split_append hb]
    rfl
  rw [maskFrom, hsplit, fill_append, maskFrom, maskFrom, Segment.ofText.eq_def b, hfirst]
  rfl

theorem cuts_of_isSeparator (a : Text) {c : Char} (hc : IsSeparator c) (b : Text) :
    Cuts (a ++ [c]) b := by
  have hvariables : variablesOf (a ++ [c]) = variablesOf a := by
    rw [variablesOf_append_cons hc]
    exact List.append_nil _
  refine ⟨fun stem i => ?_, ?_⟩
  · rw [List.append_assoc, List.singleton_append, maskFrom_append_cons hc, maskFrom_append_cons hc,
      hvariables, List.append_assoc]
    rfl
  · rw [List.append_assoc, List.singleton_append, variablesOf_append_cons hc, hvariables]

/-- Separators around a text stay as they are. -/
theorem maskFrom_between {c d : Char} (hc : IsSeparator c) (hd : IsSeparator d) (stem : Text)
    (i : Nat) (text : Text) :
    maskFrom stem i (c :: text ++ [d]) = c :: maskFrom stem i text ++ [d] := by
  have hfirst := maskFrom_append_cons_of_not_mem (a := []) List.not_mem_nil hc stem i (text ++ [d])
  rw [maskFrom_append_cons hd] at hfirst
  exact hfirst

end Placeholders

namespace Lexeme

/-! ### Strings -/

variable {mark : Char} {body rest text : Text}

/-- Reads what stands between two marks, behind a backslash or not. -/
def bodyReader (mark : Char) : Reader Bool := fun escaped c =>
  if escaped then if c = mark ∨ isEscape c then some false else none
  else if c = mark then none
  else some (c == '\\')

theorem ne_backslash_of_isMark (h : isMark mark) : mark ≠ '\\' := by
  rcases isMark_cases h with rfl | rfl | rfl <;> decide

/-- Name characters and dollar signs stand for themselves. -/
theorem bodyReader_plain (hmark : isMark mark) {c : Char} (hc : isWordChar c ∨ c = '$') :
    bodyReader mark false c = some false := by
  have hnot : c ≠ mark := by
    rintro rfl
    obtain ⟨hword, hdollar⟩ := isSeparator_of_isMark hmark
    exact hc.elim hword hdollar
  have hback : (c == '\\') = false := by
    rw [beq_eq_false_iff_ne]
    rintro rfl
    exact absurd hc (by decide)
  rw [bodyReader, if_neg Bool.false_ne_true, if_neg hnot, hback]

theorem isBlind_bodyReader (hmark : isMark mark) : (bodyReader mark).IsBlind := by
  have hplain : ∀ {a}, IsAtom a → (bodyReader mark).run? false a = some false := by
    rintro _ ⟨c, cs, rfl, hc, hcs⟩
    refine Reader.run?_of_forall (List.forall_mem_cons.mpr ⟨?_, fun d hd => ?_⟩)
    · refine bodyReader_plain hmark ?_
      rcases hc with rfl | rfl <;> decide
    · exact bodyReader_plain hmark (.inl (hcs d hd))
  intro a b ha hb escaped ended h
  cases escaped with
  | false =>
    rw [hplain ha] at h
    rw [hplain hb, h]
  | true =>
    obtain ⟨c, cs, rfl, hc, -⟩ := ha
    have hnot : ¬ (c = mark ∨ isEscape c) := by
      rcases isMark_cases hmark with rfl | rfl | rfl <;> rcases hc with rfl | rfl <;> decide
    rw [Reader.run?_cons, bodyReader, if_pos rfl, if_neg hnot] at h
    cases h

theorem run?_bodyReader (hmark : isMark mark) (h : bodySpan? mark text = some (body, rest)) :
    (bodyReader mark).run? false body = some false := by
  have hback := ne_backslash_of_isMark hmark
  fun_induction bodySpan? mark text generalizing body with
  | case1 => cases h
  | case2 c cs hescape ih =>
    obtain ⟨⟨inside, behind⟩, hinside, heq⟩ := Option.map_eq_some_iff.mp h
    cases heq
    have hescape : c = mark ∨ isEscape c := by simpa using hescape
    simpa [bodyReader, hback.symm, hescape] using ih hinside
  | case3 => cases h
  | case4 =>
    cases h
    rfl
  | case5 => cases h
  | case6 c cs _ hc hplain ih =>
    obtain ⟨⟨inside, behind⟩, hinside, heq⟩ := Option.map_eq_some_iff.mp h
    cases heq
    have hc : c ≠ mark := by simpa using hc
    have hplain : (c == '\\') = false := by simpa using hplain
    simpa [bodyReader, hc, hplain] using ih hinside

theorem isBody_of_run? (hmark : isMark mark) :
    ∀ {body : Text}, (bodyReader mark).run? false body = some false → IsBody mark body := by
  have hback := ne_backslash_of_isMark hmark
  intro body h rest
  induction hn : body.length using Nat.strongRecOn generalizing body with
  | ind n ih =>
    subst hn
    match body, h, ih with
    | [], _, _ =>
      rw [List.nil_append, bodySpan?.eq_def]
      split
      · next heq => cases heq
      · next heq =>
        cases heq
        exact absurd rfl hback
      · next heq =>
        cases heq
        simp
    | c :: cs, h, ih =>
      by_cases hc : c = mark
      · simp [bodyReader, hc] at h
      by_cases hescape : c = '\\'
      · subst hescape
        match cs, h, ih with
        | [], h, _ => simp [bodyReader, hback.symm] at h
        | d :: cs, h, ih =>
          by_cases hd : d = mark ∨ isEscape d
          · have hcs : (bodyReader mark).run? false cs = some false := by
              simpa [bodyReader, hback.symm, hd] using h
            rw [List.cons_append, List.cons_append, bodySpan?_escaped _ hd,
              ih cs.length (by simp only [List.length_cons]; omega) hcs rfl]
            rfl
          · simp [bodyReader, hback.symm, hd] at h
      · have hplain : (c == '\\') = false := by simpa using hescape
        have hcs : (bodyReader mark).run? false cs = some false := by
          simpa [bodyReader, hc, hplain] using h
        rw [List.cons_append, bodySpan?_plain _ hc hescape,
          ih cs.length (Nat.lt_succ_self _) hcs rfl]
        rfl

/-- The body of a string is one with placeholders, too. -/
theorem isBody_maskFrom (hmark : isMark mark) (h : bodySpan? mark (body ++ [mark]) = some (body, []))
    (n i : Nat) : IsBody mark (Placeholders.maskFrom (Placeholders.stemOf n) i body) :=
  isBody_of_run? hmark
    (Placeholders.run?_maskFrom (isBlind_bodyReader hmark) n i (run?_bodyReader hmark h))

end Lexeme

end PromQL

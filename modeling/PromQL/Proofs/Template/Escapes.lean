import Mathlib
import PromQL.Proofs.Template.Boundaries
import PromQL.Proofs.Text.Quoted

/-!
# Variables in strings

A string has the variables of the text that it stands for, as long as its escapes stand for
separators: such a character belongs to no variable and to no placeholder, and neither does what is
written in its place. An escape for a letter, a digit or a dollar sign may make a variable of a text
that has none.
-/

namespace PromQL

/-! ### What escapes stand for -/

/-- The characters that the escapes in the rest of a body stand for. -/
def escaped (mark : Char) : EscapeState → Text → Text
  | _, [] => []
  | .plain, c :: cs => if c = '\\' then escaped mark .started cs else escaped mark .plain cs
  | .started, c :: cs =>
    if c = mark then c :: escaped mark .plain cs
    else match letterEscape? c, numericEscape? c with
      | some d, _ => d :: escaped mark .plain cs
      | none, some state => escaped mark state cs
      | none, none => []
  | .digits base left value, c :: cs =>
    match digit? base c with
    | none => []
    | some d =>
      match left with
      | 0 | 1 => (charOf? (value * base + d)).toList ++ escaped mark .plain cs
      | left + 1 => escaped mark (.digits base left (value * base + d)) cs

theorem ne_of_digit? {base d : Nat} {c : Char} (h : digit? base c = some d) :
    c ≠ 'V' ∧ c ≠ '$' := by
  constructor <;> rintro rfl <;> simp [digit?] at h

theorem ne_of_letterEscape? {c d : Char} (h : letterEscape? c = some d) : c ≠ 'V' ∧ c ≠ '$' :=
  ⟨ne_of_mem_of_not_mem (mem_of_letterEscape? h) (by decide),
    ne_of_mem_of_not_mem (mem_of_letterEscape? h) (by decide)⟩

theorem exists_of_numericEscape? {c : Char} {state : EscapeState}
    (h : numericEscape? c = some state) :
    (c ≠ 'V' ∧ c ≠ '$') ∧ ∃ base left value, state = .digits base left value := by
  unfold numericEscape? at h
  split_ifs at h with hx hu hU
  · cases h
    exact ⟨by rw [hx]; decide, _, _, _, rfl⟩
  · cases h
    exact ⟨by rw [hu]; decide, _, _, _, rfl⟩
  · cases h
    exact ⟨by rw [hU]; decide, _, _, _, rfl⟩
  · obtain ⟨d, hd, rfl⟩ := Option.map_eq_some_iff.mp h
    exact ⟨ne_of_digit? hd, _, _, _, rfl⟩

/-- What a character does inside of an escape: it is the last of the escape, which then stands for a
character, or the escape goes on behind it, or there is no such escape. -/
inductive EscapeStep (mark : Char) (state : EscapeState) (c : Char) : Prop where
  | ends (d : Char) (hc : c ≠ 'V' ∧ c ≠ '$')
      (hread : ∀ cs, unescape? mark state (c :: cs) = (unescape? mark .plain cs).map (d :: ·))
      (hescaped : ∀ cs, escaped mark state (c :: cs) = d :: escaped mark .plain cs)
  | continues (next : EscapeState) (hnext : next ≠ .plain) (hc : c ≠ 'V' ∧ c ≠ '$')
      (hread : ∀ cs, unescape? mark state (c :: cs) = unescape? mark next cs)
      (hescaped : ∀ cs, escaped mark state (c :: cs) = escaped mark next cs)
  | breaks (hread : ∀ cs, unescape? mark state (c :: cs) = none)

theorem escapeStep_started {mark : Char} (hmark : mark ≠ 'V' ∧ mark ≠ '$') (c : Char) :
    EscapeStep mark .started c := by
  by_cases hc : c = mark
  · exact .ends c (hc ▸ hmark) (fun cs => by rw [unescape?, if_pos hc])
      fun cs => by rw [escaped, if_pos hc]
  cases hletter : letterEscape? c with
  | some d =>
    exact .ends d (ne_of_letterEscape? hletter)
      (fun cs => by simp only [unescape?, if_neg hc, hletter])
      fun cs => by simp only [escaped, if_neg hc, hletter]
  | none =>
    cases hnumber : numericEscape? c with
    | some next =>
      obtain ⟨hne, base, left, value, rfl⟩ := exists_of_numericEscape? hnumber
      exact .continues (.digits base left value) EscapeState.noConfusion hne
        (fun cs => by simp only [unescape?, if_neg hc, hletter, hnumber])
        fun cs => by simp only [escaped, if_neg hc, hletter, hnumber]
    | none => exact .breaks fun cs => by simp only [unescape?, if_neg hc, hletter, hnumber]

theorem escapeStep_digits (mark : Char) (base left value : Nat) (c : Char) :
    EscapeStep mark (.digits base left value) c := by
  cases hd : digit? base c with
  | none => exact .breaks fun cs => by rw [unescape?, hd]; rfl
  | some d =>
    have hlast {left : Nat} (hleft : left = 0 ∨ left = 1) :
        EscapeStep mark (.digits base left value) c := by
      by_cases hlimit : value * base + d < escapeLimit base
      · cases he : charOf? (value * base + d) with
        | some e =>
          refine .ends e (ne_of_digit? hd) (fun cs => ?_) fun cs => ?_
          · rcases hleft with rfl | rfl <;> simp [unescape?, hd, hlimit, he]
          · rcases hleft with rfl | rfl <;> simp [escaped, hd, he]
        | none =>
          refine .breaks fun cs => ?_
          rcases hleft with rfl | rfl <;> simp [unescape?, hd, he]
      · refine .breaks fun cs => ?_
        rcases hleft with rfl | rfl <;> simp [unescape?, hd, hlimit]
    rcases left with _ | _ | left
    · exact hlast (.inl rfl)
    · exact hlast (.inr rfl)
    · exact .continues (.digits base (left + 1) (value * base + d)) EscapeState.noConfusion
        (ne_of_digit? hd) (fun cs => unescape?_digit hd) fun cs => by simp only [escaped, hd]

theorem escapeStep {mark : Char} (hmark : mark ≠ 'V' ∧ mark ≠ '$') {state : EscapeState}
    (hstate : state ≠ .plain) (c : Char) : EscapeStep mark state c := by
  cases state with
  | plain => exact absurd rfl hstate
  | started => exact escapeStep_started hmark c
  | digits base left value => exact escapeStep_digits mark base left value c

/-! ### Escapes that are written -/

theorem IsSeparator.of_isControl {c : Char} (h : isControl c) : IsSeparator c := by
  refine .of_toNat ?_
  simp only [isControl, Bool.or_eq_true, Bool.and_eq_true, decide_eq_true_eq] at h
  omega

theorem isFixed_of_naturalFrom? {base value number : Nat} {ds : Text}
    (h : naturalFrom? base value ds = some number) : IsFixed ds := by
  intro c hc
  obtain ⟨d, hd⟩ := exists_of_naturalFrom? h c hc
  exact ne_of_digit? hd

/-- What is written for a character is the character, or an escape for a separator. -/
theorem escape_cases (c : Char) :
    escape c = [c] ∨ IsSeparator c ∧ ∃ code, IsFixed code ∧ escape c = '\\' :: code := by
  have h := writtenForm_escape c
  generalize escape c = form at h
  cases h with
  | itself => exact .inl rfl
  | mark => exact .inr ⟨⟨by decide, by decide⟩, ['"'], by decide, rfl⟩
  | @letter _ d h hc =>
    have hseparator : IsSeparator c := by
      rcases hc with hcontrol | rfl
      · exact .of_isControl hcontrol
      · exact ⟨by decide, by decide⟩
    exact .inr ⟨hseparator, [d], List.forall_mem_singleton.mpr (ne_of_letterEscape? h), rfl⟩
  | code hcontrol =>
    obtain ⟨-, hvalue⟩ := hexPadded_control c.toNat (toNat_lt_of_isControl hcontrol)
    have hdigits : IsFixed (hexPadded 4 c.toNat) := isFixed_of_naturalFrom? hvalue
    exact .inr ⟨.of_isControl hcontrol, 'u' :: hexPadded 4 c.toNat,
      List.forall_mem_cons.mpr ⟨by decide, hdigits⟩, rfl⟩

namespace Placeholders

variable {m : Placeholders} {n : Nat}

/-! ### Strings that are read -/

/-- The rest of a body has the variables of the text that it stands for, whatever is in front of
both. Inside of an escape, that text starts with the character which the escape stands for. -/
def Keeps (m : Placeholders) (body value : Text) : EscapeState → Prop
  | .plain => ∀ a, m.restored (a ++ body) = m.restored (a ++ value)
  | _ => ∃ c rest, value = c :: rest ∧ IsSeparator c ∧ m.restored body = m.restored rest

theorem keeps_iff {state : EscapeState} (hstate : state ≠ .plain) {body value : Text} :
    m.Keeps body value state ↔
      ∃ c rest, value = c :: rest ∧ IsSeparator c ∧ m.restored body = m.restored rest := by
  cases state with
  | plain => exact absurd rfl hstate
  | _ => rfl

theorem keeps_unescape? (hstem : m.stem = stemOf n) {mark : Char} (hmark : mark ≠ 'V' ∧ mark ≠ '$')
    {state : EscapeState} {body value : Text} (h : unescape? mark state body = some value)
    (hescaped : ∀ c ∈ escaped mark state body, IsSeparator c) : m.Keeps body value state := by
  induction body generalizing state value with
  | nil =>
    cases state with
    | plain =>
      cases h
      exact fun a => rfl
    | _ => cases h
  | cons c cs ih =>
    by_cases hstate : state = .plain
    · subst hstate
      intro a
      simp only [unescape?, escaped] at h hescaped
      split_ifs at h hescaped with hn hback
      · obtain ⟨d, rest, rfl, hd, hrest⟩ := ih h hescaped
        subst hback
        rw [restored_append_cons hstem ⟨by decide, by decide⟩, restored_append_cons hstem hd, hrest]
      · obtain ⟨rest, hrest, rfl⟩ := Option.map_eq_some_iff.mp h
        have hbehind := ih hrest hescaped (a ++ [c])
        simpa using hbehind
    · rw [keeps_iff hstate]
      cases escapeStep hmark hstate c with
      | ends d hc hread hends =>
        rw [hread] at h
        rw [hends, List.forall_mem_cons] at hescaped
        obtain ⟨rest, hrest, rfl⟩ := Option.map_eq_some_iff.mp h
        have hbehind := ih hrest hescaped.2 []
        exact ⟨d, rest, rfl, hescaped.1, (restored_cons hstem hc cs).trans hbehind⟩
      | continues next hnext hc hread hends =>
        rw [hread] at h
        rw [hends] at hescaped
        obtain ⟨d, rest, rfl, hd, hrest⟩ := (keeps_iff hnext).mp (ih h hescaped)
        exact ⟨d, rest, rfl, hd, (restored_cons hstem hc cs).trans hrest⟩
      | breaks hread =>
        rw [hread] at h
        cases h

/-- A string whose escapes stand for separators has the variables of its value. -/
theorem restored_of_unquote? (hstem : m.stem = stemOf n) {mark : Char}
    (hmark : mark ≠ 'V' ∧ mark ≠ '$') {body value : Text} (h : unquote? mark body = some value)
    (hescaped : mark ≠ backtick → ∀ c ∈ escaped mark .plain body, IsSeparator c) :
    m.restored body = m.restored value := by
  unfold unquote? at h
  split_ifs at h with hraw
  · cases h
    rfl
  · exact keeps_unescape? hstem hmark h (hescaped hraw) []

/-! ### Written strings -/

/-- A string has the variables of the text that it is written for. -/
theorem restored_flatMap_escape (hstem : m.stem = stemOf n) (value a : Text) :
    m.restored (a ++ value.flatMap escape) = m.restored (a ++ value) := by
  induction value generalizing a with
  | nil => rfl
  | cons c cs ih =>
    have hback : IsSeparator '\\' := ⟨by decide, by decide⟩
    rw [List.flatMap_cons]
    rcases escape_cases c with hescape | ⟨hc, code, hcode, hescape⟩
    · rw [hescape, ← List.append_assoc, ih, List.append_assoc, List.singleton_append]
    · rw [hescape, List.cons_append, restored_append_cons hstem hback,
        restored_append_of_isFixed hstem hcode, restored_append_cons hstem hc]
      exact congrArg _ (ih [])

/-- Marks count nothing. -/
theorem restored_marked (hstem : m.stem = stemOf n) {mark : Char} (hmark : IsSeparator mark)
    (body rest : Text) :
    m.restored (mark :: body ++ [mark] ++ rest) = m.restored body + m.restored rest := by
  rw [List.cons_append, List.cons_append, restored_cons hstem hmark.isFixed, List.append_assoc,
    List.singleton_append, restored_append_cons hstem hmark]

theorem restored_quote (hstem : m.stem = stemOf n) (value : Text) :
    m.restored (quote value) = m.restored value := by
  have hmark : IsSeparator '"' := ⟨by decide, by decide⟩
  have hmarked := restored_marked hstem hmark (value.flatMap escape) []
  rw [List.append_nil, restored_nil, add_zero] at hmarked
  exact hmarked.trans (restored_flatMap_escape hstem value [])

end Placeholders

end PromQL

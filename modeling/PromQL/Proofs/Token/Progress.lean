import Mathlib.Tactic.SplitIfs
import PromQL.Token.Lexer

/-!
# The lexer moves on

Every token takes at least one character of the text, so the steps that the lexer is given are
always enough. `Token.scan` is the lexer without a count of steps, with one equation for each thing
that a text can start with.
-/

namespace PromQL

namespace Lexeme

/-! ### Parts of tokens -/

theorem spanOf_append (p : Char → Bool) (text : Text) :
    (spanOf p text).1 ++ (spanOf p text).2 = text :=
  List.takeWhile_append_dropWhile

theorem optionalOf_append (p : Char → Bool) (text : Text) :
    (optionalOf p text).1 ++ (optionalOf p text).2 = text := by
  cases text with
  | nil => rfl
  | cons c cs =>
    simp only [optionalOf]
    split_ifs <;> rfl

theorem length_spanOf (p : Char → Bool) (text : Text) : (spanOf p text).2.length ≤ text.length := by
  have h := congrArg List.length (spanOf_append p text)
  rw [List.length_append] at h
  omega

theorem length_optionalOf (p : Char → Bool) (text : Text) :
    (optionalOf p text).2.length ≤ text.length := by
  have h := congrArg List.length (optionalOf_append p text)
  rw [List.length_append] at h
  omega

theorem length_spanOf_of_head {p : Char → Bool} {c : Char} {cs : Text} (h : p c) :
    (spanOf p (c :: cs)).2.length < (c :: cs).length := by
  have hcs := length_spanOf p cs
  simp only [spanOf, List.dropWhile_cons_of_pos h, List.length_cons] at hcs ⊢
  omega

/-! ### Numbers and durations -/

theorem baseSpan_append (text : Text) : (baseSpan text).1 ++ (baseSpan text).2.2 = text := by
  unfold baseSpan
  split <;> rfl

theorem fractionSpan_append (isDigit : Char → Bool) (text : Text) :
    (fractionSpan isDigit text).1 ++ (fractionSpan isDigit text).2 = text := by
  unfold fractionSpan
  split
  · exact congrArg ('.' :: ·) (spanOf_append isDigit _)
  · rfl

theorem exponentSpan_append (text : Text) :
    (exponentSpan text).1 ++ (exponentSpan text).2 = text := by
  have hletter := optionalOf_append (fun c => c == 'e' || c == 'E') text
  unfold exponentSpan
  split
  · next rest heq =>
    rw [heq] at hletter
    exact hletter
  · next e rest _ heq =>
    rw [heq] at hletter
    simp only [List.append_assoc, spanOf_append, optionalOf_append]
    exact hletter

/-- What a number takes from a text, and the text behind it, are the text. -/
theorem numberSpan_append (text : Text) :
    (numberSpan text).1 ++ (numberSpan text).2 = text := by
  simp only [numberSpan, List.append_assoc, exponentSpan_append, fractionSpan_append,
    spanOf_append, baseSpan_append]

theorem length_unitSpan? {units : String} {text unit rest : Text}
    (h : unitSpan? units text = some (unit, rest)) : rest.length < text.length := by
  cases text with
  | nil => simp [unitSpan?] at h
  | cons c cs =>
    simp only [unitSpan?] at h
    split_ifs at h
    simp only [Option.some.injEq, Prod.mk.injEq] at h
    rw [← h.2, List.length_cons]
    exact Nat.lt_succ_of_le (length_optionalOf _ cs)

theorem length_groupsSpan? {fuel : Nat} {text groups rest : Text}
    (h : groupsSpan? fuel text = some (groups, rest)) : rest.length ≤ text.length := by
  induction fuel generalizing text groups rest with
  | zero => simp [groupsSpan?] at h
  | succ fuel ih =>
    have hdigits := length_spanOf Char.isDigit text
    rw [groupsSpan?] at h
    split at h
    · next rest' heq =>
      rw [heq] at hdigits
      simp only [Option.some.injEq, Prod.mk.injEq] at h
      rw [← h.2]
      exact hdigits
    · next digits rest' _ heq =>
      rw [heq] at hdigits
      simp only [Option.bind_eq_bind, Option.bind_eq_some_iff, Option.pure_def,
        Option.some.injEq, Prod.exists, Prod.mk.injEq] at h
      obtain ⟨unit, afterUnit, hunit, more, behind, hmore, -, rfl⟩ := h
      have h₁ := length_unitSpan? hunit
      have h₂ := ih hmore
      simp only at hdigits
      omega

theorem length_durationSpan? {text duration rest : Text}
    (h : durationSpan? text = some (duration, rest)) : rest.length < text.length := by
  simp only [durationSpan?, Option.bind_eq_bind, Option.bind_eq_some_iff, Prod.exists] at h
  obtain ⟨unit, afterUnit, hunit, groups, behind, hgroups, h⟩ := h
  split_ifs at h
  simp only [Option.pure_def, Option.some.injEq, Prod.mk.injEq] at h
  have h₁ := length_unitSpan? hunit
  have h₂ := length_groupsSpan? hgroups
  rw [← h.2]
  omega

theorem numberSpan_ne_nil {c : Char} {cs : Text} (h : c.isDigit ∨ c = '.') :
    (numberSpan (c :: cs)).1 ≠ [] := by
  simp only [numberSpan]
  unfold baseSpan
  split
  · simp
  · simp
  · rcases h with hdigit | rfl
    · simp [spanOf, hdigit]
    · have hpoint : '.'.isDigit = false := by decide
      simp [spanOf, hpoint, fractionSpan]

theorem length_quantity? {text rest : Text} {t : Token} (hne : (numberSpan text).1 ≠ [])
    (h : quantity? text = some (t, rest)) : rest.length < text.length := by
  have hlength := congrArg List.length (numberSpan_append text)
  have hpos : 0 < (numberSpan text).1.length := List.length_pos_iff.mpr hne
  rw [List.length_append] at hlength
  simp only [quantity?] at h
  split_ifs at h
  · simp only [Option.bind_eq_bind, Option.bind_eq_some_iff, Option.pure_def, Option.some.injEq,
      Prod.exists, Prod.mk.injEq] at h
    obtain ⟨more, behind, hmore, -, rfl⟩ := h
    have hduration := length_durationSpan? hmore
    omega
  · simp only [Option.some.injEq, Prod.mk.injEq] at h
    rw [← h.2]
    omega

/-! ### Strings -/

theorem length_bodySpan? {mark : Char} {text body rest : Text}
    (h : bodySpan? mark text = some (body, rest)) : rest.length < text.length := by
  fun_induction bodySpan? mark text generalizing body with
  | case1 => simp at h
  | case2 c cs hescape ih =>
    simp only [Option.map_eq_some_iff, Prod.exists, Prod.mk.injEq] at h
    obtain ⟨body', rest', hbody, -, rfl⟩ := h
    have hshorter := ih hbody
    simp only [List.length_cons]
    omega
  | case3 => simp at h
  | case4 => simp at h; simp [← h.2]
  | case5 => simp at h
  | case6 c cs _ _ _ ih =>
    simp only [Option.map_eq_some_iff, Prod.exists, Prod.mk.injEq] at h
    obtain ⟨body', rest', hbody, -, rfl⟩ := h
    have hshorter := ih hbody
    simp only [List.length_cons]
    omega

theorem length_string? {mark : Char} {text rest : Text} {t : Token}
    (h : string? mark text = some (t, rest)) : rest.length < text.length := by
  simp only [string?, Option.map_eq_some_iff, Prod.exists, Prod.mk.injEq] at h
  obtain ⟨body, rest', hbody, -, rfl⟩ := h
  exact length_bodySpan? hbody

end Lexeme

/-! ### Signs -/

/-- Whether a token is a sign: neither a word nor a number nor a string. -/
def Token.isSign : Token → Bool
  | .number _ | .duration _ | .string .. | .identifier _ | .metric _ | .keyword .. => false
  | _ => true

/-- Where the lexer stands behind a token. -/
def LexMode.after (mode : LexMode) : Token → LexMode
  | .leftBrace => .braces
  | .leftBracket => .brackets false
  | .rightBrace | .rightBracket => .plain
  | .colon => .brackets true
  | _ => mode

namespace Lexeme

/-- What a token is that starts with a character outside of braces and brackets. -/
theorem plain?_cases {c : Char} {cs : Text} {l : Lexeme} (h : plain? (c :: cs) = some l) :
    (l.token.isSign ∧ l.mode = LexMode.plain.after l.token ∧ ∃ n, l.rest = cs.drop n) ∨
    ((c.isDigit ∨ c = '.') ∧ (quantity? (c :: cs)).map (stay .plain) = some l) ∨
    ((isWordStart c ∨ c = ':') ∧ l = stay .plain (word (c :: cs))) ∨
    (isMark c ∧ (string? c cs).map (stay .plain) = some l) := by
  unfold plain? at h
  split at h
  all_goals rename_i heq; cases heq
  all_goals try cases h
  all_goals try exact .inl ⟨rfl, rfl, 0, rfl⟩
  all_goals try exact .inl ⟨rfl, rfl, 1, rfl⟩
  -- no sign is left
  split_ifs at h with hnumber hword hmark
  · refine .inr (.inl ⟨?_, h⟩)
    simp only [Bool.or_eq_true, Bool.and_eq_true, beq_iff_eq] at hnumber
    exact hnumber.imp_right And.left
  · refine .inr (.inr (.inl ⟨?_, (Option.some.inj h).symm⟩))
    simpa only [Bool.or_eq_true, beq_iff_eq] using hword
  · exact .inr (.inr (.inr ⟨hmark, h⟩))

/-- What a token is that starts with a character inside braces. -/
theorem braces?_cases {c : Char} {cs : Text} {l : Lexeme} (h : braces? (c :: cs) = some l) :
    (l.token.isSign ∧ l.mode = LexMode.braces.after l.token ∧ ∃ n, l.rest = cs.drop n) ∨
    (isMark c ∧ (string? c cs).map (stay .braces) = some l) ∨
    (isWordStart c ∧ l = ⟨.identifier ((c :: cs).takeWhile isWordChar), .braces,
      (c :: cs).dropWhile isWordChar⟩) := by
  unfold braces? at h
  split at h
  all_goals rename_i heq; cases heq
  all_goals try cases h
  all_goals try exact .inl ⟨rfl, rfl, 0, rfl⟩
  all_goals try exact .inl ⟨rfl, rfl, 1, rfl⟩
  -- no sign of one or two characters is left
  split_ifs at h with hmark hword
  · exact .inr (.inl ⟨hmark, h⟩)
  · have happend := spanOf_append isWordChar (c :: cs)
    split at h
    · next o r rest heq =>
      rw [heq] at happend
      split_ifs at h with hor
      · cases h
        obtain ⟨-, rfl⟩ := List.cons.inj happend
        exact .inl ⟨rfl, rfl, 2, rfl⟩
      · cases h
        obtain ⟨htake, hdrop⟩ := Prod.mk.inj heq
        exact .inr (.inr ⟨hword, by rw [htake, hdrop]⟩)
    · next name rest _ heq =>
      cases h
      obtain ⟨htake, hdrop⟩ := Prod.mk.inj heq
      exact .inr (.inr ⟨hword, by rw [htake, hdrop]⟩)

/-- What a token is that starts with a character inside brackets. -/
theorem brackets?_cases {colon : Bool} {c : Char} {cs : Text} {l : Lexeme}
    (h : brackets? colon (c :: cs) = some l) :
    (l.token.isSign ∧ l.mode = (LexMode.brackets colon).after l.token ∧ l.rest = cs) ∨
    (c.isDigit ∧ (quantity? (c :: cs)).map (stay (.brackets colon)) = some l) := by
  unfold brackets? at h
  split at h
  · next heq => cases heq
  · next heq =>
    cases heq
    cases h
    exact .inl ⟨rfl, rfl, rfl⟩
  · next heq =>
    cases heq
    split_ifs at h
    cases h
    exact .inl ⟨rfl, rfl, rfl⟩
  · next heq =>
    cases heq
    split_ifs at h with hdigit
    exact .inr ⟨hdigit, h⟩

theorem isWordChar_or_colon_of_start {c : Char} (h : isWordStart c ∨ c = ':') :
    isWordChar c || c == ':' := by
  rcases h with h | rfl
  · simp [isWordChar_of_isWordStart h]
  · rfl

theorem length_map_stay {mode : LexMode} {text : Text} {next : Option (Token × Text)} {l : Lexeme}
    (h : next.map (stay mode) = some l) (hshorter : ∀ t rest, next = some (t, rest) →
      rest.length < text.length) : l.rest.length < text.length := by
  obtain ⟨⟨t, rest⟩, hnext, rfl⟩ := Option.map_eq_some_iff.mp h
  exact hshorter t rest hnext

/-- Every token takes at least one character. -/
theorem length_read? {mode : LexMode} {text : Text} {l : Lexeme} (h : read? mode text = some l) :
    l.rest.length < text.length := by
  cases text with
  | nil => cases mode <;> simp [read?, plain?, braces?, brackets?] at h
  | cons c cs =>
    have hdrop : ∀ n, (cs.drop n).length < (c :: cs).length := by
      intro n
      rw [List.length_drop, List.length_cons]
      omega
    have hnumber : (c.isDigit ∨ c = '.') → ∀ t rest, quantity? (c :: cs) = some (t, rest) →
        rest.length < (c :: cs).length :=
      fun hc t rest => length_quantity? (numberSpan_ne_nil hc)
    have hstring : ∀ t rest, string? c cs = some (t, rest) → rest.length < (c :: cs).length :=
      fun t rest hrest => Nat.lt_succ_of_lt (length_string? hrest)
    cases mode with
    | plain =>
      rcases plain?_cases h with ⟨-, -, n, hn⟩ | ⟨hc, hl⟩ | ⟨hc, rfl⟩ | ⟨-, hl⟩
      · exact hn ▸ hdrop n
      · exact length_map_stay hl (hnumber hc)
      · exact length_spanOf_of_head (p := fun c => isWordChar c || c == ':')
          (isWordChar_or_colon_of_start hc)
      · exact length_map_stay hl hstring
    | braces =>
      rcases braces?_cases h with ⟨-, -, n, hn⟩ | ⟨-, hl⟩ | ⟨hc, rfl⟩
      · exact hn ▸ hdrop n
      · exact length_map_stay hl hstring
      · exact length_spanOf_of_head (isWordChar_of_isWordStart hc)
    | brackets colon =>
      rcases brackets?_cases h with ⟨-, -, hrest⟩ | ⟨hc, hl⟩
      · exact hrest ▸ hdrop 0
      · exact length_map_stay hl (hnumber (.inl hc))

end Lexeme

/-! ### The lexer without a count of steps -/

namespace Token

/-- The tokens of the rest of a query, in which so many steps are always enough. -/
def scan (mode : LexMode) (text : Text) : Option (List Token) :=
  scan? (text.length + 1) mode text

theorem scan?_eq_scan {fuel : Nat} {mode : LexMode} {text : Text} (h : text.length < fuel) :
    scan? fuel mode text = scan mode text := by
  induction fuel using Nat.strongRecOn generalizing mode text with
  | ind fuel ih =>
    obtain ⟨fuel, rfl⟩ := Nat.exists_eq_succ_of_ne_zero (Nat.ne_zero_of_lt h)
    have hless : ∀ mode' text', text'.length < text.length →
        scan? fuel mode' text' = scan? text.length mode' text' := by
      intro mode' text' hlength
      rw [ih fuel (by omega) (by omega), ih text.length (by omega) hlength]
    unfold scan
    cases text with
    | nil => rfl
    | cons c cs =>
      simp only [scan?]
      split_ifs with hspace hcomment
      · exact hless mode cs (by simp)
      · exact hless mode _ (Nat.lt_succ_of_le (List.dropWhile_suffix _).length_le)
      · cases hread : Lexeme.read? mode (c :: cs) with
        | none => rfl
        | some l =>
          have hshorter := Lexeme.length_read? hread
          simp only [Option.bind_eq_bind, Option.bind_some]
          rw [hless l.mode l.rest hshorter]

@[simp] theorem scan_nil (mode : LexMode) :
    scan mode [] = if mode = .plain then some [] else none := rfl

theorem scan_space {mode : LexMode} {c : Char} {cs : Text} (h : Lexeme.isSpace c) :
    scan mode (c :: cs) = scan mode cs := by
  rw [scan, scan?, if_pos h, scan?_eq_scan (by simp)]

theorem scan_comment {mode : LexMode} {cs : Text} (h : mode = .plain ∨ mode = .braces) :
    scan mode ('#' :: cs) = scan mode (cs.dropWhile fun c => !Lexeme.isLineEnd c) := by
  have hspace : ¬ Lexeme.isSpace '#' := by decide
  have hcomment : ('#' == '#' && (decide (mode = .plain) || decide (mode = .braces))) = true := by
    simpa using h
  have hlength := (List.dropWhile_suffix (l := cs) fun c => !Lexeme.isLineEnd c).length_le
  rw [scan, scan?, if_neg hspace]
  simp only [hcomment, if_true]
  exact scan?_eq_scan (by rw [List.length_cons]; omega)

/-- A token at the start of a text, in front of which there are neither blanks nor a comment. -/
theorem scan_token {mode : LexMode} {c : Char} {cs : Text} {l : Lexeme}
    (hspace : ¬ Lexeme.isSpace c) (hcomment : c ≠ '#')
    (h : Lexeme.read? mode (c :: cs) = some l) :
    scan mode (c :: cs) = (scan l.mode l.rest).map (l.token :: ·) := by
  rw [scan, scan?, if_neg hspace]
  simp only [beq_eq_false_iff_ne.mpr hcomment, Bool.false_and, Bool.false_eq_true, if_false, h,
    Option.bind_eq_bind, Option.bind_some]
  rw [scan?_eq_scan (Lexeme.length_read? h)]

theorem scan_eq_none {mode : LexMode} {c : Char} {cs : Text} (hspace : ¬ Lexeme.isSpace c)
    (hcomment : c ≠ '#') (h : Lexeme.read? mode (c :: cs) = none) : scan mode (c :: cs) = none := by
  rw [scan, scan?, if_neg hspace]
  simp [hcomment, h]

theorem ofText?_eq (text : Text) :
    ofText? text = (scan .plain text).bind fun ts => if balanced 0 ts then some ts else none := rfl

end Token

end PromQL

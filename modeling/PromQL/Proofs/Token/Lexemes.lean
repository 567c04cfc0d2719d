import Mathlib
import PromQL.Proofs.Token.Spelling

/-!
# Tokens as they stand in a text

What the lexer takes for a token is the spelling of the token, and what it leaves is the text behind
it. The word between alternatives is the exception, since it may be in any case of letters. Only
signs and strings have brackets or parentheses in them, and strings end in their mark.
-/

namespace PromQL

namespace Lexeme

variable {c : Char} {cs text rest : Text} {t : Token} {l : Lexeme}

/-! ### What a quantity takes -/

theorem unitSpan?_append {units : String} {unit : Text}
    (h : unitSpan? units text = some (unit, rest)) : unit ++ rest = text := by
  cases text with
  | nil => cases h
  | cons c cs =>
    simp only [unitSpan?] at h
    split_ifs at h
    cases h
    exact congrArg (c :: ·) (optionalOf_append _ cs)

theorem groupsSpan?_append {fuel : Nat} {groups : Text}
    (h : groupsSpan? fuel text = some (groups, rest)) : groups ++ rest = text := by
  induction fuel generalizing text groups rest with
  | zero => cases h
  | succ fuel ih =>
    have hdigits := spanOf_append Char.isDigit text
    rw [groupsSpan?] at h
    split at h
    · next heq =>
      cases h
      rwa [heq] at hdigits
    · next digits behind _ heq =>
      rw [heq] at hdigits
      obtain ⟨⟨unit, afterUnit⟩, hunit, h⟩ := Option.bind_eq_some_iff.mp h
      obtain ⟨⟨more, afterMore⟩, hmore, h⟩ := Option.bind_eq_some_iff.mp h
      cases h
      rw [← hdigits, ← unitSpan?_append hunit, ← ih hmore, List.append_assoc, List.append_assoc]

theorem durationSpan?_append {duration : Text} (h : durationSpan? text = some (duration, rest)) :
    duration ++ rest = text := by
  obtain ⟨⟨unit, afterUnit⟩, hunit, h⟩ := Option.bind_eq_some_iff.mp h
  obtain ⟨⟨groups, behind⟩, hgroups, h⟩ := Option.bind_eq_some_iff.mp h
  simp only at h
  split_ifs at h
  cases h
  rw [← unitSpan?_append hunit, ← groupsSpan?_append hgroups, List.append_assoc]

theorem quantity?_append (h : quantity? text = some (t, rest)) : t.spelling ++ rest = text := by
  have hnumber := numberSpan_append text
  simp only [quantity?] at h
  split_ifs at h
  · obtain ⟨⟨more, behind⟩, hmore, h⟩ := Option.bind_eq_some_iff.mp h
    cases h
    rw [Token.spelling, List.append_assoc, durationSpan?_append hmore, hnumber]
  · cases h
    exact hnumber

/-! ### What strings and words take -/

theorem bodySpan?_spec {mark : Char} {body : Text} (h : bodySpan? mark text = some (body, rest)) :
    body ++ mark :: rest = text := by
  fun_induction bodySpan? mark text generalizing body with
  | case1 => cases h
  | case2 c cs hescape ih =>
    obtain ⟨⟨body', rest'⟩, hbody, h⟩ := Option.map_eq_some_iff.mp h
    cases h
    exact congrArg ('\\' :: c :: ·) (ih hbody)
  | case3 => cases h
  | case4 c cs _ hmark =>
    cases h
    rw [beq_iff_eq.mp hmark]
    rfl
  | case5 => cases h
  | case6 c cs _ _ _ ih =>
    obtain ⟨⟨body', rest'⟩, hbody, h⟩ := Option.map_eq_some_iff.mp h
    cases h
    exact congrArg (c :: ·) (ih hbody)

theorem string?_append {mark : Char} (h : string? mark text = some (t, rest)) :
    t.spelling ++ rest = mark :: text := by
  obtain ⟨⟨body, behind⟩, hbody, h⟩ := Option.map_eq_some_iff.mp h
  cases h
  rw [← bodySpan?_spec hbody]
  simp [Token.spelling]

theorem word_append (text : Text) : (word text).1.spelling ++ (word text).2 = text := by
  rw [word, spelling_ofWord]
  exact spanOf_append _ text

theorem stay_append {mode : LexMode} {next : Option (Token × Text)}
    (hl : next.map (stay mode) = some l)
    (h : ∀ t rest, next = some (t, rest) → t.spelling ++ rest = text) :
    l.token.spelling ++ l.rest = text := by
  obtain ⟨⟨t, rest⟩, hnext, rfl⟩ := Option.map_eq_some_iff.mp hl
  exact h t rest hnext

/-! ### What a token takes -/

theorem plain?_append (h : plain? (c :: cs) = some l) : l.token.spelling ++ l.rest = c :: cs := by
  unfold plain? at h
  split at h
  all_goals rename_i heq; cases heq
  all_goals try cases h
  all_goals try rfl
  -- no sign is left
  split_ifs at h
  · exact stay_append h fun t rest => quantity?_append
  · cases h
    exact word_append _
  · exact stay_append h fun t rest => string?_append

theorem braces?_append (h : braces? (c :: cs) = some l) :
    l.token.spelling ++ l.rest = c :: cs ∨
      l.token = .orWord ∧ ∃ o r, isWordChar o ∧ isWordChar r ∧
        c :: cs = o :: r :: ' ' :: l.rest := by
  unfold braces? at h
  split at h
  all_goals rename_i heq; cases heq
  all_goals try cases h
  all_goals try exact .inl rfl
  -- no sign of one or two characters is left
  split_ifs at h
  · exact .inl (stay_append h fun t rest => string?_append)
  · have happend := spanOf_append isWordChar (c :: cs)
    split at h
    · next o r rest heq =>
      rw [heq] at happend
      split_ifs at h
      · cases h
        have hname : (c :: cs).takeWhile isWordChar = [o, r] := congrArg Prod.fst heq
        have hall : ∀ d ∈ [o, r], isWordChar d := fun d hd => List.mem_takeWhile_imp (hname ▸ hd)
        exact .inr ⟨rfl, o, r, hall o (by simp), hall r (by simp), happend.symm⟩
      · cases h
        exact .inl happend
    · next heq =>
      cases h
      rw [heq] at happend
      exact .inl happend

theorem brackets?_append {colon : Bool} (h : brackets? colon (c :: cs) = some l) :
    l.token.spelling ++ l.rest = c :: cs := by
  unfold brackets? at h
  split at h
  · next heq => cases heq
  · next heq =>
    cases heq
    cases h
    rfl
  · next heq =>
    cases heq
    split_ifs at h
    cases h
    rfl
  · next heq =>
    cases heq
    split_ifs at h
    exact stay_append h fun t rest => quantity?_append

/-- A token is written in the text by its spelling, and a word between alternatives by two letters
and a space. -/
theorem read?_append {mode : LexMode} (h : read? mode (c :: cs) = some l) :
    l.token.spelling ++ l.rest = c :: cs ∨
      l.token = .orWord ∧ ∃ o r, isWordChar o ∧ isWordChar r ∧
        c :: cs = o :: r :: ' ' :: l.rest := by
  cases mode with
  | plain => exact .inl (plain?_append h)
  | braces => exact braces?_append h
  | brackets colon => exact .inl (brackets?_append h)

/-! ### Characters of quantities -/

/-- The characters that quantities are made of: hexadecimal digits, the letters of units, which
include those of exponents, the letter of the hexadecimal mark, points and signs. -/
def isQuantityChar (c : Char) : Bool :=
  isDigitOf 16 c || ['s', 'm', 'h', 'w', 'y', 'x', 'X', '.', '+', '-'].contains c

theorem isQuantityChar_of_isDigitOf (h : isDigitOf 16 c) : isQuantityChar c := by
  rw [isQuantityChar, h, Bool.true_or]

theorem isQuantityChar_of_isDigit (h : c.isDigit) : isQuantityChar c := by
  refine isQuantityChar_of_isDigitOf ?_
  have hrange := isDigit_iff.mp h
  have hlt : c.toNat - '0'.toNat < 16 := by
    have : '9'.toNat = '0'.toNat + 9 := rfl
    omega
  simp only [isDigitOf, digit?, if_pos hrange, if_pos hlt, Option.isSome_some]

theorem mem_spanOf {p : Char → Bool} (h : c ∈ (spanOf p text).1) : p c :=
  List.mem_takeWhile_imp h

theorem mem_optionalOf {p : Char → Bool} (h : c ∈ (optionalOf p text).1) : p c := by
  cases text with
  | nil => cases h
  | cons d ds =>
    rw [optionalOf] at h
    split_ifs at h with hd
    · rwa [List.mem_singleton.mp h]
    · cases h

theorem isQuantityChar_of_mem_baseSpan (h : c ∈ (baseSpan text).1) : isQuantityChar c := by
  unfold baseSpan at h
  split at h
  · rcases List.mem_pair.mp h with rfl | rfl <;> decide
  · rcases List.mem_pair.mp h with rfl | rfl <;> decide
  · cases h

theorem isQuantityChar_of_baseSpan_isDigit (h : (baseSpan text).2.1 c) : isQuantityChar c := by
  unfold baseSpan at h
  split at h
  · exact isQuantityChar_of_isDigitOf h
  · exact isQuantityChar_of_isDigitOf h
  · exact isQuantityChar_of_isDigit h

theorem isQuantityChar_of_mem_fractionSpan {isDigit : Char → Bool}
    (hdigit : ∀ c, isDigit c → isQuantityChar c) (h : c ∈ (fractionSpan isDigit text).1) :
    isQuantityChar c := by
  unfold fractionSpan at h
  split at h
  · rcases List.mem_cons.mp h with rfl | h
    · decide
    · exact hdigit c (mem_spanOf h)
  · cases h

theorem isQuantityChar_of_mem_exponentSpan (h : c ∈ (exponentSpan text).1) : isQuantityChar c := by
  unfold exponentSpan at h
  split at h
  · cases h
  · next e behind _ heq =>
    have he : e = (optionalOf (fun c => c == 'e' || c == 'E') text).1 := by rw [heq]
    simp only [List.mem_append] at h
    rcases h with (h | h) | h
    · rw [he] at h
      rcases Bool.or_eq_true_iff.mp (mem_optionalOf h) with hc | hc <;>
        rw [beq_iff_eq.mp hc] <;> decide
    · rcases Bool.or_eq_true_iff.mp (mem_optionalOf h) with hc | hc <;>
        rw [beq_iff_eq.mp hc] <;> decide
    · exact isQuantityChar_of_isDigit (mem_spanOf h)

theorem isQuantityChar_of_mem_numberSpan (h : c ∈ (numberSpan text).1) : isQuantityChar c := by
  simp only [numberSpan, List.mem_append] at h
  rcases h with ((h | h) | h) | h
  · exact isQuantityChar_of_mem_baseSpan h
  · exact isQuantityChar_of_baseSpan_isDigit (mem_spanOf h)
  · exact isQuantityChar_of_mem_fractionSpan (fun _ => isQuantityChar_of_baseSpan_isDigit) h
  · exact isQuantityChar_of_mem_exponentSpan h

theorem isQuantityChar_of_mem_units {units : String}
    (hunits : units = "smhdw" ∨ units = "smhdwy") : ∀ c ∈ units.toList, isQuantityChar c := by
  have hlist : ∀ c ∈ ['s', 'm', 'h', 'd', 'w', 'y'], isQuantityChar c :=
    List.all_eq_true.mp (by decide +kernel)
  rcases hunits with rfl | rfl
  · exact fun c hc => hlist c (List.mem_append_left ['y'] hc)
  · exact hlist

theorem isQuantityChar_of_mem_unitSpan? {units : String} {unit : Text}
    (hunits : units = "smhdw" ∨ units = "smhdwy") (h : unitSpan? units text = some (unit, rest))
    (hc : c ∈ unit) : isQuantityChar c := by
  cases text with
  | nil => cases h
  | cons d ds =>
    simp only [unitSpan?] at h
    split_ifs at h with hd
    cases h
    rcases List.mem_cons.mp hc with rfl | hc
    · exact isQuantityChar_of_mem_units hunits c (List.contains_iff_mem.mp hd)
    · have hs : (c == 's') = true := mem_optionalOf (p := (· == 's')) hc
      rw [beq_iff_eq.mp hs]
      decide

theorem isQuantityChar_of_mem_groupsSpan? {fuel : Nat} {groups : Text}
    (h : groupsSpan? fuel text = some (groups, rest)) (hc : c ∈ groups) : isQuantityChar c := by
  induction fuel generalizing text groups rest with
  | zero => cases h
  | succ fuel ih =>
    rw [groupsSpan?] at h
    split at h
    · cases h
      cases hc
    · next digits behind _ heq =>
      obtain ⟨⟨unit, afterUnit⟩, hunit, h⟩ := Option.bind_eq_some_iff.mp h
      obtain ⟨⟨more, afterMore⟩, hmore, h⟩ := Option.bind_eq_some_iff.mp h
      cases h
      simp only [List.mem_append] at hc
      rcases hc with (hc | hc) | hc
      · have hdigits : digits = (spanOf Char.isDigit text).1 := by rw [heq]
        rw [hdigits] at hc
        exact isQuantityChar_of_isDigit (mem_spanOf hc)
      · exact isQuantityChar_of_mem_unitSpan? (.inl rfl) hunit hc
      · exact ih hmore hc

theorem isQuantityChar_of_mem_quantity? (h : quantity? text = some (t, rest))
    (hc : c ∈ t.spelling) : isQuantityChar c := by
  simp only [quantity?] at h
  split_ifs at h
  · obtain ⟨⟨duration, behind⟩, hduration, h⟩ := Option.bind_eq_some_iff.mp h
    cases h
    rcases List.mem_append.mp hc with hc | hc
    · exact isQuantityChar_of_mem_numberSpan hc
    · obtain ⟨⟨unit, afterUnit⟩, hunit, hduration⟩ := Option.bind_eq_some_iff.mp hduration
      obtain ⟨⟨groups, behind⟩, hgroups, hduration⟩ := Option.bind_eq_some_iff.mp hduration
      simp only at hduration
      split_ifs at hduration
      cases hduration
      rcases List.mem_append.mp hc with hc | hc
      · exact isQuantityChar_of_mem_unitSpan? (.inr rfl) hunit hc
      · exact isQuantityChar_of_mem_groupsSpan? hgroups hc
  · cases h
    exact isQuantityChar_of_mem_numberSpan hc

/-! ### Closing signs -/

/-- A bracket or parenthesis that closes. -/
def IsCloser (c : Char) : Prop := c = ']' ∨ c = ')'

instance : DecidablePred IsCloser := fun c => inferInstanceAs (Decidable (c = ']' ∨ c = ')'))

theorem IsCloser.not_isQuantityChar {d : Char} (h : IsCloser d) : ¬ isQuantityChar d := by
  rcases h with rfl | rfl <;> decide +kernel

theorem IsCloser.not_isMark {d : Char} (h : IsCloser d) : ¬ isMark d := by
  rcases h with rfl | rfl <;> decide

theorem IsCloser.not_isWordChar {d : Char} (h : IsCloser d) : ¬ (isWordChar d || d == ':') := by
  rcases h with rfl | rfl <;> decide

/-- A token that is a bracket or parenthesis that closes. -/
def Closes (t : Token) : Prop := t = .rightBracket ∨ t = .rightParen

theorem closes_of_isSign (hsign : t.isSign) {d : Char} (hd : d ∈ t.spelling.getLast?)
    (hclose : IsCloser d) : Closes t := by
  cases t
  case rightParen => exact .inr rfl
  case rightBracket => exact .inl rfl
  case operator op => cases op <;> cases hd <;> exact absurd hclose (by decide)
  case matchOp op => cases op <;> cases hd <;> exact absurd hclose (by decide)
  all_goals first | cases hsign; done | cases hd; exact absurd hclose (by decide)

theorem closes_of_map_stay {mode : LexMode} {next : Option (Token × Text)}
    (hl : next.map (stay mode) = some l) {d : Char} (hd : d ∈ l.token.spelling.getLast?)
    (h : ∀ t rest, next = some (t, rest) → d ∉ t.spelling.getLast?) : Closes l.token := by
  obtain ⟨⟨t, rest⟩, hnext, rfl⟩ := Option.map_eq_some_iff.mp hl
  exact absurd hd (h t rest hnext)

/-- A token that ends in a closing bracket or parenthesis is nothing but that. -/
theorem closes_of_read? {mode : LexMode} (h : read? mode (c :: cs) = some l) {d : Char}
    (hd : d ∈ l.token.spelling.getLast?) (hclose : IsCloser d) : Closes l.token := by
  have hquantity : ∀ t rest, quantity? (c :: cs) = some (t, rest) → d ∉ t.spelling.getLast? :=
    fun t rest ht hmem => hclose.not_isQuantityChar
      (isQuantityChar_of_mem_quantity? ht (List.mem_of_getLast? hmem))
  have hstring : isMark c → ∀ t rest, string? c cs = some (t, rest) → d ∉ t.spelling.getLast? := by
    intro hmark t rest ht hmem
    obtain ⟨⟨body, behind⟩, -, ht⟩ := Option.map_eq_some_iff.mp ht
    cases ht
    rw [Token.spelling, List.getLast?_concat] at hmem
    cases hmem
    exact hclose.not_isMark hmark
  cases mode with
  | plain =>
    rcases plain?_cases h with ⟨hsign, -⟩ | ⟨-, hl⟩ | ⟨-, rfl⟩ | ⟨hmark, hl⟩
    · exact closes_of_isSign hsign hd hclose
    · exact closes_of_map_stay hl hd hquantity
    · have hmem := List.mem_of_getLast? hd
      simp only [stay, word, spelling_ofWord] at hmem
      exact absurd (mem_spanOf hmem) hclose.not_isWordChar
    · exact closes_of_map_stay hl hd (hstring hmark)
  | braces =>
    rcases braces?_cases h with ⟨hsign, -⟩ | ⟨hmark, hl⟩ | ⟨-, rfl⟩
    · exact closes_of_isSign hsign hd hclose
    · exact closes_of_map_stay hl hd (hstring hmark)
    · have hword : isWordChar d := List.mem_takeWhile_imp (List.mem_of_getLast? hd)
      exact absurd (by simp [hword]) hclose.not_isWordChar
  | brackets colon =>
    rcases brackets?_cases h with ⟨hsign, -⟩ | ⟨-, hl⟩
    · exact closes_of_isSign hsign hd hclose
    · exact closes_of_map_stay hl hd hquantity

end Lexeme

end PromQL

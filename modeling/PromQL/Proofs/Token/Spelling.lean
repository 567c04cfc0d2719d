import Mathlib
import PromQL.Proofs.Text.Digits
import PromQL.Proofs.Text.Quoted
import PromQL.Proofs.Token.Progress

/-!
# Spelled tokens

Each token has a spelling, which the lexer reads as the token again if the text behind it does not
go on like the token. What may follow depends on the kind of the token and on where it stands.
-/

namespace PromQL

/-! ### What may follow -/

/-- Whether a text goes on neither a word nor a number in front of it. -/
def IsBoundary (rest : Text) : Prop := ∀ c ∈ rest.head?, ¬ isWordChar c ∧ c ≠ ':' ∧ c ≠ '.'

/-- Whether a text does not go on a name in front of it. -/
def IsNameEnd (rest : Text) : Prop := ∀ c ∈ rest.head?, ¬ isWordChar c

/-- Whether a text does not go on the digits of a number in front of it. -/
def IsDigitsEnd (rest : Text) : Prop :=
  ∀ c ∈ rest.head?, ¬ c.isDigit ∧ c ∉ ['.', 'x', 'X', 'e', 'E']

theorem IsBoundary.isNameEnd {rest : Text} (h : IsBoundary rest) : IsNameEnd rest :=
  fun c hc => (h c hc).1

theorem IsNameEnd.not_isDigit {rest : Text} (h : IsNameEnd rest) : ∀ c ∈ rest.head?, ¬ c.isDigit :=
  fun c hc hdigit => h c hc (isWordChar_of_isDigit hdigit)

theorem IsBoundary.isDigitsEnd {rest : Text} (h : IsBoundary rest) : IsDigitsEnd rest := by
  intro c hc
  obtain ⟨hword, -, hpoint⟩ := h c hc
  refine ⟨h.isNameEnd.not_isDigit c hc, fun hmem => ?_⟩
  simp only [List.mem_cons, List.not_mem_nil, or_false] at hmem
  rcases hmem with rfl | rfl | rfl | rfl | rfl
  · exact hpoint rfl
  all_goals exact hword (by decide)

theorem not_isWordStart {c : Char} (h : ¬ isWordChar c) : ¬ isWordStart c :=
  fun hc => h (isWordChar_of_isWordStart hc)

/-! ### Spellings -/

/-- A number as it is spelled without a sign: digits, perhaps a fraction, perhaps an exponent. -/
structure NumberParts where
  whole : Text
  fraction : Option Text
  exponent : Option (Bool × Text)

namespace NumberParts

/-- A fraction with its point. -/
def fractionText (n : NumberParts) : Text := (n.fraction.map ('.' :: ·)).getD []

/-- The digits of an exponent and the sign in front of them. -/
def signedText (e : Bool × Text) : Text := (if e.1 then ['-'] else []) ++ e.2

/-- An exponent with its letter. -/
def exponentText (n : NumberParts) : Text := (n.exponent.map fun e => 'e' :: signedText e).getD []

/-- The number as it is spelled. -/
def text (n : NumberParts) : Text := n.whole ++ n.fractionText ++ n.exponentText

/-- Every part that is there has digits only, and there are digits in front of the point and behind
the letter of the exponent. -/
structure IsDigits (n : NumberParts) : Prop where
  whole_ne_nil : n.whole ≠ []
  whole : ∀ c ∈ n.whole, c.isDigit
  fraction : ∀ ds ∈ n.fraction, ∀ c ∈ ds, c.isDigit
  exponent : ∀ e ∈ n.exponent, e.2 ≠ [] ∧ ∀ c ∈ e.2, c.isDigit

end NumberParts

namespace Token

/-- A token as it is spelled. The word between alternatives has a space behind it. -/
def spelling : Token → Text
  | number s | duration s | identifier s | metric s | keyword _ s => s
  | string mark body => mark :: body ++ [mark]
  | operator op => op.text
  | matchOp op => op.text
  | orWord => "or ".toList
  | leftParen => ['(']
  | rightParen => [')']
  | leftBrace => ['{']
  | rightBrace => ['}']
  | leftBracket => ['[']
  | rightBracket => [']']
  | comma => [',']
  | colon => [':']
  | atSign => ['@']

/-- Whether the lexer reads a token at its spelling in front of a text. -/
structure Reads (mode : LexMode) (t : Token) (rest : Text) : Prop where
  start : ∀ c ∈ t.spelling.head?, ¬ Lexeme.isSpace c ∧ c ≠ '#'
  read : Lexeme.read? mode (t.spelling ++ rest) = some ⟨t, mode.after t, rest⟩

end Token

namespace Lexeme

/-! ### Spans -/

theorem spanOf_of_forall {p : Char → Bool} {ds rest : Text} (h : ∀ c ∈ ds, p c)
    (hrest : ∀ c ∈ rest.head?, ¬ p c) : spanOf p (ds ++ rest) = (ds, rest) := by
  have hnone : rest.takeWhile p = [] ∧ rest.dropWhile p = rest := by
    cases rest with
    | nil => exact ⟨rfl, rfl⟩
    | cons c cs =>
      have hc : ¬ p c := hrest c rfl
      simp [hc]
  rw [spanOf, List.takeWhile_append_of_pos h, List.dropWhile_append_of_pos h, hnone.1, hnone.2,
    List.append_nil]

theorem optionalOf_of_not {p : Char → Bool} {rest : Text} (h : ∀ c ∈ rest.head?, ¬ p c) :
    optionalOf p rest = ([], rest) := by
  cases rest with
  | nil => rfl
  | cons c cs => rw [optionalOf, if_neg (h c rfl)]

/-! ### Starts of tokens -/

/-- What starts no sign starts a number, a word or a string, or nothing. -/
theorem plain?_of_not_mem {c : Char} {cs : Text}
    (h : c ∉ "=!<>[".toList ++ "+-*/%^@,()\x7b".toList) :
    plain? (c :: cs) =
      if c.isDigit || (c == '.' && (cs.head?.map Char.isDigit).getD false) then
        (quantity? (c :: cs)).map (stay .plain)
      else if isWordStart c || c == ':' then some (stay .plain (word (c :: cs)))
      else if isMark c then (string? c cs).map (stay .plain)
      else none := by
  unfold plain?
  split
  all_goals rename_i heq; cases heq
  case h_23 => rfl
  all_goals exact absurd (by decide) h

theorem plain?_of_not_sign {c : Char} {cs : Text}
    (h : c.isDigit ∨ isWordStart c ∨ c = ':' ∨ isMark c) :
    plain? (c :: cs) =
      if c.isDigit || (c == '.' && (cs.head?.map Char.isDigit).getD false) then
        (quantity? (c :: cs)).map (stay .plain)
      else if isWordStart c || c == ':' then some (stay .plain (word (c :: cs)))
      else if isMark c then (string? c cs).map (stay .plain)
      else none := by
  have hsigns : ("=!<>[".toList ++ "+-*/%^@,()\x7b".toList).all
      fun d => !(d.isDigit || isWordStart d || d == ':' || isMark d) := by decide
  refine plain?_of_not_mem fun hmem => ?_
  have hc := List.all_eq_true.mp hsigns c hmem
  rcases h with h | h | h | h <;> simp [h] at hc

/-- What starts no sign inside braces starts a string or a word, or nothing. -/
theorem braces?_of_not_mem {c : Char} {cs : Text} (h : c ∉ "=!".toList ++ ",\x7d".toList) :
    braces? (c :: cs) =
      if isMark c then (string? c cs).map (stay .braces)
      else if isWordStart c then
        match spanOf isWordChar (c :: cs) with
        | ([o, r], ' ' :: rest) =>
          if o.toLower == 'o' && r.toLower == 'r' then some ⟨.orWord, .braces, rest⟩
          else some ⟨.identifier [o, r], .braces, ' ' :: rest⟩
        | (name, rest) => some ⟨.identifier name, .braces, rest⟩
      else none := by
  unfold braces?
  split
  all_goals rename_i heq; cases heq
  case h_8 => rfl
  all_goals exact absurd (by decide) h

theorem braces?_of_not_sign {c : Char} {cs : Text} (h : isWordStart c ∨ isMark c) :
    braces? (c :: cs) =
      if isMark c then (string? c cs).map (stay .braces)
      else if isWordStart c then
        match spanOf isWordChar (c :: cs) with
        | ([o, r], ' ' :: rest) =>
          if o.toLower == 'o' && r.toLower == 'r' then some ⟨.orWord, .braces, rest⟩
          else some ⟨.identifier [o, r], .braces, ' ' :: rest⟩
        | (name, rest) => some ⟨.identifier name, .braces, rest⟩
      else none := by
  have hsigns : ("=!".toList ++ ",\x7d".toList).all fun d => !(isWordStart d || isMark d) := by
    decide
  refine braces?_of_not_mem fun hmem => ?_
  have hc := List.all_eq_true.mp hsigns c hmem
  rcases h with h | h <;> simp [h] at hc

theorem isSpace_of_isWordChar {c : Char} (h : isWordChar c ∨ c = ':') : ¬ isSpace c ∧ c ≠ '#' := by
  refine ⟨fun hspace => ?_, fun hsign => ?_⟩
  · simp only [isSpace, Bool.or_eq_true, beq_iff_eq] at hspace
    rcases hspace with (((rfl | rfl) | rfl) | rfl) | rfl <;> exact absurd h (by decide)
  · subst hsign
    exact absurd h (by decide)

theorem not_isDigit_of_isWordStart {c : Char} (h : isWordStart c ∨ c = ':') : ¬ c.isDigit := by
  intro hdigit
  rcases h with h | rfl
  · simp only [isWordStart, Char.isAlpha, Char.isUpper, Char.isLower, Bool.or_eq_true,
      Bool.and_eq_true, decide_eq_true_eq, beq_iff_eq] at h
    rw [isDigit_iff] at hdigit
    rcases h with (h | h) | rfl
    · have : 'A'.val ≤ c.val := h.1
      have hA : 'A'.toNat ≤ c.toNat := this
      have : 'A'.toNat = '9'.toNat + 8 := rfl
      omega
    · have ha : 'a'.toNat ≤ c.toNat := h.1
      have : 'a'.toNat = '9'.toNat + 40 := rfl
      omega
    · exact absurd hdigit (by decide)
  · exact absurd hdigit (by decide)

/-! ### Words -/

theorem spelling_ofWord (w : Text) : (ofWord w).spelling = w := by
  simp only [ofWord]
  split
  · rfl
  · split_ifs <;> rfl

theorem after_ofWord (mode : LexMode) (w : Text) : mode.after (ofWord w) = mode := by
  simp only [ofWord]
  split
  · rfl
  · split_ifs <;> rfl

/-- A name that may have colons is read up to a character that goes on neither name nor number. -/
theorem reads_ofWord {w rest : Text} (hw : isBareMetric w) (hrest : IsBoundary rest) :
    (ofWord w).Reads .plain rest := by
  cases w with
  | nil => simp [isBareMetric] at hw
  | cons c cs =>
    simp only [isBareMetric, isName_cons, Bool.and_eq_true, Bool.or_eq_true, beq_iff_eq,
      List.all_eq_true] at hw
    obtain ⟨hc, hcs⟩ := hw
    have hdigit : ¬ c.isDigit := not_isDigit_of_isWordStart hc
    have hpoint : c ≠ '.' := by
      rintro rfl
      exact absurd hc (by decide)
    have hword : word (c :: cs ++ rest) = (ofWord (c :: cs), rest) := by
      have hspan : spanOf (fun c => isWordChar c || c == ':') (c :: cs ++ rest) =
          (c :: cs, rest) := by
        refine spanOf_of_forall (fun d hd => ?_) fun d hd => ?_
        · rcases List.mem_cons.mp hd with rfl | hd
          · exact isWordChar_or_colon_of_start hc
          · simpa using hcs d hd
        · simp [(hrest d hd).1, (hrest d hd).2.1]
      simp only [word, hspan]
    refine ⟨fun d hd => ?_, ?_⟩
    · rw [spelling_ofWord] at hd
      cases hd
      exact isSpace_of_isWordChar (hc.imp_left isWordChar_of_isWordStart)
    · rw [spelling_ofWord, after_ofWord]
      rw [read?, List.cons_append, plain?_of_not_sign (.inr (hc.imp_right .inl))]
      have hnumber : ¬ (c.isDigit || (c == '.' && ((cs ++ rest).head?.map Char.isDigit).getD
          false)) := by
        simp [hdigit, hpoint]
      have hstart : isWordStart c || c == ':' := by simpa using hc
      rw [List.cons_append] at hword
      simp only [if_neg hnumber, if_pos hstart, hword]
      rfl

/-! ### Names of labels inside braces -/

theorem isWordStart_not_isMark {c : Char} (h : isWordStart c) : ¬ isMark c := by
  intro hmark
  simp only [isMark, Bool.or_eq_true, beq_iff_eq] at hmark
  rcases hmark with (rfl | rfl) | rfl <;> exact absurd h (by decide)

/-- A name in front of a space must not be the word between alternatives. -/
theorem reads_identifier {w rest : Text} (hw : isBareLabel w) (hrest : IsNameEnd rest)
    (hor : rest.head? = some ' ' → w.map Char.toLower ≠ "or".toList) :
    (Token.identifier w).Reads .braces rest := by
  cases w with
  | nil => simp [isBareLabel] at hw
  | cons c cs =>
    simp only [isBareLabel, isName_cons, Bool.and_eq_true, List.all_eq_true] at hw
    obtain ⟨hc, hcs⟩ := hw
    have hspan : spanOf isWordChar (c :: cs ++ rest) = (c :: cs, rest) := by
      refine spanOf_of_forall (fun d hd => ?_) hrest
      rcases List.mem_cons.mp hd with rfl | hd
      · exact isWordChar_of_isWordStart hc
      · exact hcs d hd
    refine ⟨fun d hd => ?_, ?_⟩
    · cases hd
      exact isSpace_of_isWordChar (.inl (isWordChar_of_isWordStart hc))
    · rw [List.cons_append] at hspan
      rw [Token.spelling, read?, List.cons_append, braces?_of_not_sign (.inl hc),
        if_neg (isWordStart_not_isMark hc), if_pos hc, hspan]
      split
      · next heq =>
        cases heq
        rw [if_neg fun h => hor rfl (by simpa using h)]
        rfl
      · next heq =>
        cases heq
        rfl

/-! ### Numbers -/

theorem exponentSpan_of_not {rest : Text} (h : ∀ c ∈ rest.head?, c ≠ 'e' ∧ c ≠ 'E') :
    exponentSpan rest = ([], rest) := by
  rw [exponentSpan, optionalOf_of_not fun c hc => by simpa using h c hc]

theorem fractionSpan_of_not {isDigit : Char → Bool} {rest : Text} (h : rest.head? ≠ some '.') :
    fractionSpan isDigit rest = ([], rest) := by
  unfold fractionSpan
  split
  · exact absurd rfl h
  · rfl

/-- What starts with decimal digits, and does not go on with an `x` behind the first one, is no
hexadecimal number. -/
theorem baseSpan_of_digits {ds rest : Text} (hne : ds ≠ []) (hds : ∀ c ∈ ds, c.isDigit)
    (hrest : ∀ c ∈ rest.head?, c ≠ 'x' ∧ c ≠ 'X') :
    baseSpan (ds ++ rest) = ([], Char.isDigit, ds ++ rest) := by
  unfold baseSpan
  split
  case h_3 => rfl
  all_goals
    next behind heq =>
      match ds, hne, heq with
      | [d], _, heq =>
        have hhead := hrest _ (congrArg List.head? (List.cons.inj heq).2)
        simp at hhead
      | d :: d' :: ds, _, heq =>
        have hdigit := hds d' (by simp)
        simp only [List.cons_append, List.cons.injEq] at heq
        rw [heq.2.1] at hdigit
        exact absurd hdigit (by decide)

theorem exponentSpan_text {n : NumberParts} {rest : Text} (hn : n.IsDigits)
    (hrest : IsDigitsEnd rest) :
    exponentSpan (n.exponentText ++ rest) = (n.exponentText, rest) := by
  unfold NumberParts.exponentText
  cases hexp : n.exponent with
  | none =>
    refine exponentSpan_of_not fun c hc => ?_
    have hend := (hrest c hc).2
    constructor <;> rintro rfl <;> exact hend (by decide)
  | some e =>
    obtain ⟨hne, hdigits⟩ := hn.exponent e hexp
    have hspan : spanOf Char.isDigit (e.2 ++ rest) = (e.2, rest) :=
      spanOf_of_forall hdigits fun c hc => (hrest c hc).1
    have hsign : optionalOf (fun c => c == '+' || c == '-')
        (NumberParts.signedText e ++ rest) = (if e.1 then ['-'] else [], e.2 ++ rest) := by
      unfold NumberParts.signedText
      split_ifs
      · rfl
      · refine optionalOf_of_not fun c hc => ?_
        obtain ⟨d, ds, hcons⟩ := List.exists_cons_of_ne_nil hne
        rw [hcons] at hc
        cases hc
        have hdigit := hdigits c (by simp [hcons])
        intro hcontra
        simp only [Bool.or_eq_true, beq_iff_eq] at hcontra
        rcases hcontra with rfl | rfl <;> exact absurd hdigit (by decide)
    have hletter : optionalOf (fun c => c == 'e' || c == 'E')
        ('e' :: NumberParts.signedText e ++ rest) =
          (['e'], NumberParts.signedText e ++ rest) := rfl
    simp only [Option.map_some, Option.getD_some, exponentSpan, hletter, hsign, hspan]
    rfl

/-- A spelled number is cut behind its last part. -/
theorem numberSpan_text {n : NumberParts} {rest : Text} (hn : n.IsDigits)
    (hrest : IsDigitsEnd rest) : numberSpan (n.text ++ rest) = (n.text, rest) := by
  have hexp := exponentSpan_text hn hrest
  have hexphead : ∀ c ∈ (n.exponentText ++ rest).head?,
      ¬ c.isDigit ∧ c ≠ '.' ∧ c ≠ 'x' ∧ c ≠ 'X' := by
    intro c hc
    cases h : n.exponent with
    | none =>
      rw [NumberParts.exponentText, h] at hc
      obtain ⟨hdigit, hmem⟩ := hrest c hc
      exact ⟨hdigit, by rintro rfl; exact hmem (by decide), by rintro rfl; exact hmem (by decide),
        by rintro rfl; exact hmem (by decide)⟩
    | some e =>
      rw [NumberParts.exponentText, h] at hc
      cases hc
      decide
  have hfraction : fractionSpan Char.isDigit (n.fractionText ++ (n.exponentText ++ rest)) =
      (n.fractionText, n.exponentText ++ rest) := by
    unfold NumberParts.fractionText
    cases h : n.fraction with
    | none => exact fractionSpan_of_not fun hc => (hexphead '.' hc).2.1 rfl
    | some ds =>
      have hspan := spanOf_of_forall (p := Char.isDigit) (hn.fraction ds h)
        fun c hc => (hexphead c hc).1
      simp only [Option.map_some, Option.getD_some, List.cons_append, fractionSpan, hspan]
  have hfractionhead : ∀ c ∈ (n.fractionText ++ (n.exponentText ++ rest)).head?,
      ¬ c.isDigit ∧ c ≠ 'x' ∧ c ≠ 'X' := by
    intro c hc
    cases h : n.fraction with
    | none =>
      rw [NumberParts.fractionText, h] at hc
      exact ⟨(hexphead c hc).1, (hexphead c hc).2.2⟩
    | some ds =>
      rw [NumberParts.fractionText, h] at hc
      cases hc
      decide
  have hwhole : spanOf Char.isDigit (n.whole ++ (n.fractionText ++ (n.exponentText ++ rest))) =
      (n.whole, n.fractionText ++ (n.exponentText ++ rest)) :=
    spanOf_of_forall hn.whole fun c hc => (hfractionhead c hc).1
  have hbase := baseSpan_of_digits hn.whole_ne_nil hn.whole fun c hc => (hfractionhead c hc).2
  simp only [NumberParts.text, List.append_assoc, numberSpan, hbase, hwhole, hfraction, hexp,
    List.nil_append]

theorem plain?_of_isDigit {c : Char} {cs : Text} (h : c.isDigit) :
    plain? (c :: cs) = (quantity? (c :: cs)).map (stay .plain) := by
  rw [plain?_of_not_sign (.inl h)]
  simp [h]

/-- A quantity is read outside of braces, where it starts with a digit. -/
theorem read?_quantity {mode : LexMode} {c : Char} {cs : Text} (hmode : mode ≠ .braces)
    (h : c.isDigit) : read? mode (c :: cs) = (quantity? (c :: cs)).map (stay mode) := by
  cases mode with
  | plain => exact plain?_of_isDigit h
  | braces => exact absurd rfl hmode
  | brackets colon =>
    simp only [read?]
    unfold brackets?
    split
    all_goals rename_i heq; cases heq
    case h_4 => rw [if_pos h]
    all_goals exact absurd h (by decide)

theorem reads_number {mode : LexMode} {n : NumberParts} {rest : Text} (hn : n.IsDigits)
    (hmode : mode ≠ .braces) (hrest : IsBoundary rest) : (Token.number n.text).Reads mode rest := by
  obtain ⟨c, ds, hwhole⟩ := List.exists_cons_of_ne_nil hn.whole_ne_nil
  have hc : c.isDigit := hn.whole c (by simp [hwhole])
  obtain ⟨cs, hcs⟩ : ∃ cs, n.text = c :: cs :=
    ⟨ds ++ (n.fractionText ++ n.exponentText), by simp [NumberParts.text, hwhole]⟩
  have hspan : numberSpan (n.text ++ rest) = (n.text, rest) :=
    numberSpan_text hn hrest.isDigitsEnd
  have hend : ¬ ((rest.head?.map fun c => isWordStart c || c == '.').getD false) := by
    cases hhead : rest.head? with
    | none => decide
    | some d =>
      have hd := hrest d hhead
      simp [not_isWordStart hd.1, hd.2.2]
  have hquantity : quantity? (n.text ++ rest) = some (.number n.text, rest) := by
    simp only [quantity?, hspan, if_neg hend]
  refine ⟨fun d hd => ?_, ?_⟩
  · rw [Token.spelling, hcs] at hd
    cases hd
    exact isSpace_of_isWordChar (.inl (isWordChar_of_isDigit hc))
  · rw [Token.spelling]
    rw [hcs] at hquantity ⊢
    rw [List.cons_append] at hquantity ⊢
    rw [read?_quantity hmode hc, hquantity]
    cases mode <;> rfl

/-! ### Strings -/

theorem isMark_cases {mark : Char} (h : isMark mark) :
    mark = '"' ∨ mark = '\x27' ∨ mark = backtick := by
  simpa only [isMark, Bool.or_eq_true, beq_iff_eq, or_assoc] using h

/-- Whether a text can stand between two marks and is cut at the second one. -/
def IsBody (mark : Char) (body : Text) : Prop :=
  ∀ rest, bodySpan? mark (body ++ mark :: rest) = some (body, rest)

theorem reads_string {mode : LexMode} {mark : Char} {body rest : Text}
    (hmode : mode = .plain ∨ mode = .braces) (hmark : isMark mark) (hbody : IsBody mark body) :
    (Token.string mark body).Reads mode rest := by
  have hstring : string? mark (body ++ mark :: rest) = some (.string mark body, rest) := by
    rw [string?, hbody rest, Option.map_some]
  have hchars := isMark_cases hmark
  have hspelled : (Token.string mark body).spelling ++ rest = mark :: (body ++ mark :: rest) := by
    simp [Token.spelling]
  refine ⟨fun c hc => ?_, ?_⟩
  · cases hc
    rcases hchars with rfl | rfl | rfl <;> decide
  · rw [hspelled]
    rcases hmode with rfl | rfl
    · refine (plain?_of_not_sign (.inr (.inr (.inr hmark)))).trans ?_
      rcases hchars with rfl | rfl | rfl <;> simp only [hstring] <;> rfl
    · refine (braces?_of_not_sign (.inr hmark)).trans ?_
      rw [if_pos hmark, hstring]
      rfl

/-! ### Quoted texts -/

theorem bodySpan?_plain {mark c : Char} (text : Text) (hmark : c ≠ mark) (hback : c ≠ '\\') :
    bodySpan? mark (c :: text) =
      (bodySpan? mark text).map fun (body, rest) => (c :: body, rest) := by
  rw [bodySpan?.eq_def]
  split
  · next heq => cases heq
  · next heq =>
    cases heq
    exact absurd rfl hback
  · next heq =>
    cases heq
    simp [hmark, hback]

theorem bodySpan?_escaped {mark c : Char} (text : Text) (h : c = mark ∨ isEscape c) :
    bodySpan? mark ('\\' :: c :: text) =
      (bodySpan? mark text).map fun (body, rest) => ('\\' :: c :: body, rest) := by
  have hcond : (c == mark || isEscape c) = true := by simpa using h
  rw [bodySpan?, if_pos hcond]

theorem bodySpan?_append {cs : Text} (text : Text) (h : ∀ c ∈ cs, c ≠ '"' ∧ c ≠ '\\') :
    bodySpan? '"' (cs ++ text) =
      (bodySpan? '"' text).map fun (body, rest) => (cs ++ body, rest) := by
  induction cs with
  | nil => simp
  | cons c cs ih =>
    obtain ⟨hc, hcs⟩ := List.forall_mem_cons.mp h
    rw [List.cons_append, bodySpan?_plain _ hc.1 hc.2, ih hcs, Option.map_map]
    rfl

/-- The hexadecimal digits of a control character end no literal. -/
theorem mem_hexPadded_control : ∀ n < 0xa0, ∀ c ∈ hexPadded 4 n, c ≠ '"' ∧ c ≠ '\\' := by
  have hall : ∀ n < 0xa0, (hexPadded 4 n).all fun c => c != '"' && c != '\\' := by decide +kernel
  intro n hn c hc
  simpa using List.all_eq_true.mp (hall n hn) c hc

/-- The forms that a character may have inside a literal. -/
def IsForm (c : Char) (form : Text) : Prop :=
  (∃ d, form = ['\\', d] ∧ (d = '"' ∨ isEscape d)) ∨
    isControl c ∧ form = '\\' :: 'u' :: hexPadded 4 c.toNat ∨
    c ≠ '"' ∧ c ≠ '\\' ∧ form = [c]

theorem isForm_escape (c : Char) : IsForm c (escape c) := by
  have h := writtenForm_escape c
  generalize escape c = form at h
  cases h with
  | itself hmark hback => exact .inr (.inr ⟨hmark, hback, rfl⟩)
  | mark => exact .inl ⟨'"', rfl, .inl rfl⟩
  | @letter _ d h =>
    have hall : escapeLetters.all isEscape := by decide
    exact .inl ⟨d, rfl, .inr (List.all_eq_true.mp hall d (mem_of_letterEscape? h))⟩
  | code hcontrol => exact .inr (.inl ⟨hcontrol, rfl⟩)

/-- The form of a character inside a literal is no end of the literal. -/
theorem bodySpan?_escape (c : Char) (text : Text) :
    bodySpan? '"' (escape c ++ text) =
      (bodySpan? '"' text).map fun (body, rest) => (escape c ++ body, rest) := by
  rcases isForm_escape c with ⟨d, h, hd⟩ | ⟨hcontrol, h⟩ | ⟨hquote, hback, h⟩ <;> rw [h]
  · exact bodySpan?_escaped text hd
  · have hdigits := mem_hexPadded_control _ (toNat_lt_of_isControl hcontrol)
    rw [List.cons_append, List.cons_append, bodySpan?_escaped _ (.inr (by decide)),
      bodySpan?_append text hdigits, Option.map_map]
    rfl
  · exact bodySpan?_plain text hquote hback

theorem isBody_escape (s : Text) : IsBody '"' (s.flatMap escape) := by
  intro rest
  induction s with
  | nil => rfl
  | cons c cs ih => rw [List.flatMap_cons, List.append_assoc, bodySpan?_escape, ih, Option.map_some]

end Lexeme

/-- A text in double quotes. -/
def quotedToken (s : Text) : Token := .string '"' (s.flatMap escape)

theorem spelling_quotedToken (s : Text) : (quotedToken s).spelling = quote s := rfl

/-- A text in quotes is read whatever follows. -/
theorem reads_quotedToken {mode : LexMode} (s : Text) (hmode : mode = .plain ∨ mode = .braces)
    (rest : Text) : (quotedToken s).Reads mode rest :=
  Lexeme.reads_string hmode rfl (Lexeme.isBody_escape s)

end PromQL

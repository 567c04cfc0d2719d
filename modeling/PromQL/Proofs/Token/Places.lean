import Mathlib
import PromQL.Proofs.Token.Lexemes
import PromQL.Proofs.Token.Scanning

/-!
# The places of tokens

The lexer takes a text apart step by step: it skips a blank or a comment, or reads a token. The
places that it comes by are determined by the text, so that of two of them the later one is reached
from the earlier one. Where a token has been read can be seen from the characters around: behind a
bracket or a parenthesis that is the last character of a step, that was the token.
-/

namespace PromQL

/-! ### Steps of the lexer -/

/-- One step of the lexer: a blank, a comment, or a token. -/
inductive LexStep : LexMode → Text → Option Token → LexMode → Text → Prop where
  | space {mode : LexMode} {c : Char} {rest : Text} (h : Lexeme.isSpace c) :
      LexStep mode (c :: rest) none mode rest
  | comment {mode : LexMode} {rest : Text} (h : mode = .plain ∨ mode = .braces) :
      LexStep mode ('#' :: rest) none mode (rest.dropWhile fun c => !Lexeme.isLineEnd c)
  | token {mode : LexMode} {c : Char} {cs : Text} {l : Lexeme} (hspace : ¬ Lexeme.isSpace c)
      (hcomment : c ≠ '#') (h : Lexeme.read? mode (c :: cs) = some l) :
      LexStep mode (c :: cs) (some l.token) l.mode l.rest

/-- The lexer comes from one place to another one, and reads tokens in between. -/
inductive Lexes : LexMode → Text → List Token → LexMode → Text → Prop where
  | refl {mode : LexMode} {text : Text} : Lexes mode text [] mode text
  | step {mode mode' mode'' : LexMode} {text text' rest : Text} {t : Option Token}
      {ts : List Token} (first : LexStep mode text t mode' text')
      (others : Lexes mode' text' ts mode'' rest) :
      Lexes mode text (t.toList ++ ts) mode'' rest

variable {mode mode' mode₁ mode₂ : LexMode} {text rest behind rest₁ rest₂ : Text} {t : Option Token}
  {ts us : List Token}

namespace LexStep

/-- What the lexer does next is determined. -/
theorem unique {t₁ t₂ : Option Token} (h₁ : LexStep mode text t₁ mode₁ rest₁)
    (h₂ : LexStep mode text t₂ mode₂ rest₂) : t₁ = t₂ ∧ mode₁ = mode₂ ∧ rest₁ = rest₂ := by
  cases h₁ with
  | space hspace =>
    cases h₂ with
    | space => exact ⟨rfl, rfl, rfl⟩
    | comment => exact absurd hspace (by decide)
    | token hnot => exact absurd hspace hnot
  | comment =>
    cases h₂ with
    | space hspace => exact absurd hspace (by decide)
    | comment => exact ⟨rfl, rfl, rfl⟩
    | token _ hnot => exact absurd rfl hnot
  | token hnot hcomment hread =>
    cases h₂ with
    | space hspace => exact absurd hspace hnot
    | comment => exact absurd rfl hcomment
    | token _ _ hread' =>
      rw [hread] at hread'
      cases hread'
      exact ⟨rfl, rfl, rfl⟩

theorem scan (h : LexStep mode text t mode' rest) :
    Token.scan mode text = (Token.scan mode' rest).map (t.toList ++ ·) := by
  cases h with
  | space hspace => simpa using Token.scan_space hspace
  | comment hmode => simpa using Token.scan_comment hmode
  | token hspace hcomment hread => simpa using Token.scan_token hspace hcomment hread

/-- Every step takes something of the text. A token takes its spelling, or two letters and a space
if it is the word between alternatives. -/
theorem exists_append (h : LexStep mode text t mode' rest) :
    ∃ used, used ≠ [] ∧ used ++ rest = text ∧
      ∀ u ∈ t, used = u.spelling ∨ u = .orWord ∧ ∃ o r, used = [o, r, ' '] := by
  cases h with
  | space => exact ⟨[_], List.cons_ne_nil _ _, rfl, nofun⟩
  | @comment behind =>
    refine ⟨'#' :: behind.takeWhile fun c => !Lexeme.isLineEnd c, List.cons_ne_nil _ _, ?_, nofun⟩
    rw [List.cons_append, List.takeWhile_append_dropWhile]
  | @token c cs l _ _ hread =>
    rcases Lexeme.read?_append hread with happend | ⟨hword, o, r, -, -, happend⟩
    · refine ⟨l.token.spelling, fun hnil => ?_, happend, ?_⟩
      · have hless := Lexeme.length_read? hread
        rw [← happend, hnil] at hless
        exact Nat.lt_irrefl _ hless
      · rintro u ⟨⟩
        exact .inl rfl
    · refine ⟨[o, r, ' '], List.cons_ne_nil _ _, happend.symm, ?_⟩
      rintro u ⟨⟩
      exact .inr ⟨hword, o, r, rfl⟩

/-- A token that is read at its spelling. -/
theorem of_reads {u : Token} (hne : u.spelling ≠ []) (h : u.Reads mode rest) :
    LexStep mode (u.spelling ++ rest) (some u) (mode.after u) rest := by
  obtain ⟨c, cs, hspelling⟩ := List.exists_cons_of_ne_nil hne
  obtain ⟨hspace, hcomment⟩ := h.start c (by rw [hspelling]; rfl)
  have hread := h.read
  rw [hspelling, List.cons_append] at hread ⊢
  exact .token hspace hcomment hread

theorem length_lt (h : LexStep mode text t mode' rest) : rest.length < text.length := by
  obtain ⟨used, hne, rfl, -⟩ := h.exists_append
  have := List.length_pos_iff.mpr hne
  rw [List.length_append]
  omega

/-- The token of a closing parenthesis takes one. -/
theorem rightParen_mem {used : Text}
    (h : LexStep mode (used ++ rest) (some .rightParen) mode' rest) :
    ')' ∈ used := by
  obtain ⟨used', -, happend, htoken⟩ := h.exists_append
  rw [← List.append_cancel_right happend]
  rcases htoken _ rfl with hspelling | ⟨hword, -⟩
  · rw [hspelling]
    exact List.mem_singleton_self _
  · cases hword

/-- A step that ends in a closing bracket or parenthesis, in front of another parenthesis, reads
nothing but that. -/
theorem closes {used : Text} {c : Char} (hc : Lexeme.IsCloser c)
    (h : LexStep mode (used ++ c :: ')' :: rest) t mode' (')' :: rest)) :
    ∃ u, t = some u ∧ Lexeme.Closes u := by
  have hused : ∀ {taken : Text}, taken ++ ')' :: rest = used ++ c :: ')' :: rest →
      taken = used ++ [c] := fun htaken => List.append_cancel_right
    (htaken.trans (List.append_cons used c (')' :: rest)))
  generalize htext : used ++ c :: ')' :: rest = text at h
  generalize hbehind : ')' :: rest = behind at h
  cases h with
  | @space d _ hspace =>
    subst hbehind
    have hlast : [d] = used ++ [c] := hused htext.symm
    have hdc : d = c := by simpa using congrArg List.getLast? hlast
    rw [hdc] at hspace
    rcases hc with rfl | rfl <;> exact absurd hspace (by decide)
  | @comment inside =>
    have hend := List.head?_dropWhile_not (fun d => !Lexeme.isLineEnd d) inside
    rw [← hbehind] at hend
    cases hend
  | @token d ds l _ _ hread =>
    refine ⟨l.token, rfl, ?_⟩
    rcases Lexeme.read?_append hread with happend | ⟨-, o, r, -, -, happend⟩
    · rw [← htext, ← hbehind] at happend
      exact Lexeme.closes_of_read? hread (by simp [hused happend]) hc
    · rw [← htext, ← hbehind] at happend
      have hlast : [o, r, ' '] = used ++ [c] := hused happend.symm
      have hspace : ' ' = c := by simpa using congrArg List.getLast? hlast
      subst hspace
      exact absurd hc (by decide)

end LexStep

/-! ### Ways of the lexer -/

namespace Lexes

theorem suffix (h : Lexes mode text ts mode' rest) : rest <:+ text := by
  induction h with
  | refl => exact List.suffix_rfl
  | step first _ ih =>
    obtain ⟨used, -, happend, -⟩ := first.exists_append
    exact ih.trans ⟨used, happend⟩

theorem trans {mode'' : LexMode} (h : Lexes mode text ts mode' rest)
    (h' : Lexes mode' rest us mode'' behind) : Lexes mode text (ts ++ us) mode'' behind := by
  induction h with
  | refl => exact h'
  | step first _ ih =>
    rw [List.append_assoc]
    exact .step first (ih h')

theorem of_step {u : Token} (h : LexStep mode text (some u) mode' rest) :
    Lexes mode text [u] mode' rest :=
  .step h .refl

theorem eq_nil_of_length_le (h : Lexes mode text ts mode' rest)
    (hlength : text.length ≤ rest.length) :
    ts = [] := by
  cases h with
  | refl => rfl
  | step first others =>
    have hfirst := first.length_lt
    have hothers := others.suffix.length_le
    omega

theorem scan (h : Lexes mode text ts mode' rest) :
    Token.scan mode text = (Token.scan mode' rest).map (ts ++ ·) := by
  induction h with
  | refl => simp
  | step first _ ih =>
    rw [first.scan, ih, Option.map_map]
    congr 1
    funext us
    simp

/-- Of two places that the lexer comes by, it reaches the later one from the earlier one. -/
theorem between (h₁ : Lexes mode text ts mode₁ rest₁) (h₂ : Lexes mode text us mode₂ rest₂)
    (hlength : rest₂.length ≤ rest₁.length) : ∃ vs, Lexes mode₁ rest₁ vs mode₂ rest₂ := by
  induction h₁ generalizing us with
  | refl => exact ⟨us, h₂⟩
  | step first others ih =>
    cases h₂ with
    | refl =>
      have hfirst := first.length_lt
      have hothers := others.suffix.length_le
      omega
    | step first' others' =>
      obtain ⟨rfl, rfl, rfl⟩ := first.unique first'
      exact ih others' hlength

/-- Where no closing parenthesis is, none is read. -/
theorem rightParen_not_mem {used : Text} (h : Lexes mode text ts mode' rest)
    (htext : text = used ++ rest) (hparen : ')' ∉ used) : .rightParen ∉ ts := by
  induction h generalizing used with
  | refl => exact List.not_mem_nil
  | @step mode mode' mode'' text text' rest t ts first others ih =>
    obtain ⟨between, rfl⟩ := others.suffix
    obtain ⟨taken, -, happend, -⟩ := first.exists_append
    have hused : used = taken ++ between := by
      rw [htext, ← List.append_assoc] at happend
      exact (List.append_cancel_right happend).symm
    rw [hused, List.mem_append, not_or] at hparen
    rw [List.mem_append, not_or]
    refine ⟨fun hmem => ?_, ih rfl hparen.2⟩
    cases Option.mem_toList.mp hmem
    rw [← happend] at first
    exact hparen.1 first.rightParen_mem

/-- Behind a closing bracket or parenthesis, in front of another parenthesis, the token that has
been read last is nothing but that. -/
theorem exists_closes {used : Text} {c : Char} (hc : Lexeme.IsCloser c)
    (h : Lexes mode text ts mode' behind) (htext : text = used ++ c :: behind)
    (hbehind : behind = ')' :: rest) : ∃ us u, ts = us ++ [u] ∧ Lexeme.Closes u := by
  induction h generalizing used with
  | refl =>
    have hlength := congrArg List.length htext
    simp only [List.length_append, List.length_cons] at hlength
    omega
  | @step mode mode' mode'' text text' behind t ts first others ih =>
    obtain ⟨between, hbetween⟩ := others.suffix
    obtain ⟨taken, -, happend, -⟩ := first.exists_append
    rcases List.eq_nil_or_concat' between with rfl | ⟨front, d, rfl⟩
    · -- the first step was the last one
      rw [List.nil_append] at hbetween
      rw [others.eq_nil_of_length_le (by rw [hbetween])]
      rw [htext, ← hbetween, hbehind] at first
      obtain ⟨u, rfl, hu⟩ := first.closes hc
      exact ⟨[], u, rfl, hu⟩
    · have hend : taken ++ front ++ [d] = used ++ [c] := by
        refine (List.append_left_inj behind).mp ?_
        rw [← List.append_cons used, ← htext, ← happend, ← hbetween]
        simp only [List.append_assoc]
      have hdc : d = c := by simpa using congrArg List.getLast? hend
      rw [hdc, ← List.append_cons] at hbetween
      obtain ⟨us, u, rfl, hu⟩ := ih hbetween.symm hbehind
      exact ⟨t.toList ++ us, u, (List.append_assoc _ us [u]).symm, hu⟩

end Lexes

/-! ### Where tokens start -/

namespace Token

/-- What is left of a text at each of its tokens, in so many steps. -/
def placesIn : Nat → LexMode → Text → List Text
  | 0, _, _ => []
  | fuel + 1, mode, text =>
    match text with
    | [] => []
    | c :: rest =>
      if Lexeme.isSpace c then placesIn fuel mode rest
      else if c == '#' && (mode = .plain || mode = .braces) then
        placesIn fuel mode (rest.dropWhile fun c => !Lexeme.isLineEnd c)
      else
        match Lexeme.read? mode text with
        | some next => text :: placesIn fuel next.mode next.rest
        | none => []

/-- What is left of a text at each of its tokens. -/
def places (text : Text) : List Text := placesIn (text.length + 1) .plain text

theorem exists_lexes_of_mem_placesIn {fuel : Nat} (h : rest ∈ placesIn fuel mode text) :
    ∃ ts mode', Lexes mode text ts mode' rest := by
  induction fuel generalizing mode text with
  | zero => cases h
  | succ fuel ih =>
    cases text with
    | nil => cases h
    | cons c cs =>
      rw [placesIn] at h
      split_ifs at h with hspace hcomment
      · obtain ⟨ts, mode', hothers⟩ := ih h
        exact ⟨ts, mode', .step (.space hspace) hothers⟩
      · obtain ⟨ts, mode', hothers⟩ := ih h
        simp only [Bool.and_eq_true, Bool.or_eq_true, beq_iff_eq, decide_eq_true_eq] at hcomment
        obtain ⟨rfl, hmode⟩ := hcomment
        exact ⟨ts, mode', .step (.comment hmode) hothers⟩
      · cases hread : Lexeme.read? mode (c :: cs) with
        | none =>
          rw [hread] at h
          cases h
        | some l =>
          rw [hread] at h
          rcases List.mem_cons.mp h with rfl | h
          · exact ⟨[], mode, .refl⟩
          · obtain ⟨ts, mode', hothers⟩ := ih h
            have hnot : c ≠ '#' := by
              rintro rfl
              cases mode
              case brackets => cases hread
              all_goals exact hcomment rfl
            exact ⟨l.token :: ts, mode', .step (.token hspace hnot hread) hothers⟩

/-- The lexer comes by the places of the tokens. -/
theorem exists_lexes_of_mem_places (h : rest ∈ places text) :
    ∃ ts mode, Lexes .plain text ts mode rest :=
  exists_lexes_of_mem_placesIn h

/-- The lexer comes to the end of a text that is scanned. -/
theorem lexes_of_scan (h : scan mode text = some ts) : Lexes mode text ts .plain [] := by
  induction hn : text.length using Nat.strongRecOn generalizing mode text ts with
  | ind n ih =>
    subst hn
    cases text with
    | nil =>
      rw [scan_nil] at h
      split_ifs at h with hmode
      cases h
      rw [hmode]
      exact .refl
    | cons c cs =>
      by_cases hspace : Lexeme.isSpace c
      · rw [scan_space hspace] at h
        exact .step (.space hspace) (ih _ (Nat.lt_succ_self _) h rfl)
      · by_cases hcomment : c = '#'
        · subst hcomment
          have hlength := (List.dropWhile_suffix (l := cs) fun c => !Lexeme.isLineEnd c).length_le
          have hmode : mode = .plain ∨ mode = .braces := by
            cases mode with
            | plain => exact .inl rfl
            | braces => exact .inr rfl
            | brackets => cases h
          rw [scan_comment hmode] at h
          exact .step (.comment hmode) (ih _ (Nat.lt_succ_of_le hlength) h rfl)
        · cases hread : Lexeme.read? mode (c :: cs) with
          | none =>
            rw [scan_eq_none hspace hcomment hread] at h
            cases h
          | some l =>
            rw [scan_token hspace hcomment hread] at h
            obtain ⟨us, hus, rfl⟩ := Option.map_eq_some_iff.mp h
            have hlength := Lexeme.length_read? hread
            exact .step (.token hspace hcomment hread) (ih _ hlength hus rfl)

theorem lexes_sign {c : Char} {t : Token} (hspelling : t.spelling = [c]) (h : t.Reads mode rest) :
    Lexes mode (c :: rest) [t] (mode.after t) rest := by
  have hstep := LexStep.of_reads (by simp [hspelling]) h
  rw [hspelling] at hstep
  exact .of_step hstep

/-- The lexer goes on from every place that it comes by. -/
theorem exists_scan_of_lexes (h : scan mode text = some ts) (hlexes : Lexes mode text us mode' rest) :
    ∃ vs, scan mode' rest = some vs ∧ ts = us ++ vs := by
  rw [hlexes.scan] at h
  obtain ⟨vs, hvs, rfl⟩ := Option.map_eq_some_iff.mp h
  exact ⟨vs, hvs, rfl⟩

/-- Where a closing parenthesis is left of a text that is scanned, it is the next token. -/
theorem scan_rightParen (h : scan mode (')' :: rest) = some ts) :
    mode = .plain ∧ ∃ us, ts = .rightParen :: us ∧ scan .plain rest = some us := by
  have hspace : ¬ Lexeme.isSpace ')' := by decide
  have hcomment : ')' ≠ '#' := by decide
  cases mode with
  | plain =>
    rw [scan_token hspace hcomment rfl] at h
    obtain ⟨us, hus, rfl⟩ := Option.map_eq_some_iff.mp h
    exact ⟨rfl, us, rfl, hus⟩
  | braces =>
    rw [scan_eq_none hspace hcomment rfl] at h
    cases h
  | brackets colon =>
    rw [scan_eq_none hspace hcomment rfl] at h
    cases h

end Token

end PromQL

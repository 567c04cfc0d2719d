import PromQL.Proofs.Token.Spelling

/-!
# Words among tokens

What the lexer says of the words that it gives: outside of braces, each is the token of its own
spelling. The tokens of a query keep this wherever a reader starts.
-/

namespace PromQL

/-! ### Words -/

/-- The spelling of a token that is a word. -/
def Token.word? : Token → Option Text
  | identifier name | metric name => some name
  | keyword _ spelling => some spelling
  | _ => none

/-- A word is the token that the lexer takes its spelling for. -/
def Token.Lexical (t : Token) : Prop := ∀ w ∈ t.word?, isBareMetric w ∧ Lexeme.ofWord w = t

/-- Tokens of which the words are those that the lexer gives, unless they stand in braces. -/
def Lexed : LexMode → List Token → Prop
  | _, [] => True
  | mode, t :: ts => (mode ≠ .braces → t.Lexical) ∧ Lexed (mode.after t) ts

theorem Token.Lexical.of_not_word {t : Token} (h : t.word? = none) : t.Lexical := by
  intro w hw
  rw [h] at hw
  cases hw

theorem Token.word?_of_isSign {t : Token} (h : t.isSign) : t.word? = none := by
  cases t <;> first | rfl | cases h

/-- Behind braces, everything is as it was in front of them. -/
theorem Lexed.of_dropWhile {mode : LexMode} {ts rest : List Token} {t : Token} (h : Lexed mode ts)
    (hdrop : ts.dropWhile (· != .rightBrace) = t :: rest) : Lexed .plain rest := by
  induction ts generalizing mode with
  | nil => cases hdrop
  | cons u ts ih =>
    by_cases hu : u = .rightBrace
    · subst hu
      cases hdrop
      exact h.2
    · rw [List.dropWhile_cons_of_pos (by simpa using hu)] at hdrop
      exact ih h.2 hdrop

/-! ### The tokens of a text -/

namespace Lexeme

theorem word?_ofWord {word w : Text} (h : (ofWord word).word? = some w) : w = word := by
  unfold ofWord at h
  simp only at h
  split at h
  · exact (Option.some.inj h).symm
  · split at h
    · cases h
    · split at h
      · exact (Option.some.inj h).symm
      · exact (Option.some.inj h).symm

/-- A word that is read outside of braces and brackets is a name by its characters. -/
theorem lexical_word {c : Char} {cs : Text} (hc : isWordStart c ∨ c = ':') :
    (word (c :: cs)).1.Lexical := by
  intro w hw
  simp only [word] at hw ⊢
  rw [word?_ofWord hw]
  refine ⟨?_, rfl⟩
  have hall := List.all_takeWhile (p := fun c => isWordChar c || c == ':') (l := cs)
  rw [spanOf, List.takeWhile_cons_of_pos (p := fun c => isWordChar c || c == ':')
    (isWordChar_or_colon_of_start hc), isBareMetric, isName_cons, hall, Bool.and_true]
  simpa using hc

theorem quantity?_token {text rest : Text} {t : Token} (h : quantity? text = some (t, rest)) :
    t.word? = none ∧ ∀ mode : LexMode, mode.after t = mode := by
  simp only [quantity?] at h
  split_ifs at h
  · simp only [Option.bind_eq_bind, Option.bind_eq_some_iff, Option.pure_def, Option.some.injEq,
      Prod.exists, Prod.mk.injEq] at h
    obtain ⟨-, -, -, rfl, -⟩ := h
    exact ⟨rfl, fun _ => rfl⟩
  · simp only [Option.some.injEq, Prod.mk.injEq] at h
    rw [← h.1]
    exact ⟨rfl, fun _ => rfl⟩

theorem string?_token {mark : Char} {text rest : Text} {t : Token}
    (h : string? mark text = some (t, rest)) :
    t.word? = none ∧ ∀ mode : LexMode, mode.after t = mode := by
  simp only [string?, Option.map_eq_some_iff, Prod.exists, Prod.mk.injEq] at h
  obtain ⟨body, rest', -, rfl, -⟩ := h
  exact ⟨rfl, fun _ => rfl⟩

/-- What the lexer says of one token. -/
def Follows (mode : LexMode) (l : Lexeme) : Prop :=
  (mode ≠ .braces → l.token.Lexical) ∧ l.mode = mode.after l.token

theorem follows_stay {mode : LexMode} {next : Option (Token × Text)} {l : Lexeme}
    (hl : next.map (stay mode) = some l) (h : ∀ t rest, next = some (t, rest) →
      t.word? = none ∧ ∀ mode : LexMode, mode.after t = mode) : Follows mode l := by
  obtain ⟨⟨t, rest⟩, hnext, rfl⟩ := Option.map_eq_some_iff.mp hl
  obtain ⟨hword, hafter⟩ := h t rest hnext
  exact ⟨fun _ => .of_not_word hword, (hafter mode).symm⟩

theorem follows_read? {mode : LexMode} {c : Char} {cs : Text} {l : Lexeme}
    (h : read? mode (c :: cs) = some l) : Follows mode l := by
  have hsign : l.token.isSign → l.token.Lexical := fun h => .of_not_word (Token.word?_of_isSign h)
  cases mode with
  | plain =>
    rcases plain?_cases h with ⟨hs, hmode, -⟩ | ⟨-, hl⟩ | ⟨hc, rfl⟩ | ⟨-, hl⟩
    · exact ⟨fun _ => hsign hs, hmode⟩
    · exact follows_stay hl fun t rest => quantity?_token
    · exact ⟨fun _ => lexical_word hc, (after_ofWord _ _).symm⟩
    · exact follows_stay hl fun t rest => string?_token
  | braces =>
    rcases braces?_cases h with ⟨hs, hmode, -⟩ | ⟨-, hl⟩ | ⟨-, rfl⟩
    · exact ⟨fun _ => hsign hs, hmode⟩
    · exact follows_stay hl fun t rest => string?_token
    · exact ⟨fun hne => absurd rfl hne, rfl⟩
  | brackets colon =>
    rcases brackets?_cases h with ⟨hs, hmode, -⟩ | ⟨-, hl⟩
    · exact ⟨fun _ => hsign hs, hmode⟩
    · exact follows_stay hl fun t rest => quantity?_token

end Lexeme

namespace Token

/-- A text that is scanned has no tokens left, or is scanned behind a blank or a comment, or starts
with a token. -/
theorem scan_cases {mode : LexMode} {text : Text} {ts : List Token} (h : scan mode text = some ts) :
    ts = [] ∨ (∃ rest, rest.length < text.length ∧ scan mode rest = some ts) ∨
      ∃ l us, Lexeme.Follows mode l ∧ l.rest.length < text.length ∧
        scan l.mode l.rest = some us ∧ ts = l.token :: us := by
  cases text with
  | nil =>
    rw [scan_nil] at h
    split at h
    · exact .inl (Option.some.inj h).symm
    · cases h
  | cons c cs =>
    rw [scan, scan?] at h
    split_ifs at h with hspace hcomment
    · rw [scan?_eq_scan (by simp)] at h
      exact .inr (.inl ⟨cs, by simp, h⟩)
    · have hlength := (List.dropWhile_suffix (l := cs) fun c => !Lexeme.isLineEnd c).length_le
      rw [scan?_eq_scan (by simpa using Nat.lt_succ_of_le hlength)] at h
      exact .inr (.inl ⟨_, Nat.lt_succ_of_le hlength, h⟩)
    · obtain ⟨l, hl, h⟩ := Option.bind_eq_some_iff.mp h
      have hlength := Lexeme.length_read? hl
      obtain ⟨us, hus, rfl⟩ := Option.map_eq_some_iff.mp h
      rw [scan?_eq_scan hlength] at hus
      exact .inr (.inr ⟨l, us, Lexeme.follows_read? hl, hlength, hus, rfl⟩)

end Token

/-- The words among the tokens of a text are those that the lexer gives. -/
theorem lexed_of_scan {mode : LexMode} {text : Text} {ts : List Token}
    (h : Token.scan mode text = some ts) : Lexed mode ts := by
  induction hn : text.length using Nat.strongRecOn generalizing mode text ts with
  | ind n ih =>
    subst hn
    rcases Token.scan_cases h with rfl | ⟨rest, hlength, hrest⟩ | ⟨l, us, hl, hlength, hus, rfl⟩
    · trivial
    · exact ih _ hlength hrest rfl
    · refine ⟨hl.1, ?_⟩
      rw [← hl.2]
      exact ih _ hlength hus rfl

end PromQL

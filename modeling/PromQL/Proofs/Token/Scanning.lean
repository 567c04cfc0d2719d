import PromQL.Proofs.Token.Spelling

/-!
# Texts that spell tokens

A text spells tokens if it consists of their spellings, with blanks in between, each of which the
lexer reads as its token. Such a text is scanned as these tokens. The one exception is an opening
bracket in front of a colon, which the lexer refuses.
-/

namespace PromQL

/-! ### Texts with blanks between tokens -/

/-- Whether no placeholder and no variable can start in a text. -/
def IsFixed (text : Text) : Prop := ∀ c ∈ text, c ≠ 'V' ∧ c ≠ '$'

instance (text : Text) : Decidable (IsFixed text) := List.decidableBAll _ text

/-- A condition on texts that depends on their first characters only. -/
def ByHead (ok : Text → Prop) : Prop := ∀ a b : Text, a.head? = b.head? → ok a → ok b

theorem Token.isFixed_of_isSign {t : Token} (h : t.isSign) : IsFixed t.spelling := by
  cases t
  case operator op => cases op <;> decide
  case matchOp op => cases op <;> decide
  case orWord => decide
  all_goals first | cases h; done | simp [IsFixed, spelling]

/-- The rest of a text, which the lexer enters in some mode, spells tokens. Words and quoted texts
may be any; other tokens have no placeholders in them, and are read by what follows them first. -/
inductive Spelled : LexMode → List Token → Text → Prop where
  | nil : Spelled .plain [] []
  | blank {mode : LexMode} {ts : List Token} {c : Char} {text : Text} (h : Lexeme.isSpace c)
      (rest : Spelled mode ts text) : Spelled mode ts (c :: text)
  | fixed {mode : LexMode} {t : Token} {ts : List Token} {text : Text} (hne : t.spelling ≠ [])
      (hfixed : IsFixed t.spelling) (h : ∀ rest : Text, rest.head? = text.head? → t.Reads mode rest)
      (rest : Spelled (mode.after t) ts text) : Spelled mode (t :: ts) (t.spelling ++ text)
  | word {w : Text} {ts : List Token} {text : Text} (hw : isBareMetric w) (hend : IsBoundary text)
      (rest : Spelled .plain ts text) : Spelled .plain (Lexeme.ofWord w :: ts) (w ++ text)
  | label {w : Text} {ts : List Token} {text : Text} (hw : isBareLabel w) (hend : IsNameEnd text)
      (hspace : text.head? ≠ some ' ') (rest : Spelled .braces ts text) :
      Spelled .braces (.identifier w :: ts) (w ++ text)
  | quoted {mode : LexMode} {ts : List Token} {text : Text} (v : Text)
      (hmode : mode = .plain ∨ mode = .braces) (rest : Spelled mode ts text) :
      Spelled mode (quotedToken v :: ts) (quote v ++ text)
  | bracket {ts : List Token} {text : Text} (rest : Spelled (.brackets false) ts text) :
      Spelled .plain (.leftBracket :: ts) ('[' :: text)

/-! ### Scanning -/

namespace Token

/-- A token that is read at its spelling is scanned there. -/
theorem scan_spelling {mode : LexMode} {t : Token} {text : Text} (hne : t.spelling ≠ [])
    (h : t.Reads mode text) :
    scan mode (t.spelling ++ text) = (scan (mode.after t) text).map (t :: ·) := by
  obtain ⟨c, cs, hspelling⟩ := List.exists_cons_of_ne_nil hne
  obtain ⟨hspace, hcomment⟩ := h.start c (by rw [hspelling]; rfl)
  have hread := h.read
  rw [hspelling, List.cons_append] at hread ⊢
  exact scan_token hspace hcomment hread

theorem scan_word {w text : Text} (hw : isBareMetric w) (hend : IsBoundary text) :
    scan .plain (w ++ text) = (scan .plain text).map (Lexeme.ofWord w :: ·) := by
  have hne : (Lexeme.ofWord w).spelling ≠ [] := by
    rw [Lexeme.spelling_ofWord]
    rintro rfl
    cases hw
  have h := scan_spelling hne (Lexeme.reads_ofWord hw hend)
  rwa [Lexeme.spelling_ofWord, Lexeme.after_ofWord] at h

theorem scan_label {w text : Text} (hw : isBareLabel w) (hend : IsNameEnd text)
    (hspace : text.head? ≠ some ' ') :
    scan .braces (w ++ text) = (scan .braces text).map (.identifier w :: ·) := by
  have hne : (Token.identifier w).spelling ≠ [] := by
    rintro h
    rw [spelling] at h
    rw [h] at hw
    cases hw
  exact scan_spelling hne (Lexeme.reads_identifier hw hend fun h => absurd h hspace)

theorem scan_quote {mode : LexMode} (v : Text) (hmode : mode = .plain ∨ mode = .braces)
    (text : Text) : scan mode (quote v ++ text) = (scan mode text).map (quotedToken v :: ·) :=
  scan_spelling (by simp [spelling_quotedToken, quote]) (reads_quotedToken v hmode text)

theorem scan_bracket {text : Text} (h : text.head? ≠ some ':') :
    scan .plain ('[' :: text) = (scan (.brackets false) text).map (.leftBracket :: ·) := by
  have hspace : ¬ Lexeme.isSpace '[' := by decide
  have hcomment : '[' ≠ '#' := by decide
  have hread : Lexeme.read? .plain ('[' :: text) = some ⟨.leftBracket, .brackets false, text⟩ := by
    cases text with
    | nil => rfl
    | cons c cs =>
      simp only [Lexeme.read?]
      unfold Lexeme.plain?
      split
      all_goals rename_i heq; cases heq
      · exact absurd rfl h
      · rfl
      · exact absurd rfl (by assumption)
  exact scan_token hspace hcomment hread

theorem scan_bracket_colon (cs : Text) : scan .plain ('[' :: ':' :: cs) = none :=
  scan_eq_none (c := '[') (by decide) (by decide) rfl

end Token

namespace Spelled

/-- In brackets, a colon in the text is a colon among the tokens. -/
theorem head_colon {mode : LexMode} {ts : List Token} {text cs : Text} (h : Spelled mode ts text)
    (hmode : mode = .brackets false) (hcolon : text = ':' :: cs) : ∃ us, ts = .colon :: us := by
  cases h with
  | nil => cases hmode
  | blank h =>
    cases hcolon
    exact absurd h (by decide)
  | @fixed _ t ts text _ _ h =>
    subst hmode
    have hread := (h text rfl).read
    rw [hcolon] at hread
    cases hread
    exact ⟨ts, rfl⟩
  | word => cases hmode
  | label => cases hmode
  | quoted _ h => subst hmode; rcases h with h | h <;> cases h
  | bracket => cases hmode

/-- Spelled tokens are scanned, unless a bracket stands in front of a colon. -/
theorem scan {mode : LexMode} {ts : List Token} {text : Text} (h : Spelled mode ts text) :
    Token.scan mode text = some ts ∨
      Token.scan mode text = none ∧ [.leftBracket, .colon] <:+: ts := by
  have hstep {mode mode' : LexMode} {t : Token} {ts : List Token} {text text' : Text}
      (ih : Token.scan mode' text' = some ts ∨
        Token.scan mode' text' = none ∧ [.leftBracket, .colon] <:+: ts)
      (hscan : Token.scan mode text = (Token.scan mode' text').map (t :: ·)) :
      Token.scan mode text = some (t :: ts) ∨
        Token.scan mode text = none ∧ [.leftBracket, .colon] <:+: t :: ts := by
    rw [hscan]
    rcases ih with ih | ⟨ih, hinfix⟩
    · exact .inl (by rw [ih]; rfl)
    · exact .inr ⟨by rw [ih]; rfl, hinfix.trans (List.suffix_cons t ts).isInfix⟩
  induction h with
  | nil => exact .inl rfl
  | blank hspace _ ih =>
    rw [Token.scan_space hspace]
    exact ih
  | fixed hne _ h _ ih => exact hstep ih (Token.scan_spelling hne (h _ rfl))
  | word hw hend _ ih => exact hstep ih (Token.scan_word hw hend)
  | label hw hend hspace _ ih => exact hstep ih (Token.scan_label hw hend hspace)
  | quoted v hmode _ ih => exact hstep ih (Token.scan_quote v hmode _)
  | @bracket ts text hrest ih =>
    by_cases hcolon : text.head? = some ':'
    · obtain ⟨cs, rfl⟩ := List.head?_eq_some_iff.mp hcolon
      obtain ⟨us, rfl⟩ := hrest.head_colon rfl rfl
      exact .inr ⟨Token.scan_bracket_colon cs, ⟨[], us, rfl⟩⟩
    · exact hstep ih (Token.scan_bracket hcolon)

end Spelled

/-! ### Parts of texts -/

/-- A text spells tokens wherever what follows it does and is as it has to be. -/
def Spells (mode : LexMode) (text : Text) (ts : List Token) (mode' : LexMode) (ok : Text → Prop) :
    Prop :=
  ∀ us rest, ok rest → Spelled mode' us rest → Spelled mode (ts ++ us) (text ++ rest)

/-- No condition on what follows. -/
def Anything (_ : Text) : Prop := True

namespace Spells

variable {mode mode' mode'' : LexMode} {a b : Text} {ts us : List Token} {ok ok' : Text → Prop}

theorem nil : Spells mode [] [] mode ok := fun _ _ _ h => h

theorem nothing : Spells mode [] [] mode Anything := nil

theorem append (ha : Spells mode a ts mode' ok) (hb : Spells mode' b us mode'' ok')
    (hok : ∀ rest, ok' rest → ok (b ++ rest)) : Spells mode (a ++ b) (ts ++ us) mode'' ok' := by
  intro vs rest hrest h
  rw [List.append_assoc, List.append_assoc]
  exact ha _ _ (hok rest hrest) (hb vs rest hrest h)

theorem weaken (h : Spells mode a ts mode' ok) (hok : ∀ rest, ok' rest → ok rest) :
    Spells mode a ts mode' ok' :=
  fun us rest hrest => h us rest (hok rest hrest)

theorem ofAnything (h : Spells mode a ts mode' Anything) : Spells mode a ts mode' ok :=
  h.weaken fun _ _ => trivial

/-- A token in which no placeholder can start. -/
theorem fixed {t : Token} (hne : t.spelling ≠ []) (hfixed : IsFixed t.spelling) (hok : ByHead ok)
    (h : ∀ rest, ok rest → t.Reads mode rest) : Spells mode t.spelling [t] (mode.after t) ok :=
  fun _ rest hrest hus =>
    .fixed hne hfixed (fun rest' hhead => h rest' (hok rest rest' hhead.symm hrest)) hus

theorem blank {c : Char} (hc : Lexeme.isSpace c) (h : Spells mode a ts mode' ok) :
    Spells mode (c :: a) ts mode' ok :=
  fun us rest hrest hus => .blank hc (h us rest hrest hus)

theorem blanks (cs : Text) (hcs : ∀ c ∈ cs, Lexeme.isSpace c) (h : Spells mode a ts mode' ok) :
    Spells mode (cs ++ a) ts mode' ok := by
  induction cs with
  | nil => exact h
  | cons c cs ih =>
    exact (ih fun d hd => hcs d (List.mem_cons_of_mem c hd)).blank (hcs c List.mem_cons_self)

/-- A sign of one character in front of a text. -/
theorem sign {t : Token} {c : Char} (hspelling : t.spelling = [c]) (hsign : t.isSign)
    (h : ∀ rest, t.Reads mode rest) (ha : Spells (mode.after t) a ts mode' ok) :
    Spells mode (c :: a) (t :: ts) mode' ok := by
  intro us rest hrest hus
  have hne : t.spelling ≠ [] := by simp [hspelling]
  have hspelled := Spelled.fixed hne (Token.isFixed_of_isSign hsign) (fun rest' _ => h rest')
    (ha us rest hrest hus)
  rw [hspelling] at hspelled
  exact hspelled

theorem bracket (ha : Spells (.brackets false) a ts mode' ok) :
    Spells .plain ('[' :: a) (.leftBracket :: ts) mode' ok :=
  fun us rest hrest hus => .bracket (ha us rest hrest hus)

/-- Parts with a separator in between. -/
theorem intercalate {α : Type} {sep : Text} {sepTokens : List Token} {f : α → Text}
    {g : α → List Token} {xs : List α} (hsep : Spells mode sep sepTokens mode Anything)
    (hok : ∀ rest, ok (sep ++ rest)) (h : ∀ x ∈ xs, Spells mode (f x) (g x) mode ok) :
    Spells mode (sep.intercalate (xs.map f)) (sepTokens.intercalate (xs.map g)) mode ok := by
  induction xs with
  | nil => exact nil
  | cons x xs ih =>
    have hx := h x List.mem_cons_self
    have ih := ih fun y hy => h y (List.mem_cons_of_mem x hy)
    cases xs with
    | nil => simpa [List.intercalate] using hx
    | cons y ys =>
      have htail := hsep.append ih fun _ _ => trivial
      have hall := hx.append htail fun rest _ => by
        rw [List.append_assoc]
        exact hok _
      simpa [List.intercalate, List.intersperse] using hall

end Spells

/-! ### Signs -/

namespace Token

/-- The signs of one character that are read whatever follows. -/
theorem reads_sign {mode : LexMode} {t : Token} (rest : Text)
    (h : mode = .plain ∧ (t = .leftParen ∨ t = .rightParen ∨ t = .leftBrace ∨ t = .comma ∨
        t = .atSign ∨ t = .operator .add ∨ t = .operator .sub) ∨
      mode = .braces ∧ (t = .rightBrace ∨ t = .comma ∨ t = .orWord) ∨
      mode = .brackets false ∧ (t = .rightBracket ∨ t = .colon) ∨
      mode = .brackets true ∧ t = .rightBracket) : t.Reads mode rest := by
  rcases h with ⟨rfl, h⟩ | ⟨rfl, h⟩ | ⟨rfl, h⟩ | ⟨rfl, rfl⟩
  · rcases h with rfl | rfl | rfl | rfl | rfl | rfl | rfl <;>
      exact ⟨by rintro c ⟨⟩; decide, rfl⟩
  · rcases h with rfl | rfl | rfl
    · exact ⟨by rintro c ⟨⟩; decide, rfl⟩
    · exact ⟨by rintro c ⟨⟩; decide, rfl⟩
    · exact ⟨by rintro c ⟨⟩; decide, rfl⟩
  · rcases h with rfl | rfl <;> exact ⟨by rintro c ⟨⟩; decide, rfl⟩
  · exact ⟨by rintro c ⟨⟩; decide, rfl⟩

end Token

end PromQL

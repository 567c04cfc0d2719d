import Mathlib
import PromQL.Proofs.Template.Escapes
import PromQL.Proofs.Token.Places

/-!
# Variables of tokens

The variables that stand behind the placeholders of a text are those of its tokens, both where the
text is scanned and where it is written: a token ends where no name goes on, or no placeholder can
start in it. Keywords, numbers and durations have no variables, and strings those of what they stand
for.
-/

namespace PromQL

/-! ### Kinds of tokens -/

namespace Lexeme

variable {c : Char} {cs text rest : Text} {t : Token} {l : Lexeme}

theorem isNameEnd_dropWhile {p : Char → Bool} (hp : ∀ c, isWordChar c → p c) (text : Text) :
    IsNameEnd (text.dropWhile p) := by
  intro d hd hword
  have hnot := List.head?_dropWhile_not p text
  rw [hd] at hnot
  have hfalse : p d = false := hnot
  rw [hp d hword] at hfalse
  cases hfalse

theorem isFixed_of_quantity? (h : quantity? text = some (t, rest)) : IsFixed t.spelling := by
  intro d hd
  have hchar := isQuantityChar_of_mem_quantity? h hd
  constructor <;> rintro rfl <;> exact absurd hchar (by decide)

/-- A token is a sign, a quantity, a word that ends where it is left, or a string. -/
inductive Kind : Token → Text → Prop
  | sign {t : Token} {rest : Text} (h : t.isSign) : Kind t rest
  | number {spelling rest : Text} (h : IsFixed spelling) : Kind (.number spelling) rest
  | duration {spelling rest : Text} (h : IsFixed spelling) : Kind (.duration spelling) rest
  | word {w rest : Text} (h : IsNameEnd rest) : Kind (ofWord w) rest
  | label {w rest : Text} (h : IsNameEnd rest) : Kind (.identifier w) rest
  | string {mark : Char} {body rest : Text} (h : isMark mark) : Kind (.string mark body) rest

theorem kind_of_quantity? {mode : LexMode} (h : (quantity? text).map (stay mode) = some l) :
    Kind l.token l.rest := by
  obtain ⟨⟨t, rest⟩, hquantity, rfl⟩ := Option.map_eq_some_iff.mp h
  have hfixed := isFixed_of_quantity? hquantity
  simp only [quantity?] at hquantity
  split_ifs at hquantity
  · obtain ⟨⟨more, behind⟩, -, hquantity⟩ := Option.bind_eq_some_iff.mp hquantity
    cases hquantity
    exact .duration hfixed
  · cases hquantity
    exact .number hfixed

theorem kind_of_string? {mode : LexMode} (hmark : isMark c)
    (h : (string? c cs).map (stay mode) = some l) : Kind l.token l.rest := by
  obtain ⟨⟨t, rest⟩, hstring, rfl⟩ := Option.map_eq_some_iff.mp h
  obtain ⟨⟨body, behind⟩, -, hstring⟩ := Option.map_eq_some_iff.mp hstring
  cases hstring
  exact .string hmark

theorem kind_of_read? {mode : LexMode} (h : read? mode (c :: cs) = some l) :
    Kind l.token l.rest := by
  cases mode with
  | plain =>
    rcases plain?_cases h with ⟨hsign, -⟩ | ⟨-, hl⟩ | ⟨-, rfl⟩ | ⟨hmark, hl⟩
    · exact .sign hsign
    · exact kind_of_quantity? hl
    · exact .word (isNameEnd_dropWhile (fun d hd => by rw [hd, Bool.true_or]) _)
    · exact kind_of_string? hmark hl
  | braces =>
    rcases braces?_cases h with ⟨hsign, -⟩ | ⟨hmark, hl⟩ | ⟨-, rfl⟩
    · exact .sign hsign
    · exact kind_of_string? hmark hl
    · exact .label (isNameEnd_dropWhile (fun _ => id) _)
  | brackets colon =>
    rcases brackets?_cases h with ⟨hsign, -⟩ | ⟨-, hl⟩
    · exact .sign hsign
    · exact kind_of_quantity? hl

theorem isSeparator_of_isMark {mark : Char} (h : isMark mark) : IsSeparator mark := by
  simp only [isMark, Bool.or_eq_true, beq_iff_eq] at h
  rcases h with (rfl | rfl) | rfl <;> exact ⟨by decide, by decide⟩

end Lexeme

/-! ### Words without variables -/

/-- Whether a word in lower case has no digit, or not the first letter of stems, and no dollar
sign. -/
def IsDigitless (word : Text) : Prop := '$' ∉ word ∧ ('v' ∉ word ∨ ∀ c ∈ word, ¬ c.isDigit)

theorem Keyword.isDigitless_table :
    ∀ entry ∈ table, '$' ∉ entry.1.toList ∧ 'v' ∉ entry.1.toList := by
  decide

theorem Keyword.isDigitless_aggregate (op : AggregateOp) :
    '$' ∉ op.text ∧ ∀ c ∈ op.text, ¬ c.isDigit := by
  have hall : op.text.all fun c => c != '$' && !c.isDigit := by cases op <;> rfl
  simp only [List.all_eq_true, Bool.and_eq_true, bne_iff_ne, Bool.not_eq_true'] at hall
  exact ⟨fun hmem => (hall _ hmem).1 rfl, fun c hc => by simp [(hall c hc).2]⟩

theorem Keyword.isDigitless_of_ofText? {word : Text} {k : Keyword} (h : ofText? word = some k) :
    IsDigitless word := by
  unfold ofText? at h
  split at h
  · next op hop =>
    have hword := List.find?_some hop
    rw [beq_iff_eq] at hword
    exact hword ▸ (isDigitless_aggregate op).imp_right .inr
  · obtain ⟨entry, hentry, -⟩ := Option.map_eq_some_iff.mp h
    have hword := List.find?_some hentry
    rw [beq_iff_eq] at hword
    exact hword ▸ (isDigitless_table entry (List.mem_of_find?_eq_some hentry)).imp_right .inl

namespace Placeholders

variable {m : Placeholders} {n : Nat}

/-- Such a word has no variables, in whatever case it is written. -/
theorem restored_of_isDigitless (hstem : m.stem = stemOf n) {word : Text}
    (h : IsDigitless (word.map Char.toLower)) : m.restored word = 0 := by
  have hdollar : '$' ∉ word := fun hmem => h.1 (List.mem_map_of_mem hmem)
  rcases h.2 with hletter | hdigits
  · refine restored_of_isFixed hstem fun c hc => ⟨?_, ?_⟩
    · rintro rfl
      exact hletter (List.mem_map_of_mem hc)
    · rintro rfl
      exact hdollar hc
  · have hunmask : m.unmask word = word := by
      refine unmask_of_not_isDigit hstem fun c hc hdigit => ?_
      have hlower : c.toLower = c := by
        refine Char.toLower_eq_of_not_isUpper fun hupper => ?_
        simp only [Char.isDigit, Char.isUpper, ge_iff_le, Bool.and_eq_true, decide_eq_true_eq,
          UInt32.le_iff_toNat_le] at hdigit hupper
        simp at hdigit hupper
        omega
      exact hdigits c (hlower ▸ List.mem_map_of_mem hc) hdigit
    rw [restored, hunmask, variablesOf_of_not_mem hdollar]
    rfl

/-! ### Variables of tokens -/

/-- The variables of some tokens, as often as they are there. -/
def tokensRestored (m : Placeholders) (ts : List Token) : Multiset Text :=
  (ts.map fun t => m.restored t.spelling).sum

@[simp] theorem tokensRestored_nil : m.tokensRestored [] = 0 := rfl

@[simp] theorem tokensRestored_cons (t : Token) (ts : List Token) :
    m.tokensRestored (t :: ts) = m.restored t.spelling + m.tokensRestored ts := by
  simp [tokensRestored]

@[simp] theorem tokensRestored_append (ts us : List Token) :
    m.tokensRestored (ts ++ us) = m.tokensRestored ts + m.tokensRestored us := by
  simp [tokensRestored]

theorem restored_of_isSign (hstem : m.stem = stemOf n) {t : Token} (h : t.isSign) :
    m.restored t.spelling = 0 :=
  restored_of_isFixed hstem (Token.isFixed_of_isSign h)

/-- A text in marks counts on its own. -/
theorem restored_string (hstem : m.stem = stemOf n) {mark : Char} (hmark : Lexeme.isMark mark)
    (body : Text) : m.restored (Token.string mark body).spelling = m.restored body := by
  have hmarked := restored_marked hstem (Lexeme.isSeparator_of_isMark hmark) body []
  rwa [List.append_nil, restored_nil, add_zero] at hmarked

/-- A token counts on its own in front of the text that it is read from. -/
theorem restored_append_of_kind (hstem : m.stem = stemOf n) {t : Token} {rest : Text}
    (h : Lexeme.Kind t rest) :
    m.restored (t.spelling ++ rest) = m.restored t.spelling + m.restored rest := by
  have hfixed : IsFixed t.spelling →
      m.restored (t.spelling ++ rest) = m.restored t.spelling + m.restored rest := fun hfixed => by
    rw [restored_append_of_isFixed hstem hfixed, restored_of_isFixed hstem hfixed, zero_add]
  cases h with
  | sign hsign => exact hfixed (Token.isFixed_of_isSign hsign)
  | number h => exact hfixed h
  | duration h => exact hfixed h
  | word hend => exact restored_append hstem hend _
  | label hend => exact restored_append hstem hend _
  | string hmark =>
    rw [restored_string hstem hmark]
    exact restored_marked hstem (Lexeme.isSeparator_of_isMark hmark) _ rest

theorem restored_read? (hstem : m.stem = stemOf n) {mode : LexMode} {c : Char} {cs : Text}
    {l : Lexeme} (h : Lexeme.read? mode (c :: cs) = some l) :
    m.restored (c :: cs) = m.restored l.token.spelling + m.restored l.rest := by
  rcases Lexeme.read?_append h with happend | ⟨hword, o, r, ho, hr, happend⟩
  · rw [← happend]
    exact restored_append_of_kind hstem (Lexeme.kind_of_read? h)
  · -- two letters are too short for a placeholder
    have hletters : m.restored [o, r] = 0 := by
      refine restored_of_not_infix hstem (fun hmem => ?_) fun hinfix => ?_
      · rcases List.mem_pair.mp hmem with rfl | rfl
        · exact absurd ho (by decide)
        · exact absurd hr (by decide)
      · have hlength := hinfix.length_le
        rw [hstem, length_stemOf, List.length_cons, List.length_singleton] at hlength
        omega
    have hspace := restored_append_cons hstem (c := ' ') ⟨by decide, by decide⟩ [o, r] l.rest
    have hor : m.restored Token.orWord.spelling = 0 := restored_of_isSign hstem rfl
    rw [happend, hword, hor, zero_add]
    rw [hletters, zero_add] at hspace
    exact hspace

/-- What the lexer takes of a text has the variables of the tokens that it reads, if there is no
comment. -/
theorem restored_of_lexes (hstem : m.stem = stemOf n) {mode mode' : LexMode} {text rest : Text}
    {ts : List Token} (h : Lexes mode text ts mode' rest) (hcomment : '#' ∉ text) :
    m.restored text = m.tokensRestored ts + m.restored rest := by
  induction h with
  | refl => rw [tokensRestored_nil, zero_add]
  | step first _ ih =>
    obtain ⟨used, -, happend, -⟩ := first.exists_append
    have hrest := ih fun hmem => hcomment (happend ▸ List.mem_append_right used hmem)
    rw [tokensRestored_append, add_assoc, ← hrest]
    cases first with
    | @space c _ hspace =>
      have hc : c ≠ 'V' ∧ c ≠ '$' := by
        constructor <;> rintro rfl <;> exact absurd hspace (by decide)
      rw [restored_cons hstem hc]
      exact (zero_add _).symm
    | comment => exact absurd List.mem_cons_self hcomment
    | token _ _ hread =>
      rw [restored_read? hstem hread]
      simp

theorem restored_of_scan (hstem : m.stem = stemOf n) {text : Text} {ts : List Token}
    (h : Token.scan .plain text = some ts) (hcomment : '#' ∉ text) :
    m.restored text = m.tokensRestored ts := by
  rw [restored_of_lexes hstem (Token.lexes_of_scan h) hcomment, restored_nil, add_zero]

/-- What the lexer takes of a text has the variables of the tokens that it reads, and those in its
comments. -/
theorem tokensRestored_le_of_lexes (hstem : m.stem = stemOf n) {mode mode' : LexMode}
    {text rest : Text} {ts : List Token} (h : Lexes mode text ts mode' rest) :
    m.tokensRestored ts + m.restored rest ≤ m.restored text := by
  induction h with
  | refl => rw [tokensRestored_nil, zero_add]
  | step first _ ih =>
    rw [tokensRestored_append, add_assoc]
    refine le_trans (add_le_add_right ih _) ?_
    cases first with
    | @space c _ hspace =>
      have hc : c ≠ 'V' ∧ c ≠ '$' := by
        constructor <;> rintro rfl <;> exact absurd hspace (by decide)
      rw [restored_cons hstem hc]
      exact (zero_add _).le
    | @comment behind =>
      have hline : ∀ c, isWordChar c → !Lexeme.isLineEnd c := by
        intro c hc
        have hne : c ≠ '\n' ∧ c ≠ '\r' := by
          constructor <;> rintro rfl <;> exact absurd hc (by decide)
        simp [Lexeme.isLineEnd, hne]
      have hcut := restored_append hstem (Lexeme.isNameEnd_dropWhile hline behind)
        (behind.takeWhile fun c => !Lexeme.isLineEnd c)
      rw [List.takeWhile_append_dropWhile] at hcut
      rw [restored_cons hstem (by decide), hcut]
      exact Multiset.le_add_left _ _
    | token _ _ hread =>
      rw [restored_read? hstem hread]
      simp

/-- A text that spells tokens has their variables. -/
theorem restored_of_spelled (hstem : m.stem = stemOf n) {mode : LexMode} {text : Text}
    {ts : List Token} (h : Spelled mode ts text) : m.restored text = m.tokensRestored ts := by
  induction h with
  | nil => exact restored_nil m
  | @blank _ _ c _ hspace _ ih =>
    have hc : c ≠ 'V' ∧ c ≠ '$' := by constructor <;> rintro rfl <;> exact absurd hspace (by decide)
    rw [restored_cons hstem hc, ih]
  | fixed _ hfixed _ _ ih =>
    rw [restored_append_of_isFixed hstem hfixed, tokensRestored_cons,
      restored_of_isFixed hstem hfixed, zero_add, ih]
  | word _ hend _ ih =>
    rw [restored_append hstem hend.isNameEnd, tokensRestored_cons, Lexeme.spelling_ofWord, ih]
  | label _ hend _ _ ih => rw [restored_append hstem hend, tokensRestored_cons, ih]; rfl
  | @quoted _ _ rest v _ _ ih =>
    have hkind : Lexeme.Kind (quotedToken v) rest := .string rfl
    rw [tokensRestored_cons, ← ih]
    exact restored_append_of_kind hstem hkind
  | bracket _ ih =>
    rw [restored_cons hstem (by decide), tokensRestored_cons, restored_of_isSign hstem rfl,
      zero_add,
      ih]

end Placeholders

/-! ### What tokens stand for -/

namespace Token

/-- The characters that the escapes of a token stand for. -/
def escapes : Token → Text
  | string mark body => if mark = backtick then [] else escaped mark .plain body
  | _ => []

/-- What a token stands for has its variables: keywords, numbers and durations have none, and a
string has those of its value. -/
def Transparent (m : Placeholders) : Token → Prop
  | number spelling | duration spelling | keyword _ spelling => m.restored spelling = 0
  | string mark body => ∀ value, unquote? mark body = some value →
      m.restored (string mark body).spelling = m.restored value
  | _ => True

variable {m : Placeholders} {n : Nat}

theorem transparent_ofWord (hstem : m.stem = Placeholders.stemOf n) (w : Text) :
    (Lexeme.ofWord w).Transparent m := by
  unfold Lexeme.ofWord
  simp only
  split
  · next k hk =>
    exact Placeholders.restored_of_isDigitless hstem (Keyword.isDigitless_of_ofText? hk)
  · split_ifs with hnumber
    · have hdigitless : IsDigitless (w.map Char.toLower) := by
        rcases Bool.or_eq_true_iff.mp hnumber with hw | hw <;> rw [beq_iff_eq.mp hw] <;>
          exact ⟨by decide, .inl (by decide)⟩
      exact Placeholders.restored_of_isDigitless hstem hdigitless
    · trivial
    · trivial

theorem transparent_of_kind (hstem : m.stem = Placeholders.stemOf n) {t : Token} {rest : Text}
    (h : Lexeme.Kind t rest) (hescapes : ∀ c ∈ t.escapes, IsSeparator c) : t.Transparent m := by
  cases h with
  | sign hsign => cases t <;> trivial
  | number h => exact Placeholders.restored_of_isFixed hstem h
  | duration h => exact Placeholders.restored_of_isFixed hstem h
  | word => exact transparent_ofWord hstem _
  | label => trivial
  | @string mark body _ hmark =>
    intro value hvalue
    rw [Placeholders.restored_string hstem hmark]
    refine Placeholders.restored_of_unquote? hstem
      (Lexeme.isSeparator_of_isMark hmark).isFixed hvalue fun hraw => ?_
    rwa [escapes, if_neg hraw] at hescapes

/-- The tokens of a text are transparent if all escapes in strings stand for separators. -/
theorem transparent_of_lexes (hstem : m.stem = Placeholders.stemOf n) {mode mode' : LexMode}
    {text rest : Text} {ts : List Token} (h : Lexes mode text ts mode' rest)
    (hescapes : ∀ t ∈ ts, ∀ c ∈ t.escapes, IsSeparator c) : ∀ t ∈ ts, t.Transparent m := by
  induction h with
  | refl => exact List.forall_mem_nil _
  | step first _ ih =>
    rw [List.forall_mem_append] at hescapes ⊢
    refine ⟨?_, ih hescapes.2⟩
    cases first with
    | space => exact List.forall_mem_nil _
    | comment => exact List.forall_mem_nil _
    | token _ _ hread =>
      have hlast := hescapes.1
      simp only [Option.toList_some, List.forall_mem_singleton] at hlast ⊢
      exact transparent_of_kind hstem (Lexeme.kind_of_read? hread) hlast

end Token

end PromQL

import PromQL.Proofs.Expr.Matchers
import PromQL.Proofs.Expr.Spelling
import PromQL.Proofs.Template.Lexemes
import PromQL.Proofs.Template.Literals

/-!
# Matchers as they are written

In a query, a matcher has blanks and comments around its label, its operator and its value, and
variables in the label and in the value. With placeholders for the variables, it is read as tokens
that are the same but for the numbers of the placeholders.
-/

namespace PromQL

/-! ### Parts -/

/-- A part of a matcher in a query. -/
inductive MatcherPart where
  | blank (c : Char)
  /-- A comment ends with its line. -/
  | comment (text : Text)
  | label (name : Text)
  | op (op : MatchOp)
  | string (mark : Char) (body : Text)
  deriving DecidableEq, Repr

namespace MatcherPart

/-- A part as it is written. -/
def text : MatcherPart → Text
  | blank c => [c]
  | comment t => '#' :: t ++ ['\n']
  | label name => name
  | op o => o.text
  | string mark body => mark :: body ++ [mark]

/-- The token that a part is, if it is one. -/
def token? : MatcherPart → Option Token
  | blank _ | comment _ => none
  | label name => some (.identifier name)
  | op o => some (.matchOp o)
  | string mark body => some (.string mark body)

/-- A part with placeholders for its variables, the first of which is in the given place. -/
def maskedFrom (stem : Text) (index : Nat) : MatcherPart → MatcherPart
  | blank c => blank c
  | comment t => comment (Placeholders.maskFrom stem index t)
  | label name => label (Placeholders.maskFrom stem index name)
  | op o => op o
  | string mark body => string mark (Placeholders.maskFrom stem index body)

/-- Whether a part is what it is meant to be once its variables have given way to placeholders. -/
def IsLegal : MatcherPart → Prop
  | blank c => Lexeme.isSpace c
  | comment t => ∀ c ∈ t, ¬ Lexeme.isLineEnd c
  | label name => isBareLabel (Placeholders.mask name)
  | op _ => True
  | string mark body => Lexeme.isMark mark ∧ Lexeme.bodySpan? mark (body ++ [mark]) = some (body, [])

instance : DecidablePred IsLegal
  | blank _ => inferInstanceAs (Decidable (_ = _))
  | comment _ => inferInstanceAs (Decidable (∀ _ ∈ _, _))
  | label _ => inferInstanceAs (Decidable (_ = _))
  | op _ => inferInstanceAs (Decidable True)
  | string .. => inferInstanceAs (Decidable (_ ∧ _))

/-- Whether one part may stand in front of another one: a label not in front of a label, and not in
front of a space if it is the word between alternatives. -/
def Precedes : MatcherPart → MatcherPart → Prop
  | label _, label _ => False
  | label name, blank c => c = ' ' → name.map Char.toLower ≠ "or".toList
  | _, _ => True

instance : DecidableRel Precedes
  | label _, label _ => inferInstanceAs (Decidable False)
  | label _, blank _ => inferInstanceAs (Decidable (_ → _))
  | label _, comment _ | label _, op _ | label _, string .. => inferInstanceAs (Decidable True)
  | blank _, _ | comment _, _ | op _, _ | string .., _ => inferInstanceAs (Decidable True)

end MatcherPart

/-! ### Parts with placeholders -/

namespace MatcherPart

open Placeholders

variable {n i : Nat} {p q : MatcherPart} {ps : List MatcherPart} {rest : Text}

theorem isWordChar_not_isLineEnd {c : Char} (h : isWordChar c) : ¬ Lexeme.isLineEnd c := by
  intro hend
  simp only [Lexeme.isLineEnd, Bool.or_eq_true, beq_iff_eq] at hend
  rcases hend with rfl | rfl <;> exact absurd h (by decide)

theorem isSeparator_of_isSpace {c : Char} (h : Lexeme.isSpace c) : IsSeparator c := by
  simp only [Lexeme.isSpace, Bool.or_eq_true, beq_iff_eq] at h
  rcases h with (((rfl | rfl) | rfl) | rfl) | rfl <;> decide

/-- What a part wants to have behind it. -/
def FitsBefore (p : MatcherPart) (rest : Text) : Prop :=
  match p with
  | label name => IsNameEnd rest ∧ (rest.head? = some ' ' → name.map Char.toLower ≠ "or".toList)
  | op _ => rest.head? ≠ some '~'
  | _ => True

/-- A part with placeholders is read as its token. -/
theorem lexes_maskedFrom (hp : p.IsLegal) (hrest : p.FitsBefore rest) :
    Lexes .braces ((p.maskedFrom (stemOf n) i).text ++ rest)
      (p.maskedFrom (stemOf n) i).token?.toList .braces rest := by
  cases p with
  | blank c => exact .step (.space hp) .refl
  | comment t =>
    have hline : ∀ c ∈ maskFrom (stemOf n) i t, (!Lexeme.isLineEnd c) = true := by
      intro c hc
      rcases mem_or_of_mem_maskFrom hc with hc | hc
      · simpa using hp c hc
      · simpa using isWordChar_not_isLineEnd hc
    have hdrop : (maskFrom (stemOf n) i t ++ '\n' :: rest).dropWhile (fun c => !Lexeme.isLineEnd c) =
        '\n' :: rest := by
      rw [List.dropWhile_append_of_pos hline]
      rfl
    have hcomment : LexStep .braces ('#' :: (maskFrom (stemOf n) i t ++ '\n' :: rest)) none .braces
        ((maskFrom (stemOf n) i t ++ '\n' :: rest).dropWhile fun c => !Lexeme.isLineEnd c) :=
      .comment (.inr rfl)
    rw [hdrop] at hcomment
    have hlexes := Lexes.step hcomment (.step (.space (c := '\n') rfl) .refl)
    simpa [maskedFrom, text, token?] using hlexes
  | label name =>
    obtain ⟨hend, hor⟩ := hrest
    have hname := isBareLabel_maskFrom hp n i
    have hne : (Token.identifier (maskFrom (stemOf n) i name)).spelling ≠ [] := by
      intro hnil
      rw [Token.spelling] at hnil
      rw [hnil] at hname
      cases hname
    refine .of_step (.of_reads hne (Lexeme.reads_identifier hname hend fun hspace hword => ?_))
    have hlength := congrArg List.length hword
    rw [List.length_map] at hlength
    rw [maskFrom_eq_self (hlength.trans_lt (by decide))] at hword
    exact hor hspace hword
  | op o =>
    have hne : (Token.matchOp o).spelling ≠ [] := by cases o <;> exact List.cons_ne_nil _ _
    exact .of_step (.of_reads hne (reads_matchOp o hrest))
  | string mark body =>
    have hbody := Lexeme.isBody_maskFrom hp.1 hp.2 n i
    exact .of_step (.of_reads (u := .string mark _) (List.cons_ne_nil _ _)
      (Lexeme.reads_string (.inr rfl) hp.1 hbody))

/-- Behind a label, a part that may stand there ends the name. -/
theorem Precedes.isNameEnd {name : Text} (h : (label name).Precedes q) (hq : q.IsLegal)
    (rest : Text) :
    IsNameEnd (q.text ++ rest) ∧ IsNameEnd ((q.maskedFrom (stemOf n) i).text ++ rest) := by
  cases q with
  | label => exact absurd h not_false
  | blank c => constructor <;> rintro _ ⟨⟩ <;> exact (isSeparator_of_isSpace hq).1
  | comment => constructor <;> rintro _ ⟨⟩ <;> decide
  | op o => cases o <;> constructor <;> rintro _ ⟨⟩ <;> decide
  | string mark =>
    rcases Lexeme.isMark_cases hq.1 with rfl | rfl | rfl <;> constructor <;> rintro _ ⟨⟩ <;> decide

/-- A part that may stand behind another one fits there. -/
theorem Precedes.fitsBefore (h : p.Precedes q) (hq : q.IsLegal) (rest : Text) :
    p.FitsBefore ((q.maskedFrom (stemOf n) i).text ++ rest) := by
  cases p with
  | blank | comment | string => trivial
  | label name =>
    refine ⟨(h.isNameEnd hq rest).2, fun hspace => ?_⟩
    cases q with
    | label => exact absurd h not_false
    | blank c => exact h (Option.some.inj hspace)
    | comment => cases hspace
    | op o => cases o <;> cases hspace
    | string mark => rcases Lexeme.isMark_cases hq.1 with rfl | rfl | rfl <;> cases hspace
  | op o =>
    cases q with
    | label name =>
      have hname : isBareLabel (maskFrom (stemOf n) i name) := isBareLabel_maskFrom hq n i
      intro htilde
      rw [maskedFrom, text] at htilde
      cases hmasked : maskFrom (stemOf n) i name with
      | nil =>
        rw [hmasked] at hname
        cases hname
      | cons c cs =>
        rw [hmasked] at hname htilde
        cases htilde
        rw [isBareLabel, isName_cons, Bool.and_eq_true] at hname
        exact absurd hname.1 (by decide)
    | blank c =>
      rintro ⟨⟩
      exact absurd hq (by decide)
    | comment => rintro ⟨⟩
    | op o => cases o <;> rintro ⟨⟩
    | string mark => rcases Lexeme.isMark_cases hq.1 with rfl | rfl | rfl <;> rintro ⟨⟩

/-! ### All parts of a matcher -/

/-- The text of several parts. -/
def texts (ps : List MatcherPart) : Text := ps.flatMap text

/-- The tokens of several parts. -/
def tokens (ps : List MatcherPart) : List Token := ps.filterMap token?

theorem tokens_cons (p : MatcherPart) (ps : List MatcherPart) :
    tokens (p :: ps) = p.token?.toList ++ tokens ps := by
  rw [tokens, List.filterMap_cons]
  cases p.token? <;> rfl

/-- Several parts with placeholders for their variables. -/
def allMaskedFrom (stem : Text) : Nat → List MatcherPart → List MatcherPart
  | _, [] => []
  | index, p :: ps =>
    p.maskedFrom stem index :: allMaskedFrom stem (index + (variablesOf p.text).length) ps

/-- Parts in a row with placeholders are read as their tokens. -/
theorem lexes_allMaskedFrom (hlegal : ∀ p ∈ ps, p.IsLegal) (hchain : ps.IsChain Precedes)
    (hrest : rest.head? = some ',' ∨ rest.head? = some '}') :
    Lexes .braces (texts (allMaskedFrom (stemOf n) i ps) ++ rest)
      (tokens (allMaskedFrom (stemOf n) i ps)) .braces rest := by
  induction ps generalizing i with
  | nil => exact .refl
  | cons p ps ih =>
    obtain ⟨hp, hps⟩ := List.forall_mem_cons.mp hlegal
    have hfits : p.FitsBefore
        (texts (allMaskedFrom (stemOf n) (i + (variablesOf p.text).length) ps) ++ rest) := by
      cases ps with
      | nil =>
        have hend : IsNameEnd rest ∧ rest.head? ≠ some ' ' ∧ rest.head? ≠ some '~' := by
          rcases hrest with h | h <;> simp [IsNameEnd, h] <;> decide
        cases p with
        | label => exact ⟨hend.1, fun h => absurd h hend.2.1⟩
        | op => exact hend.2.2
        | _ => trivial
      | cons q ps =>
        rw [allMaskedFrom, texts, List.flatMap_cons, List.append_assoc]
        exact (List.isChain_cons_cons.mp hchain).1.fitsBefore (hps q List.mem_cons_self) _
    rw [allMaskedFrom, texts, tokens_cons, List.flatMap_cons, List.append_assoc]
    exact (lexes_maskedFrom hp hfits).trans (ih hps hchain.of_cons)

/-- Tokens with placeholders are as many as those without them. -/
theorem length_tokens (ps : List MatcherPart) (stem : Text) (i : Nat) :
    (tokens (allMaskedFrom stem i ps)).length = (tokens ps).length := by
  induction ps generalizing i with
  | nil => rfl
  | cons p ps ih =>
    have hp : (p.maskedFrom stem i).token?.toList.length = p.token?.toList.length := by
      cases p <;> rfl
    rw [allMaskedFrom, tokens_cons, tokens_cons, List.length_append, List.length_append, hp, ih]

/-! ### Gaps -/

/-- Blanks and comments may stand in any order. -/
theorem isChain_of_gaps (h : ∀ p ∈ ps, p.token? = none) : ps.IsChain Precedes := by
  refine List.Pairwise.isChain (List.pairwise_of_forall_mem_list fun p hp q _ => ?_)
  have hgap := h p hp
  cases p with
  | blank | comment => trivial
  | label | op | string => cases hgap

/-- Gaps with placeholders have no tokens. -/
theorem tokens_of_gaps (h : ∀ p ∈ ps, p.token? = none) (stem : Text) (i : Nat) :
    tokens (allMaskedFrom stem i ps) = [] := by
  have hnone : tokens ps = [] := List.filterMap_eq_nil_iff.mpr h
  rw [← List.length_eq_zero_iff, length_tokens, hnone, List.length_nil]

/-! ### Variables of parts -/

theorem isSeparator_of_mem_op {o : MatchOp} {c : Char} (h : c ∈ o.text) : IsSeparator c := by
  have hall : o.text.all (fun c => decide (IsSeparator c)) = true := by cases o <;> rfl
  exact of_decide_eq_true (List.all_eq_true.mp hall c h)

/-- The text of a part with placeholders is the masked text of the part. -/
theorem text_maskedFrom (hp : p.IsLegal) (stem : Text) (i : Nat) :
    (p.maskedFrom stem i).text = maskFrom stem i p.text := by
  cases p with
  | blank c =>
    have hc := isSeparator_of_isSpace hp
    exact (maskFrom_append_cons (a := []) hc stem i []).symm
  | comment t => exact (maskFrom_between (by decide) (by decide) stem i t).symm
  | label name => rfl
  | op o =>
    have hmask := maskFrom_append (fun c => isSeparator_of_mem_op (o := o)) stem i []
    rw [List.append_nil] at hmask
    rw [text, hmask]
    exact (List.append_nil _).symm
  | string mark body =>
    have hmark := Lexeme.isSeparator_of_isMark hp.1
    exact (maskFrom_between hmark hmark stem i body).symm

/-- A part can be cut off, a label in front of the end of the name. -/
theorem cuts_text (hp : p.IsLegal) (hend : ∀ name, p = label name → IsNameEnd rest) :
    Cuts p.text rest := by
  cases p with
  | blank c => exact cuts_of_isSeparator [] (isSeparator_of_isSpace hp) rest
  | comment t => exact cuts_of_isSeparator ('#' :: t) (by decide) rest
  | label name => exact cuts_of_isNameEnd name (hend name rfl)
  | op o =>
    cases o with
    | equal => exact cuts_of_isSeparator [] (c := '=') (by decide) rest
    | notEqual => exact cuts_of_isSeparator ['!'] (c := '=') (by decide) rest
    | regex => exact cuts_of_isSeparator ['='] (c := '~') (by decide) rest
    | notRegex => exact cuts_of_isSeparator ['!'] (c := '~') (by decide) rest
  | string mark body =>
    exact cuts_of_isSeparator (mark :: body) (Lexeme.isSeparator_of_isMark hp.1) rest

/-- What is behind the first of several parts ends its name if it is a label. -/
theorem isNameEnd_texts (hlegal : ∀ p ∈ ps, p.IsLegal) (hchain : (p :: ps).IsChain Precedes)
    (hrest : IsNameEnd rest) :
    ∀ name, p = label name → IsNameEnd (texts ps ++ rest) := by
  rintro name rfl
  cases ps with
  | nil => exact hrest
  | cons q ps =>
    rw [texts, List.flatMap_cons, List.append_assoc]
    exact ((List.isChain_cons_cons.mp hchain).1.isNameEnd (n := 0) (i := 0)
      (hlegal q List.mem_cons_self) _).1

/-- Several parts are masked part by part, and can be cut off in front of the end of a name. -/
theorem maskFrom_texts (hlegal : ∀ p ∈ ps, p.IsLegal) (hchain : ps.IsChain Precedes)
    (stem : Text) (i : Nat) :
    texts (allMaskedFrom stem i ps) = maskFrom stem i (texts ps) := by
  induction ps generalizing i with
  | nil => rfl
  | cons p ps ih =>
    obtain ⟨hp, hps⟩ := List.forall_mem_cons.mp hlegal
    have hend := isNameEnd_texts hps hchain isNameEnd_nil
    rw [List.append_nil] at hend
    have hcut := (cuts_text hp hend).maskFrom stem i
    rw [← ih hps hchain.of_cons, ← text_maskedFrom hp] at hcut
    exact hcut.symm

end MatcherPart

end PromQL

import PromQL.Proofs.Label.Order
import PromQL.Proofs.Label.Writing

/-!
# Forms of matchers

With placeholders in the place of its variables, a matcher is read as the matcher that it is without
them, but for the placeholders in its name and its value. Whatever numbers the placeholders have,
two matchers have the same order, if their names and values differ before a variable starts in both
of them.
-/

namespace PromQL

/-! ### Forms of tokens -/

/-- A token, and two forms of it in which placeholders stand for its variables. -/
inductive TokenForms (n : Nat) (vs vs' : List Text) : Token → Token → Token → Prop
  | identifier {x a a' : Text} (h : Forms n vs vs' x a a') :
      TokenForms n vs vs' (.identifier x) (.identifier a) (.identifier a')
  | matchOp (op : MatchOp) : TokenForms n vs vs' (.matchOp op) (.matchOp op) (.matchOp op)
  | string {mark : Char} {x a a' : Text} (hmark : Lexeme.isMark mark)
      (h : Forms n vs vs' x a a') :
      TokenForms n vs vs' (.string mark x) (.string mark a) (.string mark a')

/-- Tokens, and two forms of them, one by one. -/
inductive TokensForms (n : Nat) (vs vs' : List Text) :
    List Token → List Token → List Token → Prop
  | nil : TokensForms n vs vs' [] [] []
  | cons {t u u' : Token} {ts us us' : List Token} (h : TokenForms n vs vs' t u u')
      (hs : TokensForms n vs vs' ts us us') : TokensForms n vs vs' (t :: ts) (u :: us) (u' :: us')

theorem TokensForms.append {n : Nat} {vs vs' : List Text} {ts us us' xs ys ys' : List Token}
    (h : TokensForms n vs vs' ts us us') (h' : TokensForms n vs vs' xs ys ys') :
    TokensForms n vs vs' (ts ++ xs) (us ++ ys) (us' ++ ys') := by
  induction h with
  | nil => exact h'
  | cons h _ ih => exact .cons h ih

/-- A matcher, and two forms of it with the same operator. -/
structure MatcherForms (n : Nat) (vs vs' : List Text) (m a a' : Matcher) : Prop where
  name : Forms n vs vs' m.name a.name a'.name
  op : a.op = m.op
  op' : a'.op = m.op
  value : Forms n vs vs' m.value a.value a'.value

namespace MatcherPart

open Placeholders

variable {n i i' : Nat} {vs vs' : List Text} {p : MatcherPart} {ps : List MatcherPart}

/-- Both forms of a part are read as forms of its token. -/
theorem tokenForms (hp : p.IsLegal) (hfresh : ¬ stemOf n <:+: p.text)
    (hdrop : variablesOf p.text <+: vs.drop i) (hdrop' : variablesOf p.text <+: vs'.drop i') :
    TokensForms n vs vs' p.token?.toList (p.maskedFrom (stemOf n) i).token?.toList
      (p.maskedFrom (stemOf n) i').token?.toList := by
  cases p with
  | blank | comment => exact .nil
  | op o => exact .cons (.matchOp o) .nil
  | label name => exact .cons (.identifier (.of_maskFrom hfresh hdrop hdrop')) .nil
  | string mark body =>
    have hmark := Lexeme.isSeparator_of_isMark hp.1
    have hvariables : variablesOf (text (string mark body)) = variablesOf body := by
      rw [text, variablesOf_append_cons hmark]
      exact (List.append_nil _).trans (variablesOf_append_cons hmark [] body)
    have hinside : body <:+: text (string mark body) := ⟨[mark], [mark], rfl⟩
    rw [hvariables] at hdrop hdrop'
    exact .cons (.string hp.1 (.of_maskFrom (fun h => hfresh (h.trans hinside)) hdrop hdrop')) .nil

theorem append_prefix_drop {α : Type} {a b l : List α} {i : Nat} (h : a ++ b <+: l.drop i) :
    a <+: l.drop i ∧ b <+: l.drop (i + a.length) := by
  obtain ⟨more, hmore⟩ := h
  rw [List.append_assoc] at hmore
  refine ⟨⟨b ++ more, hmore⟩, more, ?_⟩
  rw [← List.drop_drop, ← hmore, List.drop_left]

/-- Both forms of several parts are read as forms of their tokens. -/
theorem tokensForms (hlegal : ∀ p ∈ ps, p.IsLegal) (hchain : ps.IsChain Precedes)
    (hfresh : ¬ stemOf n <:+: texts ps) (hdrop : variablesOf (texts ps) <+: vs.drop i)
    (hdrop' : variablesOf (texts ps) <+: vs'.drop i') :
    TokensForms n vs vs' (tokens ps) (tokens (allMaskedFrom (stemOf n) i ps))
      (tokens (allMaskedFrom (stemOf n) i' ps)) := by
  induction ps generalizing i i' with
  | nil => exact .nil
  | cons p ps ih =>
    obtain ⟨hp, hps⟩ := List.forall_mem_cons.mp hlegal
    have hend := isNameEnd_texts hps hchain isNameEnd_nil
    rw [List.append_nil] at hend
    rw [texts, List.flatMap_cons, ← texts] at hfresh hdrop hdrop'
    rw [(cuts_text hp hend).variablesOf] at hdrop hdrop'
    obtain ⟨hfirst, hothers⟩ := append_prefix_drop hdrop
    obtain ⟨hfirst', hothers'⟩ := append_prefix_drop hdrop'
    have hforms := tokenForms hp (fun h => hfresh (h.trans (List.prefix_append _ _).isInfix)) hfirst
      hfirst'
    have hrest := ih hps hchain.of_cons
      (fun h => hfresh (h.trans (List.suffix_append _ _).isInfix)) hothers hothers'
    rw [allMaskedFrom, allMaskedFrom, tokens_cons, tokens_cons, tokens_cons]
    exact hforms.append hrest

end MatcherPart

/-! ### Forms of matchers -/

/-- The names of two matchers differ before a variable starts in both of them, or else the operators
differ, or the values do so. -/
def Matcher.Apart (m k : Matcher) : Prop :=
  IsSettled m.name k.name ∧ (m.name = k.name → m.op = k.op → IsSettled m.value k.value)

instance : DecidableRel Matcher.Apart := fun _ _ => inferInstanceAs (Decidable (_ ∧ (_ → _ → _)))

/-- Two matchers are the same, or their order does not depend on placeholders. -/
def Matcher.Settled (m k : Matcher) : Prop := m = k ∨ m.Apart k

instance : DecidableRel Matcher.Settled := fun _ _ => inferInstanceAs (Decidable (_ ∨ _))

namespace MatcherForms

open Placeholders

variable {n : Nat} {vs vs' : List Text} {m k a a' b b' : Matcher}

/-- One form of a matcher stands beside any other one. -/
theorem merge {us us' : List Text} (h : MatcherForms n vs us m a b)
    (h' : MatcherForms n us' vs' m a' b') : MatcherForms n vs vs' m a b' :=
  ⟨h.name.merge h'.name, h.op, h'.op', h.value.merge h'.value⟩

/-- Different matchers have different forms. -/
theorem inj (h : MatcherForms n vs vs' m a a') (h' : MatcherForms n vs vs' k a b')
    (hcount : vs.length ≤ wordCount) : m = k := by
  have hname : m.name = k.name := by
    rw [← h.name.unmask_eq hcount, h'.name.unmask_eq hcount]
  have hop : m.op = k.op := h.op.symm.trans h'.op
  have hvalue : m.value = k.value := by
    rw [← h.value.unmask_eq hcount, h'.value.unmask_eq hcount]
  obtain ⟨name, op, value⟩ := m
  simp only at hname hop hvalue
  rw [hname, hop, hvalue]

/-- Matchers that are apart have the same order in both forms. -/
theorem compare_eq (h : MatcherForms n vs vs' m a a') (h' : MatcherForms n vs vs' k b b')
    (hcount : vs.length ≤ wordCount) (hapart : m.Apart k) : a.compare b = a'.compare b' := by
  have hnames := h.name.compare_eq h'.name hapart.1
  rw [Matcher.compare, Matcher.compare, ← hnames, h.op, h.op', h'.op, h'.op']
  cases hname : compare a.name b.name with
  | lt | gt => rfl
  | eq =>
    have hsame : a.name = b.name := Std.LawfulEqCmp.eq_of_compare hname
    have hraw : m.name = k.name := by
      rw [← h.name.unmask_eq hcount, hsame, h'.name.unmask_eq hcount]
    cases hop : compare m.op.rank k.op.rank with
    | lt | gt => rfl
    | eq =>
      have hops := Matcher.rank_injective (Std.LawfulEqCmp.eq_of_compare hop)
      rw [h.value.compare_eq h'.value (hapart.2 hraw hops)]

/-- A matcher is written with the same variables in both forms. -/
theorem unmask_text (h : MatcherForms n vs vs' m a a') (hcount : vs.length ≤ wordCount)
    (hcount' : vs'.length ≤ wordCount) :
    (Placeholders.mk (stemOf n) vs).unmask a.text =
      (Placeholders.mk (stemOf n) vs').unmask a'.text := by
  have hop : ∀ o : MatchOp, IsFixed o.text := by intro o; cases o <;> decide
  have hends : ∀ (o : MatchOp) (b : Text), IsNameEnd (o.text ++ b) := by
    intro o b
    cases o <;> rintro _ ⟨⟩ <;> decide
  rw [Matcher.text, Matcher.text, h.op, h.op', List.append_assoc, List.append_assoc,
    unmask_append rfl (hends _ _), unmask_append rfl (hends _ _),
    unmask_append_of_isFixed rfl (hop _), unmask_append_of_isFixed rfl (hop _),
    h.name.unmask_labelText hcount hcount', h.value.unmask_quote hcount hcount']

end MatcherForms

/-! ### Reading -/

section Reading

open Grammar

variable {n : Nat} {vs vs' : List Text} {ts us us' : List Token} {m : Matcher}

/-- The escapes of a token are those of its forms. -/
theorem TokensForms.exists_escapes_eq (h : TokensForms n vs vs' ts us us') :
    ∀ t ∈ ts, ∃ u ∈ us, u.escapes = t.escapes := by
  induction h with
  | nil => exact List.forall_mem_nil _
  | cons h _ ih =>
    refine List.forall_mem_cons.mpr ⟨⟨_, List.mem_cons_self, ?_⟩, fun t ht => ?_⟩
    · cases h with
      | identifier | matchOp => rfl
      | string hmark h =>
        rw [Token.escapes, Token.escapes, h.escaped_eq (Lexeme.isSeparator_of_isMark hmark).isFixed]
    · obtain ⟨u, hu, heq⟩ := ih t ht
      exact ⟨u, List.mem_cons_of_mem _ hu, heq⟩

/-- The forms of a string are read as forms of what it stands for. -/
theorem readsForms_of_escapes {mark : Char} {x y a a' : Text} (hmark : Lexeme.isMark mark)
    (h : Forms n vs vs' x a a') (hx : unquote? mark x = some y)
    (hescapes : ∀ c ∈ (Token.string mark x).escapes, IsSeparator c) :
    Forms.ReadsForms n vs vs' y (unquote? mark a) (unquote? mark a') := by
  refine h.readsForms_unquote? (Lexeme.isSeparator_of_isMark hmark).isFixed hx fun hraw => ?_
  rwa [Token.escapes, if_neg hraw] at hescapes

/-- The forms of the tokens of a matcher are read as forms of the matcher. -/
theorem TokensForms.exists_matcherForms (h : TokensForms n vs vs' ts us us')
    (hread : matcherOf? ts = some (some m))
    (hescapes : ∀ t ∈ ts, ∀ c ∈ t.escapes, IsSeparator c) :
    ∃ a a', matcherOf? us = some (some a) ∧ matcherOf? us' = some (some a') ∧
      MatcherForms n vs vs' m a a' := by
  have hmetric : Forms n vs vs' metricLabel metricLabel metricLabel := by
    have hfixed : Forms n vs vs' (metricLabel ++ []) (metricLabel ++ []) (metricLabel ++ []) :=
      .fixed (by decide) .nil
    rwa [List.append_nil] at hfixed
  unfold matcherOf? at hread
  split at hread
  · obtain ⟨y, hy, rfl⟩ := Option.map_eq_some_iff.mp (Option.some.inj hread)
    obtain _ | ⟨_ | _ | ⟨hmark, hbody⟩, ⟨⟩⟩ := h
    obtain ⟨v, v', hv, hv', hforms⟩ := readsForms_of_escapes hmark hbody hy (hescapes _ (by simp))
    refine ⟨⟨metricLabel, .equal, v⟩, ⟨metricLabel, .equal, v'⟩, ?_, ?_, hmetric, rfl, rfl, hforms⟩
    · rw [matcherOf?, hv]
      rfl
    · rw [matcherOf?, hv']
      rfl
  · next name op mark body =>
    obtain ⟨y, hy, rfl⟩ := Option.map_eq_some_iff.mp (Option.some.inj hread)
    obtain _ | ⟨⟨hname⟩, _ | ⟨⟨⟩, _ | ⟨_ | _ | ⟨hmark, hbody⟩, ⟨⟩⟩⟩⟩ := h
    obtain ⟨v, v', hv, hv', hforms⟩ := readsForms_of_escapes hmark hbody hy (hescapes _ (by simp))
    refine ⟨⟨_, op, v⟩, ⟨_, op, v'⟩, ?_, ?_, hname, rfl, rfl, hforms⟩
    · rw [matcherOf?, hv]
      rfl
    · rw [matcherOf?, hv']
      rfl
  · next nameMark nameBody op mark body =>
    obtain ⟨x, hx, hread⟩ := Option.bind_eq_some_iff.mp (Option.some.inj hread)
    obtain ⟨y, hy, rfl⟩ := Option.map_eq_some_iff.mp hread
    obtain _ | ⟨_ | _ | ⟨hmarkName, hbodyName⟩, _ | ⟨⟨⟩, _ | ⟨_ | _ | ⟨hmark, hbody⟩, ⟨⟩⟩⟩⟩ := h
    obtain ⟨u, u', hu, hu', hname⟩ :=
      readsForms_of_escapes hmarkName hbodyName hx (hescapes _ (by simp))
    obtain ⟨v, v', hv, hv', hforms⟩ := readsForms_of_escapes hmark hbody hy (hescapes _ (by simp))
    refine ⟨⟨u, op, v⟩, ⟨u', op, v'⟩, ?_, ?_, hname, rfl, rfl, hforms⟩
    · rw [matcherOf?, hu, hv]
      rfl
    · rw [matcherOf?, hu', hv']
      rfl
  · cases hread

end Reading

end PromQL

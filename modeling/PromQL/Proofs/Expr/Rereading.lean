import PromQL.Proofs.Expr.Clauses
import PromQL.Proofs.Expr.Shape
import PromQL.Proofs.Expr.Suffixes

/-!
# What written expressions are read as

What the grammar gives on the tokens of an expression can be said without the tokens. Every node is
read as a node of the same kind, if it is read at all, wherever its tokens stand and no part of it
runs into the next one: a group modifier without labels takes a parenthesis behind it for its own,
and an offset of which nothing is written takes the sign of whatever follows.
-/

namespace PromQL

/-! ### Parts that do not run into each other -/

/-- Whether there is something to write of the offset, if there is one. -/
def Modifiers.Separate (m : Modifiers) : Prop := ∀ o ∈ m.offset, o.duration.text ≠ []

namespace Expr

/-- Whether a written expression starts with a parenthesis. -/
def opens : Expr → Bool
  | paren _ => true
  | subquery inner _ _ _ => inner.opens
  | binary _ _ left _ => left.opens
  | _ => false

mutual

/-- No part of an expression runs into what is written behind it. -/
def Separate : Expr → Prop
  | vector s | matrix s _ => s.modifiers.Separate
  | subquery inner _ _ modifiers => inner.Separate ∧ modifiers.Separate
  | paren inner | negate inner => inner.Separate
  | call _ arguments => AllSeparate arguments
  | aggregate _ _ parameter inner => ParameterSeparate parameter ∧ inner.Separate
  | binary _ modifiers left right =>
    left.Separate ∧ right.Separate ∧ (modifiers.isBare → right.opens = false)
  | number _ | string _ | extension _ => True

/-- No part of several expressions runs into what is written behind it. -/
def AllSeparate : List Expr → Prop
  | [] => True
  | e :: es => e.Separate ∧ AllSeparate es

/-- No part of an expression that may be missing runs into what is written behind it. -/
def ParameterSeparate : Option Expr → Prop
  | none => True
  | some e => e.Separate

end

/-! ### Reading without tokens -/

mutual

/-- What the tokens of an expression are read as. -/
def reread : Expr → Reading (Option Expr)
  | number value => .ok (some (number value))
  | string value => .ok (some (string value))
  | vector s => .ok (s.modifiers.reread.map fun m => vector { s with modifiers := m })
  | matrix s range =>
    if range.text = [] then .error .malformed
    else .ok (range.reread.bind fun d =>
      s.modifiers.reread.map fun m => matrix { s with modifiers := m } d)
  | subquery inner range step modifiers => do
    let e ← inner.reread
    if range.text = [] then .error .malformed
    else .ok (e.bind fun e => range.reread.bind fun d => (Duration.rereadStep step).bind fun s =>
      modifiers.reread.map fun m => subquery e d s m)
  | paren inner => do
    let e ← inner.reread
    pure (e.map paren)
  | negate inner => do
    let e ← inner.reread
    pure (e.map negated)
  | call function arguments => do
    let es ← rereads arguments
    pure (es.map (call function))
  | aggregate op grouping parameter inner =>
    if grouping.all LabelChoice.isLegible then do
      let p ← rereadOption parameter
      let e ← inner.reread
      pure (p.bind fun p => e.map (aggregate op grouping p))
    else .error .malformed
  | binary op modifiers left right => do
    let l ← left.reread
    if modifiers.isLegible then do
      let r ← right.reread
      pure (l.bind fun l => r.map (binary op modifiers l))
    else .error .malformed
  | extension _ => .error .malformed

/-- What the tokens of several expressions are read as. -/
def rereads : List Expr → Reading (Option (List Expr))
  | [] => .ok (some [])
  | e :: es => do
    let e ← e.reread
    let es ← rereads es
    pure (e.bind fun e => es.map (e :: ·))

/-- What the tokens of an expression that may be missing are read as. -/
def rereadOption : Option Expr → Reading (Option (Option Expr))
  | none => .ok (some none)
  | some e => do
    let e ← e.reread
    pure (e.map some)

end

/-- The least level of an operator that does not go on an expression behind it. -/
def stop : Expr → Nat
  | binary op _ _ _ => op.rightPrecedence
  | e => e.level

end Expr

/-! ### First tokens -/

theorem Matchers.eq_empty_of_groups {ms : Matchers} (h : ms.groups = []) : ms = .empty := by
  obtain ⟨group, alternatives⟩ := ms
  simp only [groups] at h
  split at h
  · next hgroup =>
    simp only [List.isEmpty_iff] at hgroup
    rw [hgroup, h]
    rfl
  · cases h

/-- Whether an expression may start with a token. -/
def Token.starts : Token → Bool
  | number _ | string _ _ | identifier _ | metric _ | leftParen | leftBrace => true
  | keyword word _ => word.isMetric
  | operator op => op == .add || op == .sub
  | _ => false

theorem Token.isModifier_of_starts {t : Token} (h : t.starts) : t.isModifier = false := by
  cases t
  case keyword word spelling => cases word <;> first | rfl | cases h
  all_goals rfl

theorem Token.starts_of_metricName? {t : Token} {name : Text} (h : t.metricName? = some name) :
    t.starts ∧ t ≠ .leftParen ∧ ∀ op, t ≠ .operator op := by
  cases t <;> simp_all [Token.metricName?, Token.starts]

namespace Expr

/-- How the tokens of an expression start. -/
structure Heads (e : Expr) (t : Token) : Prop where
  starts : t.starts
  paren : t = .leftParen ↔ e.opens
  unsigned : e.level = 7 → e ≠ number (.infinite false) → ∀ op, t ≠ .operator op

theorem Heads.ofSelector {s : Selector} {e : Expr} (hs : s.Formed) (he : e.opens = false) :
    ∃ t ts, s.tokens = t :: ts ∧ e.Heads t := by
  unfold Selector.tokens
  cases h : s.name with
  | some name =>
    obtain ⟨hstarts, hparen, hop⟩ := Token.starts_of_metricName? (hs.name name h).2
    exact ⟨_, _, rfl, hstarts, by simp [hparen, he], fun _ _ => hop⟩
  | none =>
    have hne : s.matchers.groups ≠ [] := by
      intro hgroups
      apply hs.nonempty h
      rw [Matchers.eq_empty_of_groups hgroups]
      rfl
    rw [Matchers.tokens, if_neg hne]
    exact ⟨_, _, rfl, rfl, by simp [he], by simp⟩

theorem exists_head (e : Expr) (he : e.Formed) : ∃ t ts, e.tokens = t :: ts ∧ e.Heads t := by
  match e with
  | number v =>
    cases v with
    | nan => exact ⟨_, _, rfl, rfl, by simp [opens], by simp⟩
    | infinite negative =>
      cases negative
      · exact ⟨_, _, rfl, rfl, by simp [opens], by simp⟩
      · exact ⟨_, _, rfl, rfl, by simp [opens], by simp [level]⟩
    | finite negative rank =>
      cases negative
      · exact ⟨_, _, rfl, rfl, by simp [opens], by simp⟩
      · exact ⟨_, _, rfl, rfl, by simp [opens], by simp [level]⟩
  | string v => exact ⟨_, _, rfl, rfl, by simp [opens, quotedToken], by simp [quotedToken]⟩
  | vector s =>
    obtain ⟨t, ts, h, ht⟩ := Heads.ofSelector (e := vector s) he rfl
    exact ⟨t, _, by rw [tokens, h, List.cons_append], ht⟩
  | matrix s range =>
    obtain ⟨t, ts, h, ht⟩ := Heads.ofSelector (e := matrix s range) he rfl
    exact ⟨t, _, by rw [tokens, h, List.cons_append], ht⟩
  | subquery inner range step modifiers =>
    obtain ⟨hinner, hlevel, hnumber⟩ := he
    obtain ⟨t, ts, h, ht⟩ := exists_head inner hinner
    refine ⟨t, _, by rw [tokens, h, List.cons_append], ht.starts, ht.paren, fun _ _ => ?_⟩
    refine ht.unsigned hlevel ?_
    rintro rfl
    cases hnumber
  | paren inner => exact ⟨_, _, rfl, rfl, by simp [opens], by simp⟩
  | negate inner => exact ⟨_, _, rfl, rfl, by simp [opens], by simp [level]⟩
  | call function arguments =>
    rw [tokens, he.1.2]
    exact ⟨_, _, rfl, rfl, by simp [opens], by simp⟩
  | aggregate op grouping parameter inner =>
    refine ⟨_, _, rfl, ?_, by simp [opens], by simp⟩
    simp [Token.starts, Keyword.isMetric, he.1]
  | binary op modifiers left right =>
    obtain ⟨t, ts, h, ht⟩ := exists_head left he.1
    refine ⟨t, _, by rw [tokens, h, List.cons_append], ht.starts, ht.paren, ?_⟩
    intro hlevel
    cases op <;> cases hlevel

end Expr

end PromQL

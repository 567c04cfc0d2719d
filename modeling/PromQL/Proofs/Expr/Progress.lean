import Mathlib.Tactic.SplitIfs
import PromQL.Expr.Reading

/-!
# The grammar moves on

Every reader takes tokens away, so the steps that the grammar is given are always enough.
-/

namespace PromQL

/-! ### Readings -/

namespace Reading

variable {α β : Type}

theorem bind_eq_ok {x : Reading α} {f : α → Reading β} {b : β} :
    (x >>= f) = .ok b ↔ ∃ a, x = .ok a ∧ f a = .ok b := by
  cases x with
  | error e => simp [bind, Except.bind]
  | ok a => simp [bind, Except.bind]

/-- A reading that goes on with a value and the tokens behind it. -/
theorem bind_pair_eq_ok {γ : Type} {x : Reading (α × β)} {f : α × β → Reading γ} {c : γ} :
    (x >>= f) = .ok c ↔ ∃ a b, x = .ok (a, b) ∧ f (a, b) = .ok c := by
  rw [bind_eq_ok]
  exact ⟨fun ⟨(a, b), hx, h⟩ => ⟨a, b, hx, h⟩, fun ⟨a, b, hx, h⟩ => ⟨(a, b), hx, h⟩⟩

/-- A reading that makes something of the value of another. -/
theorem map_eq_ok {x : Reading (Option α)} {f : α → β} {b : β} :
    (x >>= fun a? => pure (a?.map f)) = .ok (some b) ↔ ∃ a, x = .ok (some a) ∧ f a = b := by
  rw [bind_eq_ok]
  constructor
  · rintro ⟨a?, hx, h⟩
    obtain ⟨a, rfl, hf⟩ := Option.map_eq_some_iff.mp (Except.ok.inj h)
    exact ⟨a, hx, hf⟩
  · rintro ⟨a, hx, rfl⟩
    exact ⟨some a, hx, rfl⟩

/-- And one that goes on behind the tokens of the other. -/
theorem map_pair_eq_ok {γ : Type} {x : Reading (Option α × β)} {f : α → γ} {c : γ} {b : β} :
    (x >>= fun (a?, b) => pure (a?.map f, b)) = .ok (some c, b) ↔
      ∃ a, x = .ok (some a, b) ∧ f a = c := by
  rw [bind_pair_eq_ok]
  constructor
  · rintro ⟨a?, b', hx, h⟩
    obtain ⟨hmap, rfl⟩ := Prod.mk.inj (Except.ok.inj h)
    obtain ⟨a, rfl, hf⟩ := Option.map_eq_some_iff.mp hmap
    exact ⟨a, hx, hf⟩
  · rintro ⟨a, hx, rfl⟩
    exact ⟨some a, b, hx, rfl⟩

theorem bind_congr {x y : Reading α} {f g : α → Reading β} (hx : x = y)
    (h : ∀ a, x = .ok a → f a = g a) : (x >>= f) = (y >>= g) := by
  subst hx
  cases x with
  | error e => rfl
  | ok a => exact h a rfl

theorem ok_bind (a : α) (f : α → Reading β) : ((.ok a : Reading α) >>= f) = f a := rfl

theorem pure_eq_ok {a b : α} : (pure a : Reading α) = .ok b ↔ a = b := by
  simp [pure, Except.pure]

end Reading

namespace Grammar

/-! ### Clauses -/

theorem length_labelsRest {ts rest : List Token} {labels : Option (List Text)}
    (h : labelsRest ts = .ok (labels, rest)) : rest.length < ts.length := by
  fun_induction labelsRest ts generalizing labels rest with
  | case1 ts => cases h; simp
  | case2 t ts _ label _ =>
    cases h
    simp only [List.length_cons]
    omega
  | case3 => cases h
  | case4 t ts _ label _ ih =>
    obtain ⟨more, behind, hmore, h⟩ := Reading.bind_pair_eq_ok.mp h
    cases h
    have := ih hmore
    simp only [List.length_cons]
    omega
  | case5 => cases h
  | case6 => cases h

theorem length_labelChoice {allBut : Bool} {ts rest : List Token} {choice : Option LabelChoice}
    (h : labelChoice allBut ts = .ok (choice, rest)) : rest.length < ts.length := by
  obtain ⟨labels, behind, hlabels, h⟩ := Reading.bind_pair_eq_ok.mp h
  cases h
  unfold labelList at hlabels
  split at hlabels
  · have := length_labelsRest hlabels
    simp only [List.length_cons]
    omega
  · cases hlabels

theorem length_groupModifier {ts rest : List Token} {grouping : Option (Option Grouping)}
    (h : groupModifier ts = .ok (grouping, rest)) : rest.length ≤ ts.length := by
  unfold groupModifier at h
  split at h
  · obtain ⟨labels, behind, hlabels, h⟩ := Reading.bind_pair_eq_ok.mp h
    cases h
    have := length_labelsRest hlabels
    simp only [List.length_cons]
    omega
  · cases h
    simp
  · cases h
    simp

/-- The tokens behind the word that asks for a truth value, if there is one. -/
def afterBool : List Token → Bool × List Token
  | .keyword .bool _ :: ts => (true, ts)
  | ts => (false, ts)

theorem length_afterBool (ts : List Token) : (afterBool ts).2.length ≤ ts.length := by
  unfold afterBool
  split <;> simp

theorem binaryModifiers_eq (ts : List Token) : binaryModifiers ts =
    match (afterBool ts).2 with
    | .keyword (.matching allBut) _ :: us => do
      let (choice, us) ← labelChoice allBut us
      let (grouping, us) ← groupModifier us
      pure (choice.bind fun c => grouping.map fun g => ⟨(afterBool ts).1, some c, g⟩, us)
    | us => pure (some ⟨(afterBool ts).1, none, none⟩, us) := by
  cases ts with
  | nil => rfl
  | cons t ts =>
    cases t
    case keyword word spelling => cases word <;> rfl
    all_goals rfl

/-- Modifiers that have a value are a truth value asked for, perhaps, and perhaps a choice of labels
to match on with a group modifier behind it. -/
theorem binaryModifiers_cases {ts rest : List Token} {m : BinaryModifiers}
    (h : binaryModifiers ts = .ok (some m, rest)) :
    (afterBool ts).2 = rest ∧ m = ⟨(afterBool ts).1, none, none⟩ ∨
      ∃ allBut word us vs choice grouping,
        (afterBool ts).2 = .keyword (.matching allBut) word :: us ∧
        labelChoice allBut us = .ok (some choice, vs) ∧
        groupModifier vs = .ok (some grouping, rest) ∧
        m = ⟨(afterBool ts).1, some choice, grouping⟩ := by
  rw [binaryModifiers_eq] at h
  split at h
  · next allBut word us heq =>
    obtain ⟨choice?, vs, hchoice, h⟩ := Reading.bind_pair_eq_ok.mp h
    obtain ⟨grouping?, ws, hgrouping, h⟩ := Reading.bind_pair_eq_ok.mp h
    simp only [Reading.pure_eq_ok, Prod.mk.injEq] at h
    obtain ⟨hbind, rfl⟩ := h
    obtain ⟨choice, rfl, hmap⟩ := Option.bind_eq_some_iff.mp hbind
    obtain ⟨grouping, rfl, rfl⟩ := Option.map_eq_some_iff.mp hmap
    exact .inr ⟨allBut, word, us, vs, choice, grouping, heq, hchoice, hgrouping, rfl⟩
  · cases h
    exact .inl ⟨rfl, rfl⟩

theorem length_binaryModifiers {ts rest : List Token} {modifiers : Option BinaryModifiers}
    (h : binaryModifiers ts = .ok (modifiers, rest)) : rest.length ≤ ts.length := by
  have hbool := length_afterBool ts
  rw [binaryModifiers_eq] at h
  split at h
  · next allBut word us heq =>
    obtain ⟨choice, us', hchoice, h⟩ := Reading.bind_pair_eq_ok.mp h
    obtain ⟨grouping, us'', hgrouping, h⟩ := Reading.bind_pair_eq_ok.mp h
    cases h
    have h₁ := length_labelChoice hchoice
    have h₂ := length_groupModifier hgrouping
    rw [heq, List.length_cons] at hbool
    omega
  · cases h
    exact hbool

theorem length_matchers {ts rest : List Token} {ms : Option Matchers}
    (h : matchers ts = .ok (ms, rest)) : rest.length < ts.length := by
  unfold matchers at h
  split at h
  · next ts =>
    split at h
    · next c behind ms' hdrop _ =>
      cases h
      have := (List.dropWhile_suffix (l := ts) (· != .rightBrace)).length_le
      rw [hdrop, List.length_cons] at this
      simp only [List.length_cons]
      omega
    · cases h
  · cases h

/-! ### Behind an operand -/

theorem length_signed (ts : List Token) : (signed ts).2.length ≤ ts.length := by
  unfold signed
  split <;> simp

theorem length_range {e e' : Option Expr} {ts rest : List Token}
    (h : range e ts = .ok (e', rest)) : rest.length < ts.length := by
  unfold range at h
  split at h
  · obtain ⟨d, -, h⟩ := Reading.bind_eq_ok.mp h
    cases h
    simp only [List.length_cons]
    omega
  · obtain ⟨d, -, h⟩ := Reading.bind_eq_ok.mp h
    split at h
    · cases h
      simp only [List.length_cons]
      omega
    · obtain ⟨step, -, h⟩ := Reading.bind_eq_ok.mp h
      cases h
      simp only [List.length_cons]
      omega
    · cases h
  · cases h

theorem length_offset {e e' : Option Expr} {ts rest : List Token}
    (h : offset e ts = .ok (e', rest)) : rest.length < ts.length := by
  have hsigned := length_signed ts
  unfold offset at h
  split at h
  · next negative t us heq =>
    obtain ⟨d, -, h⟩ := Reading.bind_eq_ok.mp h
    cases h
    rw [heq, List.length_cons] at hsigned
    omega
  · cases h

theorem length_time {e e' : Option Expr} {ts rest : List Token}
    (h : time e ts = .ok (e', rest)) : rest.length < ts.length := by
  unfold time at h
  split at h
  · cases h
    simp only [List.length_cons]
    omega
  · cases h
    simp only [List.length_cons]
    omega
  · have hsigned := length_signed ts
    split at h
    · next negative t us heq =>
      rw [heq, List.length_cons] at hsigned
      split at h
      · cases h
        omega
      · cases h
    · cases h

theorem length_suffixes {fuel : Nat} {e e' : Option Expr} {ts rest : List Token}
    (h : suffixes fuel e ts = .ok (e', rest)) : rest.length ≤ ts.length := by
  induction fuel generalizing e ts with
  | zero => cases h
  | succ fuel ih =>
    rw [suffixes.eq_def] at h
    simp only at h
    split at h
    all_goals try
      obtain ⟨e₁, us, hfirst, h⟩ := Reading.bind_pair_eq_ok.mp h
      have hrest := ih h
      simp only [List.length_cons] at hrest ⊢
    · have := length_range hfirst
      omega
    · have := length_offset hfirst
      omega
    · have := length_time hfirst
      omega
    · cases h
      exact Nat.le_refl _

theorem length_selector {name : Option Text} {e : Option Expr} {ts rest : List Token}
    (h : selector name ts = .ok (e, rest)) : rest.length ≤ ts.length := by
  unfold selector at h
  split at h
  · obtain ⟨ms, us, hmatchers, h⟩ := Reading.bind_pair_eq_ok.mp h
    cases h
    exact Nat.le_of_lt (length_matchers hmatchers)
  · split at h
    · cases h
      exact Nat.le_refl _
    · cases h

theorem length_grouping {ts rest : List Token} {choice : Option (Option LabelChoice)}
    (h : grouping ts = .ok (choice, rest)) : rest.length ≤ ts.length := by
  unfold grouping at h
  split at h
  · obtain ⟨c, us, hchoice, h⟩ := Reading.bind_pair_eq_ok.mp h
    cases h
    have := length_labelChoice hchoice
    simp only [List.length_cons]
    omega
  · cases h
    exact Nat.le_refl _

theorem length_expect {t : Token} {ts rest : List Token} (h : expect t ts = .ok rest) :
    rest.length < ts.length := by
  unfold expect at h
  split at h
  · split_ifs at h
    cases h
    simp
  · cases h

/-! ### Operands and operators -/

/-- What the six readers of expressions leave of the tokens. -/
structure Shortens (fuel : Nat) : Prop where
  primary : ∀ {ts e rest}, primary fuel ts = .ok (e, rest) → rest.length < ts.length
  operand : ∀ {ts e rest}, operand fuel ts = .ok (e, rest) → rest.length < ts.length
  expression : ∀ {level ts e rest}, expression fuel level ts = .ok (e, rest) →
    rest.length < ts.length
  operators : ∀ {level left ts e rest}, operators fuel level left ts = .ok (e, rest) →
    rest.length ≤ ts.length
  arguments : ∀ {ts es rest}, arguments fuel ts = .ok (es, rest) → rest.length < ts.length
  moreArguments : ∀ {ts es rest}, moreArguments fuel ts = .ok (es, rest) → rest.length < ts.length

section Shortening

variable {fuel : Nat} (ih : Shortens fuel)

include ih

theorem length_primary {ts rest : List Token} {e : Option Expr}
    (h : primary (fuel + 1) ts = .ok (e, rest)) : rest.length < ts.length := by
  rw [primary.eq_def] at h
  simp only at h
  split at h
  case h_1 | h_2 | h_3 =>
    cases h
    simp
  case h_4 =>
    obtain ⟨e₁, us, hinner, h⟩ := Reading.bind_pair_eq_ok.mp h
    obtain ⟨vs, hclose, h⟩ := Reading.bind_eq_ok.mp h
    cases h
    have h₁ := ih.expression hinner
    have h₂ := length_expect hclose
    simp only [List.length_cons] at h₂ ⊢
    omega
  case h_5 =>
    obtain ⟨ms, us, hmatchers, h⟩ := Reading.bind_pair_eq_ok.mp h
    cases h
    exact length_matchers hmatchers
  case h_6 =>
    obtain ⟨es, us, hargs, h⟩ := Reading.bind_pair_eq_ok.mp h
    cases h
    have := ih.arguments hargs
    simp only [List.length_cons]
    omega
  case h_7 =>
    split_ifs at h
    · cases h
    · obtain ⟨es, us, hargs, h⟩ := Reading.bind_pair_eq_ok.mp h
      obtain ⟨choice, vs, hchoice, h⟩ := Reading.bind_pair_eq_ok.mp h
      cases h
      have h₁ := ih.arguments hargs
      have h₂ := length_grouping hchoice
      simp only [List.length_cons] at h₂ ⊢
      omega
  case h_8 =>
    split_ifs at h
    · cases h
    · obtain ⟨choice, us, hchoice, h⟩ := Reading.bind_pair_eq_ok.mp h
      obtain ⟨vs, hopen, h⟩ := Reading.bind_eq_ok.mp h
      obtain ⟨es, ws, hargs, h⟩ := Reading.bind_pair_eq_ok.mp h
      cases h
      have h₁ := length_grouping hchoice
      have h₂ := length_expect hopen
      have h₃ := ih.arguments hargs
      simp only [List.length_cons] at h₁ h₂ h₃ ⊢
      omega
  case h_9 =>
    split at h
    · exact Nat.lt_succ_of_le (length_selector h)
    · cases h
  case h_10 => cases h

theorem length_operand {ts rest : List Token} {e : Option Expr}
    (h : operand (fuel + 1) ts = .ok (e, rest)) : rest.length < ts.length := by
  rw [operand.eq_def] at h
  simp only at h
  split at h
  · obtain ⟨e₁, us, hinner, h⟩ := Reading.bind_pair_eq_ok.mp h
    cases h
    have := ih.expression hinner
    simp only [List.length_cons]
    omega
  · have := ih.expression h
    simp only [List.length_cons]
    omega
  · obtain ⟨e₁, us, hprimary, h⟩ := Reading.bind_pair_eq_ok.mp h
    exact Nat.lt_of_le_of_lt (length_suffixes h) (ih.primary hprimary)

theorem length_expression {level : Nat} {ts rest : List Token} {e : Option Expr}
    (h : expression (fuel + 1) level ts = .ok (e, rest)) : rest.length < ts.length := by
  rw [expression] at h
  obtain ⟨left, us, hleft, h⟩ := Reading.bind_pair_eq_ok.mp h
  exact Nat.lt_of_le_of_lt (ih.operators h) (ih.operand hleft)

theorem length_operators {level : Nat} {left e : Option Expr} {ts rest : List Token}
    (h : operators (fuel + 1) level left ts = .ok (e, rest)) : rest.length ≤ ts.length := by
  rw [operators.eq_def] at h
  simp only at h
  split at h
  · split_ifs at h
    · obtain ⟨modifiers, us, hmodifiers, h⟩ := Reading.bind_pair_eq_ok.mp h
      obtain ⟨right, vs, hright, h⟩ := Reading.bind_pair_eq_ok.mp h
      have h₁ := length_binaryModifiers hmodifiers
      have h₂ := ih.expression hright
      have h₃ := ih.operators h
      rw [List.length_tail] at h₁
      simp only at h₂ h₃
      omega
    · cases h
      exact Nat.le_refl _
  · cases h
    exact Nat.le_refl _

theorem length_moreArguments {ts rest : List Token} {es : Option (List Expr)}
    (h : moreArguments (fuel + 1) ts = .ok (es, rest)) : rest.length < ts.length := by
  rw [moreArguments] at h
  obtain ⟨e, us, he, h⟩ := Reading.bind_pair_eq_ok.mp h
  have h₁ := ih.expression he
  simp only at h
  split at h
  · cases h
    rw [List.length_cons] at h₁
    omega
  · obtain ⟨es', vs, hes, h⟩ := Reading.bind_pair_eq_ok.mp h
    cases h
    have h₂ := ih.moreArguments hes
    simp only [List.length_cons] at h₁ h₂ ⊢
    omega
  · cases h

theorem length_arguments {ts rest : List Token} {es : Option (List Expr)}
    (h : arguments (fuel + 1) ts = .ok (es, rest)) : rest.length < ts.length := by
  rw [arguments.eq_def] at h
  simp only at h
  split at h
  · cases h
    simp
  · exact ih.moreArguments h

end Shortening

theorem shortens (fuel : Nat) : Shortens fuel := by
  induction fuel with
  | zero => constructor <;> nofun
  | succ fuel ih =>
    exact ⟨length_primary ih, length_operand ih, length_expression ih, length_operators ih,
      length_arguments ih, length_moreArguments ih⟩

/-! ### Enough steps -/

theorem suffixes_eq_suffixes {fuel fuel' : Nat} {e : Option Expr} {ts : List Token}
    (h : ts.length < fuel) (h' : ts.length < fuel') :
    suffixes fuel e ts = suffixes fuel' e ts := by
  induction fuel generalizing fuel' e ts with
  | zero => omega
  | succ fuel ih =>
    obtain ⟨fuel', rfl⟩ := Nat.exists_eq_succ_of_ne_zero (Nat.ne_zero_of_lt h')
    rw [suffixes.eq_def, suffixes.eq_def fuel'.succ]
    simp only
    split
    · refine Reading.bind_congr rfl fun a ha => ih ?_ ?_
      all_goals
        have := length_range ha
        simp only [List.length_cons] at h h'
        omega
    · refine Reading.bind_congr rfl fun a ha => ih ?_ ?_
      all_goals
        have := length_offset ha
        simp only [List.length_cons] at h h'
        omega
    · refine Reading.bind_congr rfl fun a ha => ih ?_ ?_
      all_goals
        have := length_time ha
        simp only [List.length_cons] at h h'
        omega
    · rfl

/-- With so many steps that they are enough, the readers of expressions give the same whatever the
number is. -/
structure Settled (ts : List Token) : Prop where
  primary : ∀ {m n}, 4 * ts.length + 1 ≤ m → 4 * ts.length + 1 ≤ n → primary m ts = primary n ts
  operand : ∀ {m n}, 4 * ts.length + 2 ≤ m → 4 * ts.length + 2 ≤ n → operand m ts = operand n ts
  expression : ∀ {m n} level, 4 * ts.length + 3 ≤ m → 4 * ts.length + 3 ≤ n →
    expression m level ts = expression n level ts
  operators : ∀ {m n} level left, 4 * ts.length + 1 ≤ m → 4 * ts.length + 1 ≤ n →
    operators m level left ts = operators n level left ts
  arguments : ∀ {m n}, 4 * ts.length + 5 ≤ m → 4 * ts.length + 5 ≤ n →
    arguments m ts = arguments n ts
  moreArguments : ∀ {m n}, 4 * ts.length + 4 ≤ m → 4 * ts.length + 4 ≤ n →
    moreArguments m ts = moreArguments n ts

section Settling

variable {ts : List Token} (ih : ∀ us : List Token, us.length < ts.length → Settled us)

include ih

theorem primary_eq_primary {m n : Nat} (hm : 4 * ts.length + 1 ≤ m) (hn : 4 * ts.length + 1 ≤ n) :
    primary m ts = primary n ts := by
  obtain ⟨m, rfl⟩ := Nat.exists_eq_succ_of_ne_zero (show m ≠ 0 by omega)
  obtain ⟨n, rfl⟩ := Nat.exists_eq_succ_of_ne_zero (show n ≠ 0 by omega)
  rw [primary.eq_def, primary.eq_def n.succ]
  simp only
  split
  case h_4 =>
    simp only [List.length_cons] at hm hn
    exact Reading.bind_congr ((ih _ (by simp)).expression 0 (by omega) (by omega)) fun _ _ => rfl
  case h_6 =>
    simp only [List.length_cons] at hm hn
    exact Reading.bind_congr ((ih _ (by simp only [List.length_cons]; omega)).arguments
      (by omega) (by omega)) fun _ _ => rfl
  case h_7 =>
    simp only [List.length_cons] at hm hn
    split_ifs
    · rfl
    · exact Reading.bind_congr ((ih _ (by simp only [List.length_cons]; omega)).arguments
      (by omega) (by omega)) fun _ _ => rfl
  case h_8 =>
    split_ifs
    · rfl
    · refine Reading.bind_congr rfl fun a ha => Reading.bind_congr rfl fun us hus => ?_
      have h₁ := length_grouping ha
      have h₂ := length_expect hus
      simp only [List.length_cons] at hm hn h₁
      have hus := ih us (by simp only [List.length_cons]; omega)
      exact Reading.bind_congr (hus.arguments (by omega) (by omega)) fun _ _ => rfl
  all_goals rfl

theorem operand_eq_operand {m n : Nat} (hm : 4 * ts.length + 2 ≤ m) (hn : 4 * ts.length + 2 ≤ n) :
    operand m ts = operand n ts := by
  obtain ⟨m, rfl⟩ := Nat.exists_eq_succ_of_ne_zero (show m ≠ 0 by omega)
  obtain ⟨n, rfl⟩ := Nat.exists_eq_succ_of_ne_zero (show n ≠ 0 by omega)
  rw [operand.eq_def, operand.eq_def n.succ]
  simp only
  split
  · simp only [List.length_cons] at hm hn
    exact Reading.bind_congr ((ih _ (by simp)).expression _ (by omega) (by omega)) fun _ _ => rfl
  · simp only [List.length_cons] at hm hn
    exact (ih _ (by simp)).expression _ (by omega) (by omega)
  · exact Reading.bind_congr (primary_eq_primary ih (by omega) (by omega)) fun _ _ => rfl

theorem operators_eq_operators {m n : Nat} (level : Nat) (left : Option Expr)
    (hm : 4 * ts.length + 1 ≤ m) (hn : 4 * ts.length + 1 ≤ n) :
    operators m level left ts = operators n level left ts := by
  obtain ⟨m, rfl⟩ := Nat.exists_eq_succ_of_ne_zero (show m ≠ 0 by omega)
  obtain ⟨n, rfl⟩ := Nat.exists_eq_succ_of_ne_zero (show n ≠ 0 by omega)
  rw [operators.eq_def, operators.eq_def n.succ]
  simp only
  split
  · next op hop =>
    have hpos : 0 < ts.length := by
      cases ts with
      | nil => cases hop
      | cons t ts => simp
    split_ifs
    · refine Reading.bind_congr rfl fun a ha => ?_
      have h₁ := length_binaryModifiers ha
      rw [List.length_tail] at h₁
      have ha := ih a.2 (by omega)
      refine Reading.bind_congr (ha.expression _ (by omega) (by omega)) fun b hb => ?_
      have h₂ := (shortens _).expression hb
      exact (ih b.2 (by omega)).operators _ _ (by omega) (by omega)
    · rfl
  · rfl

theorem expression_eq_expression {m n : Nat} (level : Nat) (hm : 4 * ts.length + 3 ≤ m)
    (hn : 4 * ts.length + 3 ≤ n) : expression m level ts = expression n level ts := by
  obtain ⟨m, rfl⟩ := Nat.exists_eq_succ_of_ne_zero (show m ≠ 0 by omega)
  obtain ⟨n, rfl⟩ := Nat.exists_eq_succ_of_ne_zero (show n ≠ 0 by omega)
  rw [expression, expression]
  refine Reading.bind_congr (operand_eq_operand ih (by omega) (by omega)) fun a ha => ?_
  have := (shortens _).operand ha
  exact (ih a.2 this).operators _ _ (by omega) (by omega)

theorem moreArguments_eq_moreArguments {m n : Nat} (hm : 4 * ts.length + 4 ≤ m)
    (hn : 4 * ts.length + 4 ≤ n) : moreArguments m ts = moreArguments n ts := by
  obtain ⟨m, rfl⟩ := Nat.exists_eq_succ_of_ne_zero (show m ≠ 0 by omega)
  obtain ⟨n, rfl⟩ := Nat.exists_eq_succ_of_ne_zero (show n ≠ 0 by omega)
  rw [moreArguments, moreArguments]
  refine Reading.bind_congr (expression_eq_expression ih 0 (by omega) (by omega)) fun a ha => ?_
  have h := (shortens _).expression ha
  obtain ⟨e, us⟩ := a
  simp only at h ⊢
  split
  · rfl
  · simp only [List.length_cons] at h
    have hus := ih _ (Nat.lt_of_succ_lt h)
    exact Reading.bind_congr (hus.moreArguments (by omega) (by omega)) fun _ _ => rfl
  · rfl

theorem arguments_eq_arguments {m n : Nat} (hm : 4 * ts.length + 5 ≤ m)
    (hn : 4 * ts.length + 5 ≤ n) : arguments m ts = arguments n ts := by
  obtain ⟨m, rfl⟩ := Nat.exists_eq_succ_of_ne_zero (show m ≠ 0 by omega)
  obtain ⟨n, rfl⟩ := Nat.exists_eq_succ_of_ne_zero (show n ≠ 0 by omega)
  rw [arguments.eq_def, arguments.eq_def n.succ]
  simp only
  split
  · rfl
  · exact moreArguments_eq_moreArguments ih (by omega) (by omega)

end Settling

theorem settled (ts : List Token) : Settled ts := by
  induction h : ts.length using Nat.strongRecOn generalizing ts with
  | ind n ih =>
    have ih : ∀ us : List Token, us.length < ts.length → Settled us := by
      intro us hus
      exact ih us.length (h ▸ hus) us rfl
    exact ⟨primary_eq_primary ih, operand_eq_operand ih, expression_eq_expression ih,
      operators_eq_operators ih, arguments_eq_arguments ih, moreArguments_eq_moreArguments ih⟩

end Grammar

end PromQL

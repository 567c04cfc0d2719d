import PromQL.Proofs.Expr.Progress

/-!
# Braces exchanged for others

The readers of expressions look into braces only to read matchers. So if two lists of tokens are the
same but for what stands in one pair of braces, they are read as the same expression, but for the
matchers of one selector. A reader either stops in front of the braces in both lists, with the same
value, or it has read them, with values that differ in the selector, in front of the same tokens.
-/

namespace PromQL

namespace Expr

/-- Two expressions that are the same but for one selector. -/
inductive Differ (r : Selector → Selector → Prop) : Expr → Expr → Prop
  | vector {s s' : Selector} (h : r s s') : Differ r (.vector s) (.vector s')
  | matrix {s s' : Selector} (h : r s s') (range : Duration) :
      Differ r (.matrix s range) (.matrix s' range)
  | subquery {e e' : Expr} (h : Differ r e e') (range : Duration) (step : Option Duration)
      (modifiers : Modifiers) :
      Differ r (.subquery e range step modifiers) (.subquery e' range step modifiers)
  | paren {e e' : Expr} (h : Differ r e e') : Differ r (.paren e) (.paren e')
  | negate {e e' : Expr} (h : Differ r e e') : Differ r (.negate e) (.negate e')
  | call (function : Text) (front back : List Expr) {e e' : Expr} (h : Differ r e e') :
      Differ r (.call function (front ++ e :: back)) (.call function (front ++ e' :: back))
  | inner (op : AggregateOp) (grouping : Option LabelChoice) (parameter : Option Expr)
      {e e' : Expr} (h : Differ r e e') :
      Differ r (.aggregate op grouping parameter e) (.aggregate op grouping parameter e')
  | parameter (op : AggregateOp) (grouping : Option LabelChoice) {e e' : Expr}
      (h : Differ r e e') (inner : Expr) :
      Differ r (.aggregate op grouping (some e) inner) (.aggregate op grouping (some e') inner)
  | left (op : BinaryOp) (modifiers : BinaryModifiers) {e e' : Expr} (h : Differ r e e')
      (right : Expr) :
      Differ r (.binary op modifiers e right) (.binary op modifiers e' right)
  | right (op : BinaryOp) (modifiers : BinaryModifiers) (left : Expr) {e e' : Expr}
      (h : Differ r e e') : Differ r (.binary op modifiers left e) (.binary op modifiers left e')

end Expr

namespace Grammar

/-! ### Readings without a value -/

section Vain

variable {α β : Type} {fuel : Nat} {ts : List Token}

/-- Whether a reading gives no value. -/
def IsVain (a : Reading (Read α)) : Prop := ∀ v ts, a ≠ .ok (some v, ts)

theorem isVain_error (e : ParseError) : IsVain (.error e : Reading (Read α)) := nofun

theorem isVain_none (ts : List Token) : IsVain (.ok (none, ts) : Reading (Read α)) := nofun

theorem isVain_bind {a : Reading α} {f : α → Reading (Read β)} (h : ∀ v, IsVain (f v)) :
    IsVain (a >>= f) := by
  cases a with
  | error e => exact isVain_error e
  | ok v => exact h v

theorem isVain_range (ts : List Token) : IsVain (range none ts) := by
  unfold range
  split
  · exact isVain_bind fun _ => isVain_none _
  · refine isVain_bind fun d => ?_
    split
    · exact isVain_none _
    · exact isVain_bind fun _ => isVain_none _
    · exact isVain_error _
  · exact isVain_error _

theorem isVain_offset (ts : List Token) : IsVain (offset none ts) := by
  unfold offset
  split
  · exact isVain_bind fun _ => isVain_none _
  · exact isVain_error _

theorem isVain_time (ts : List Token) : IsVain (time none ts) := by
  unfold time
  split
  · exact isVain_none _
  · exact isVain_none _
  · split
    · split
      · exact isVain_none _
      · exact isVain_error _
    · exact isVain_error _

/-- Where there is a value in the end, there is one in between. -/
theorem IsVain.bind {a : Reading (Read α)} {f : Read α → Reading (Read β)} (ha : IsVain a)
    (h : ∀ ts, IsVain (f (none, ts))) : IsVain (a >>= f) := by
  rcases a with e | ⟨_ | v, ts⟩
  · exact isVain_error e
  · exact h ts
  · exact absurd rfl (ha v ts)

theorem isVain_suffixes (fuel : Nat) (ts : List Token) : IsVain (suffixes fuel none ts) := by
  induction fuel generalizing ts with
  | zero => exact isVain_error _
  | succ fuel ih =>
    rw [suffixes.eq_def]
    simp only
    split
    · exact (isVain_range _).bind ih
    · exact (isVain_offset _).bind ih
    · exact (isVain_time _).bind ih
    · exact isVain_none _

theorem isVain_operators (fuel level : Nat) (ts : List Token) :
    IsVain (operators fuel level none ts) := by
  induction fuel generalizing ts with
  | zero => exact isVain_error _
  | succ fuel ih =>
    rw [operators]
    split
    · split_ifs
      · exact isVain_bind fun _ => isVain_bind fun b => ih b.2
      · exact isVain_none _
    · exact isVain_none _

end Vain

/-! ### Tokens around braces -/

/-- Two insides of braces that can be read, and the tokens behind the braces. -/
structure Exchange where
  old : List Token
  new : List Token
  behind : List Token
  oldMatchers : Matchers
  newMatchers : Matchers
  old_closed : .rightBrace ∉ old
  new_closed : .rightBrace ∉ new
  read_old : matchersOf? old = some (some oldMatchers)
  read_new : matchersOf? new = some (some newMatchers)
  length_eq : old.length = new.length

namespace Exchange

/-- Two lists of tokens that are the same but for the inside of the braces. -/
inductive Around (x : Exchange) : List Token → List Token → Prop
  | here : Around x (.leftBrace :: (x.old ++ .rightBrace :: x.behind))
      (.leftBrace :: (x.new ++ .rightBrace :: x.behind))
  | token {t : Token} {ts us : List Token} (ht : t ≠ .leftBrace) (h : Around x ts us) :
      Around x (t :: ts) (t :: us)
  | braces {inside ts us : List Token} (hclosed : .rightBrace ∉ inside) (h : Around x ts us) :
      Around x (.leftBrace :: (inside ++ .rightBrace :: ts))
        (.leftBrace :: (inside ++ .rightBrace :: us))

/-- Two selectors that are the same but for their matchers. -/
inductive Selects (x : Exchange) : Selector → Selector → Prop
  | mk (name : Option Text) (modifiers : Modifiers) :
      Selects x ⟨name, x.oldMatchers, modifiers⟩ ⟨name, x.newMatchers, modifiers⟩

/-- Two expressions that are the same but for the matchers of one selector. -/
abbrev Yields (x : Exchange) : Expr → Expr → Prop := Expr.Differ x.Selects

/-- Two readings that end at the same fault, have no value, have come to the same place in front of
the braces, or have read the braces. -/
inductive Alike (x : Exchange) {α : Type} (r : α → α → Prop) :
    Reading (Read α) → Reading (Read α) → Prop
  | error (e : ParseError) : Alike x r (.error e) (.error e)
  | vain (ts : List Token) : Alike x r (.ok (none, ts)) (.ok (none, ts))
  | before (v : Option α) {ts us : List Token} (h : x.Around ts us) :
      Alike x r (.ok (v, ts)) (.ok (v, us))
  | past {v v' : α} (h : r v v') (ts : List Token) :
      Alike x r (.ok (some v, ts)) (.ok (some v', ts))

/-- No two values at all: readers of clauses do not come past braces. -/
def Nowhere {α : Type} : α → α → Prop := fun _ _ => False

variable {x : Exchange} {ts us : List Token} {t : Token}

namespace Around

theorem of_cons (h : x.Around (t :: ts) us) (ht : t ≠ .leftBrace) :
    ∃ vs, us = t :: vs ∧ x.Around ts vs := by
  cases h with
  | here => exact absurd rfl ht
  | token _ h => exact ⟨_, rfl, h⟩
  | braces => exact absurd rfl ht

/-- Both lists start with a brace, or with the same token that is none. -/
@[elab_as_elim]
theorem head_cases {motive : List Token → List Token → Prop} (h : x.Around ts us)
    (brace : ∀ {ts us}, x.Around (.leftBrace :: ts) (.leftBrace :: us) →
      motive (.leftBrace :: ts) (.leftBrace :: us))
    (token : ∀ {t ts us}, t ≠ .leftBrace → x.Around ts us → motive (t :: ts) (t :: us)) :
    motive ts us := by
  cases h with
  | here => exact brace .here
  | token ht h => exact token ht h
  | braces hclosed h => exact brace (.braces hclosed h)

theorem exists_cons (h : x.Around (t :: ts) us) : ∃ vs, us = t :: vs := by
  generalize hts : t :: ts = ws at h
  cases h <;> cases hts <;> exact ⟨_, rfl⟩

theorem head?_eq (h : x.Around ts us) : ts.head? = us.head? := by
  cases h <;> rfl

/-- Braces do not start with an operator. -/
theorem tail {op : BinaryOp} (h : x.Around ts us) (hop : ts.head?.bind Token.binaryOp? = some op) :
    x.Around ts.tail us.tail := by
  cases h with
  | here => cases hop
  | token _ h => exact h
  | braces => cases hop

theorem length_eq (h : x.Around ts us) : ts.length = us.length := by
  induction h with
  | here => simp [x.length_eq]
  | token _ _ ih => simp [ih]
  | braces _ _ ih => simp [ih]

end Around

namespace Alike

variable {α β : Type} {r : α → α → Prop} {r' : β → β → Prop} {a a' : Reading (Read α)}
  {f : Read α → Reading (Read β)}

theorem of_isVain (h : IsVain a) : x.Alike r a a := by
  match a, h with
  | .error e, _ => exact .error e
  | .ok (none, ts), _ => exact .vain ts
  | .ok (some v, ts), h => exact absurd rfl (h v ts)

theorem of_rel {v v' : Option α} (h : Option.Rel r v v') (ts : List Token) :
    x.Alike r (.ok (v, ts)) (.ok (v', ts)) := by
  cases h with
  | some h => exact .past h ts
  | none => exact .vain ts

/-- Readings one after the other. -/
theorem bind (ha : x.Alike r a a') (hvain : ∀ ts, IsVain (f (none, ts)))
    (hbefore : ∀ v ts us, x.Around ts us → x.Alike r' (f (v, ts)) (f (v, us)))
    (hpast : ∀ v v' ts, r v v' → x.Alike r' (f (some v, ts)) (f (some v', ts))) :
    x.Alike r' (a >>= f) (a' >>= f) := by
  cases ha with
  | error e => exact .error e
  | vain ts => exact of_isVain (hvain ts)
  | before v h => exact hbefore v _ _ h
  | past h ts => exact hpast _ _ ts h

/-- The reading of a clause, and what is read behind it. -/
theorem bind_clause (ha : x.Alike Nowhere a a') (hvain : ∀ ts, IsVain (f (none, ts)))
    (hbefore : ∀ v ts us, x.Around ts us → x.Alike r' (f (v, ts)) (f (v, us))) :
    x.Alike r' (a >>= f) (a' >>= f) :=
  ha.bind hvain hbefore nofun

/-- The same reading in front of two others. -/
theorem bind_value {γ : Type} {y : Reading γ} {f f' : γ → Reading (Read β)}
    (h : ∀ v, x.Alike r' (f v) (f' v)) : x.Alike r' (y >>= f) (y >>= f') := by
  cases y with
  | error e => exact .error e
  | ok v => exact h v

end Alike

/-- A token that has to be there, and what is read behind it. -/
theorem alike_expect {α : Type} {r : α → α → Prop} {f : List Token → Reading (Read α)}
    (ht : t ≠ .leftBrace) (h : x.Around ts us)
    (hf : ∀ ts us, x.Around ts us → x.Alike r (f ts) (f us)) :
    x.Alike r (expect t ts >>= f) (expect t us >>= f) := by
  refine h.head_cases (fun _ => ?_) fun {u ts us} _ h => ?_
  · rw [expect, expect, if_neg ht.symm, if_neg ht.symm]
    exact .error _
  · rw [expect, expect]
    split_ifs
    · exact hf ts us h
    · exact .error _

/-! ### Clauses -/

theorem labelsRest_of_label?_none (ht : t.label? = none) (hparen : t ≠ .rightParen)
    (ts : List Token) : labelsRest (t :: ts) = malformed := by
  unfold labelsRest
  split
  · next heq =>
    cases heq
    exact absurd rfl hparen
  · next heq =>
    cases heq
    rw [ht]
  · next heq =>
    cases heq
    rw [ht]
  · rfl

theorem labelsRest_of_head (hparen : t ≠ .rightParen)
    (hhead : ts.head? ≠ some .rightParen ∧ ts.head? ≠ some .comma) :
    labelsRest (t :: ts) = malformed := by
  unfold labelsRest
  split
  · next heq =>
    cases heq
    exact absurd rfl hparen
  · next heq =>
    cases heq
    exact absurd rfl hhead.1
  · next heq =>
    cases heq
    exact absurd rfl hhead.2
  · rfl

theorem alike_labelsRest (h : x.Around ts us) :
    x.Alike Nowhere (labelsRest ts) (labelsRest us) := by
  fun_induction labelsRest ts generalizing us with
  | case1 ts =>
    obtain ⟨vs, rfl, hvs⟩ := h.of_cons (by decide)
    exact .before _ hvs
  | case2 t ts ht label hlabel =>
    obtain ⟨vs, rfl, hvs⟩ := h.of_cons (by rintro rfl; cases hlabel)
    obtain ⟨ws, rfl, hws⟩ := hvs.of_cons (by decide)
    simp only [labelsRest, hlabel]
    exact .before _ hws
  | case4 t ts ht label hlabel ih =>
    obtain ⟨vs, rfl, hvs⟩ := h.of_cons (by rintro rfl; cases hlabel)
    obtain ⟨ws, rfl, hws⟩ := hvs.of_cons (by decide)
    simp only [labelsRest, hlabel]
    refine (ih hws).bind_clause (fun ts => ?_) fun _ _ _ => .before _
    cases label <;> exact isVain_none ts
  | case3 t ts ht hlabel | case5 t ts ht hlabel =>
    obtain ⟨vs, rfl⟩ := h.exists_cons
    rw [labelsRest_of_label?_none hlabel ht]
    exact .error _
  | case6 ts hclose hlast hmore =>
    have hus : labelsRest us = malformed := by
      revert hclose hlast hmore
      refine h.head_cases
        (fun _ _ _ _ => labelsRest_of_label?_none (t := .leftBrace) rfl (by decide) _) ?_
      intro t ts us _ h hclose hlast hmore
      refine labelsRest_of_head (fun ht => hclose ts (by rw [ht])) ?_
      rw [← h.head?_eq]
      refine ⟨fun hhead => ?_, fun hhead => ?_⟩
      · obtain ⟨ws, rfl⟩ := List.head?_eq_some_iff.mp hhead
        exact hlast t ws rfl
      · obtain ⟨ws, rfl⟩ := List.head?_eq_some_iff.mp hhead
        exact hmore t ws rfl
    rw [hus]
    exact .error _

theorem alike_labelList (h : x.Around ts us) :
    x.Alike Nowhere (labelList ts) (labelList us) := by
  refine h.head_cases (fun _ => .error _) fun {t ts us} _ h => ?_
  cases t
  case leftParen => exact alike_labelsRest h
  all_goals exact .error _

theorem alike_labelChoice (allBut : Bool) (h : x.Around ts us) :
    x.Alike Nowhere (labelChoice allBut ts) (labelChoice allBut us) :=
  (alike_labelList h).bind_clause isVain_none fun _ _ _ => .before _

theorem alike_groupModifier (h : x.Around ts us) :
    x.Alike Nowhere (groupModifier ts) (groupModifier us) := by
  refine h.head_cases (fun h => .before _ h) fun {t ts us} ht h => ?_
  cases t
  case keyword k word =>
    cases k
    case group many =>
      refine h.head_cases (fun h => .before _ h) fun {u ts us} hu h => ?_
      cases u
      case leftParen =>
        exact (alike_labelsRest h).bind_clause isVain_none fun _ _ _ => .before _
      all_goals exact .before _ (.token hu h)
    all_goals exact .before _ (.token ht h)
  all_goals exact .before _ (.token ht h)

theorem around_afterBool (h : x.Around ts us) :
    (afterBool ts).1 = (afterBool us).1 ∧ x.Around (afterBool ts).2 (afterBool us).2 := by
  refine h.head_cases (fun h => ⟨rfl, h⟩) fun {t ts us} ht h => ?_
  cases t
  case keyword k word =>
    cases k
    case bool => exact ⟨rfl, h⟩
    all_goals exact ⟨rfl, .token ht h⟩
  all_goals exact ⟨rfl, .token ht h⟩

theorem alike_binaryModifiers (h : x.Around ts us) :
    x.Alike Nowhere (binaryModifiers ts) (binaryModifiers us) := by
  obtain ⟨hbool, hrest⟩ := around_afterBool h
  rw [binaryModifiers_eq, binaryModifiers_eq us, ← hbool]
  refine hrest.head_cases (fun h => .before _ h) fun {t ts us} ht h => ?_
  cases t
  case keyword k word =>
    cases k
    case matching allBut =>
      refine (alike_labelChoice allBut h).bind_clause
        (fun _ => isVain_bind fun _ => isVain_none _) fun choice _ _ h => ?_
      refine (alike_groupModifier h).bind_clause (fun ts => ?_) fun _ _ _ => .before _
      cases choice <;> exact isVain_none ts
    all_goals exact .before _ (.token ht h)
  all_goals exact .before _ (.token ht h)

theorem alike_grouping (h : x.Around ts us) :
    x.Alike Nowhere (grouping ts) (grouping us) := by
  refine h.head_cases (fun h => .before _ h) fun {t ts us} ht h => ?_
  cases t
  case keyword k word =>
    cases k
    case grouping allBut =>
      exact (alike_labelChoice allBut h).bind_clause isVain_none fun _ _ _ => .before _
    all_goals exact .before _ (.token ht h)
  all_goals exact .before _ (.token ht h)

/-! ### Matchers -/

theorem matchers_braces {inside : List Token} (hclosed : .rightBrace ∉ inside) (ts : List Token) :
    Grammar.matchers (.leftBrace :: (inside ++ .rightBrace :: ts)) =
      match matchersOf? inside with
      | some ms => .ok (ms, ts)
      | none => malformed := by
  have hinside : ∀ t ∈ inside, (t != .rightBrace) = true := fun t ht =>
    bne_iff_ne.mpr fun heq => hclosed (heq ▸ ht)
  have htake : (inside ++ .rightBrace :: ts).takeWhile (· != .rightBrace) = inside := by
    rw [List.takeWhile_append_of_pos hinside]
    simp
  have hdrop : (inside ++ .rightBrace :: ts).dropWhile (· != .rightBrace) = .rightBrace :: ts := by
    rw [List.dropWhile_append_of_pos hinside]
    simp
  simp only [matchers, htake, hdrop]
  cases matchersOf? inside <;> rfl

/-- The matchers that are exchanged. -/
inductive Fills (x : Exchange) : Matchers → Matchers → Prop
  | mk : Fills x x.oldMatchers x.newMatchers

theorem alike_matchers (h : x.Around ts us) :
    x.Alike x.Fills (matchers ts) (matchers us) := by
  cases h with
  | here =>
    rw [matchers_braces x.old_closed, matchers_braces x.new_closed, x.read_old, x.read_new]
    exact .past .mk _
  | @braces inside ts us hclosed h =>
    rw [matchers_braces hclosed, matchers_braces hclosed]
    cases matchersOf? inside with
    | none => exact .error _
    | some ms => exact .before _ h
  | @token t ts us ht h =>
    cases t
    case leftBrace => exact absurd rfl ht
    all_goals exact .error _

theorem alike_selector (name : Option Text) (h : x.Around ts us) :
    x.Alike x.Yields (selector name ts) (selector name us) := by
  have hmatchers := alike_matchers h
  revert hmatchers
  refine h.head_cases (fun h hmatchers => ?_) fun {t ts us} ht h _ => ?_
  · refine hmatchers.bind isVain_none (fun _ _ _ => .before _) ?_
    rintro _ _ ts ⟨⟩
    exact .past (.vector (.mk name .empty)) ts
  · cases t
    case leftBrace => exact absurd rfl ht
    all_goals
      cases name with
      | none => exact .error _
      | some name => exact .before _ (.token ht h)

/-! ### Behind an operand -/

theorem mayFollow_eq (h : ts.head? = us.head?) : mayFollow ts = mayFollow us := by
  cases ts <;> cases us <;> cases h <;> rfl

/-- What is behind the colon of a subquery. -/
def subqueryEnd (e : Option Expr) (d : Option Duration) : List Token → Reading (Read Expr)
  | .rightBracket :: ts => pure (e.bind fun e => d.map fun d => .subquery e d none .empty, ts)
  | t :: .rightBracket :: ts => do
    let step ← durationOf t true
    pure (e.bind fun e => d.bind fun d => step.map fun s => .subquery e d (some s) .empty, ts)
  | _ => malformed

/-- The step of a subquery, up to the closing bracket. -/
theorem subqueryEnd_cons (e : Option Expr) (d : Option Duration) (ht : t ≠ .rightBracket)
    (ts : List Token) : subqueryEnd e d (t :: ts) =
      match ts with
      | .rightBracket :: ts => do
        let step ← durationOf t true
        pure (e.bind fun e => d.bind fun d => step.map fun s => .subquery e d (some s) .empty, ts)
      | _ => malformed := by
  cases ts with
  | nil => cases t <;> first | rfl | exact absurd rfl ht
  | cons u ts => cases u <;> cases t <;> first | rfl | exact absurd rfl ht

theorem range_leftBrace (e : Option Expr) (ts : List Token) :
    range e (.leftBrace :: ts) = malformed := by
  cases ts with
  | nil => rfl
  | cons t ts => cases t <;> rfl

theorem alike_subqueryEnd (e : Option Expr) (d : Option Duration) (h : x.Around ts us) :
    x.Alike Nowhere (subqueryEnd e d ts) (subqueryEnd e d us) := by
  have hbrace : ∀ ts, subqueryEnd e d (.leftBrace :: ts) = malformed := by
    intro ts
    rw [subqueryEnd_cons e d (t := .leftBrace) (by decide)]
    split <;> rfl
  refine h.head_cases (fun _ => ?_) fun {t ts us} ht h => ?_
  · rw [hbrace, hbrace]
    exact .error _
  · by_cases hclose : t = .rightBracket
    · subst hclose
      exact .before _ h
    · rw [subqueryEnd_cons e d hclose, subqueryEnd_cons e d hclose]
      refine h.head_cases (fun _ => .error _) fun {u ts us} _ h => ?_
      cases u
      case rightBracket => exact .bind_value fun step => .before _ h
      all_goals exact .error _

theorem alike_range (e : Option Expr) (h : x.Around ts us) :
    x.Alike Nowhere (range e ts) (range e us) := by
  refine h.head_cases (fun _ => ?_) fun {t ts us} ht h => ?_
  · rw [range_leftBrace, range_leftBrace]
    exact .error _
  · refine h.head_cases (fun _ => .error _) fun {u ts us} _ h => ?_
    cases u
    case rightBracket => exact .bind_value fun d => .before _ h
    case colon => exact .bind_value fun d => alike_subqueryEnd e d h
    all_goals exact .error _

theorem around_signed (h : x.Around ts us) :
    (signed ts).1 = (signed us).1 ∧ x.Around (signed ts).2 (signed us).2 := by
  refine h.head_cases (fun h => ⟨rfl, h⟩) fun {t ts us} ht h => ?_
  cases t
  case operator op =>
    cases op
    case sub | add => exact ⟨rfl, h⟩
    all_goals exact ⟨rfl, .token ht h⟩
  all_goals exact ⟨rfl, .token ht h⟩

theorem alike_offset (e : Option Expr) (h : x.Around ts us) :
    x.Alike Nowhere (offset e ts) (offset e us) := by
  obtain ⟨hsign, hrest⟩ := around_signed h
  unfold offset
  generalize signed ts = a at hsign hrest
  generalize signed us = b at hsign hrest
  obtain ⟨negative, vs⟩ := a
  obtain ⟨_, ws⟩ := b
  obtain rfl : negative = _ := hsign
  simp only at hrest ⊢
  refine hrest.head_cases (fun _ => .error _) fun {t ts us} _ h => ?_
  simp only [mayFollow_eq h.head?_eq]
  exact .bind_value fun d => .before _ h

theorem alike_time (e : Option Expr) (h : x.Around ts us) :
    x.Alike Nowhere (time e ts) (time e us) := by
  refine h.head_cases (fun _ => .error _) fun {t ts us} ht h => ?_
  cases t
  case number | duration => exact .before _ h
  case keyword k w =>
    cases k
    case queryStart | queryEnd =>
      refine h.head_cases (fun _ => .error _) fun {u ts us} hu h => ?_
      cases u
      case leftParen =>
        refine h.head_cases (fun _ => .error _) fun {v ts us} hv h => ?_
        cases v
        case rightParen => exact .before _ h
        all_goals exact .error _
      all_goals exact .error _
    all_goals exact .error _
  case operator op =>
    cases op
    case add | sub =>
      refine h.head_cases (fun _ => .error _) fun {u ts us} hu h => ?_
      cases u
      case number | duration => exact .before _ h
      all_goals exact .error _
    all_goals exact .error _
  all_goals exact .error _

theorem alike_suffixes (fuel : Nat) (e : Option Expr) (h : x.Around ts us) :
    x.Alike x.Yields (suffixes fuel e ts) (suffixes fuel e us) := by
  induction fuel generalizing e ts us with
  | zero => exact .error _
  | succ fuel ih =>
    have hvain := isVain_suffixes fuel
    refine h.head_cases (fun h => .before e h) fun {t ts us} ht h => ?_
    cases t
    case leftBracket => exact (alike_range e h).bind_clause hvain fun v _ _ => ih v
    case atSign => exact (alike_time e h).bind_clause hvain fun v _ _ => ih v
    case keyword k w =>
      cases k
      case offset => exact (alike_offset e h).bind_clause hvain fun v _ _ => ih v
      all_goals exact .before e (.token ht h)
    all_goals exact .before e (.token ht h)

/-! ### Around the selector -/

section Nodes

variable {e e' : Expr} {es es' : List Expr}

theorem yields_overRange? (h : x.Yields e e') (range : Duration) :
    Option.Rel x.Yields (e.overRange? range) (e'.overRange? range) := by
  cases h with
  | vector h =>
    obtain ⟨name, modifiers⟩ := h
    simp only [Expr.overRange?]
    split_ifs
    · exact .some (.matrix (.mk name modifiers) range)
    · exact .none
  | _ => exact .none

theorem yields_modify? (h : x.Yields e e') (change : Modifiers → Option Modifiers) :
    Option.Rel x.Yields (e.modify? change) (e'.modify? change) := by
  cases h with
  | vector h =>
    obtain ⟨name, modifiers⟩ := h
    simp only [Expr.modify?]
    cases change modifiers with
    | none => exact .none
    | some modifiers => exact .some (.vector (.mk name modifiers))
  | matrix h range =>
    obtain ⟨name, modifiers⟩ := h
    simp only [Expr.modify?]
    cases change modifiers with
    | none => exact .none
    | some modifiers => exact .some (.matrix (.mk name modifiers) range)
  | subquery h range step modifiers =>
    simp only [Expr.modify?]
    cases change modifiers with
    | none => exact .none
    | some modifiers => exact .some (.subquery h range step modifiers)
  | _ => exact .none

theorem yields_withOffset? (h : x.Yields e e') (o : Offset) :
    Option.Rel x.Yields (e.withOffset? o) (e'.withOffset? o) :=
  yields_modify? h _

theorem yields_withTime? (h : x.Yields e e') (t : Instant) :
    Option.Rel x.Yields (e.withTime? t) (e'.withTime? t) :=
  yields_modify? h _

theorem yields_negated (h : x.Yields e e') : x.Yields e.negated e'.negated := by
  cases h <;> exact .negate (by constructor; assumption)

/-- Two lists of arguments of which one differs. -/
def YieldsOne (x : Exchange) (es es' : List Expr) : Prop :=
  ∃ front e e' back, es = front ++ e :: back ∧ es' = front ++ e' :: back ∧ x.Yields e e'

theorem YieldsOne.head (h : x.Yields e e') (es : List Expr) : x.YieldsOne (e :: es) (e' :: es) :=
  ⟨[], e, e', es, rfl, rfl, h⟩

theorem YieldsOne.cons (e : Expr) (h : x.YieldsOne es es') : x.YieldsOne (e :: es) (e :: es') := by
  obtain ⟨front, a, b, back, rfl, rfl, h⟩ := h
  exact ⟨e :: front, a, b, back, rfl, rfl, h⟩

theorem yields_call (name : Text) (h : x.YieldsOne es es') :
    x.Yields (.call name es) (.call name es') := by
  obtain ⟨front, e, e', back, rfl, rfl, h⟩ := h
  exact .call name front back h

theorem aggregateOf?_of_length {op : AggregateOp} {g : Option LabelChoice} (h : 2 < es.length) :
    Expr.aggregateOf? op g es = none := by
  match es, h with
  | _ :: _ :: _ :: _, _ => rfl

theorem yields_aggregateOf? (op : AggregateOp) (g : Option LabelChoice) (h : x.YieldsOne es es') :
    Option.Rel x.Yields (Expr.aggregateOf? op g es) (Expr.aggregateOf? op g es') := by
  obtain ⟨front, e, e', back, rfl, rfl, h⟩ := h
  by_cases hmany : 2 < front.length + (back.length + 1)
  · rw [aggregateOf?_of_length (by simpa using hmany),
      aggregateOf?_of_length (by simpa using hmany)]
    exact .none
  match front, back with
  | [], [] =>
    simp only [List.nil_append, Expr.aggregateOf?]
    split_ifs
    · exact .none
    · exact .some (.inner op g none h)
  | [], [inner] =>
    simp only [List.nil_append, Expr.aggregateOf?]
    split_ifs
    · exact .some (.parameter op g h inner)
    · exact .none
  | [parameter], [] =>
    simp only [List.cons_append, List.nil_append, Expr.aggregateOf?]
    split_ifs
    · exact .some (.inner op g (some parameter) h)
    · exact .none
  | [], _ :: _ :: _ | [_], _ :: _ | _ :: _ :: _, _ =>
    simp only [List.length_cons] at hmany
    omega

/-! ### Behind the selector -/

theorem alike_range_past (h : x.Yields e e') (ts : List Token) :
    x.Alike x.Yields (range (some e) ts) (range (some e') ts) := by
  unfold range
  split
  · refine .bind_value fun d => .of_rel ?_ _
    cases d with
    | none => exact .none
    | some d => exact yields_overRange? h d
  · refine .bind_value fun d => ?_
    split
    · refine .of_rel ?_ _
      cases d with
      | none => exact .none
      | some d => exact .some (.subquery h d none .empty)
    · refine .bind_value fun step => .of_rel ?_ _
      match d, step with
      | none, _ | some _, none => exact .none
      | some d, some step => exact .some (.subquery h d (some step) .empty)
    · exact .error _
  · exact .error _

theorem alike_offset_past (h : x.Yields e e') (ts : List Token) :
    x.Alike x.Yields (offset (some e) ts) (offset (some e') ts) := by
  unfold offset
  split
  · refine .bind_value fun d => .of_rel ?_ _
    cases d with
    | none => exact .none
    | some d => exact yields_withOffset? h _
  · exact .error _

theorem alike_time_past (h : x.Yields e e') (ts : List Token) :
    x.Alike x.Yields (time (some e) ts) (time (some e') ts) := by
  unfold time
  split
  · exact .of_rel (yields_withTime? h _) _
  · exact .of_rel (yields_withTime? h _) _
  · split
    · split
      · next v _ =>
        refine .of_rel ?_ _
        cases v with
        | none => exact .none
        | some v =>
          simp only [Option.map_some, Option.bind_some]
          cases Instant.ofSeconds? _ with
          | none => exact .none
          | some instant => exact yields_withTime? h instant
      · exact .error _
    · exact .error _

theorem alike_suffixes_past (fuel : Nat) (h : x.Yields e e') (ts : List Token) :
    x.Alike x.Yields (suffixes fuel (some e) ts) (suffixes fuel (some e') ts) := by
  induction fuel generalizing e e' ts with
  | zero => exact .error _
  | succ fuel ih =>
    have hvain := isVain_suffixes fuel
    have hbefore : ∀ v ts us, x.Around ts us →
        x.Alike x.Yields (suffixes fuel v ts) (suffixes fuel v us) := fun v _ _ =>
      alike_suffixes fuel v
    rw [suffixes.eq_def, suffixes.eq_def _ (some e')]
    simp only
    split
    · exact (alike_range_past h _).bind hvain hbefore fun _ _ ts h => ih h ts
    · exact (alike_offset_past h _).bind hvain hbefore fun _ _ ts h => ih h ts
    · exact (alike_time_past h _).bind hvain hbefore fun _ _ ts h => ih h ts
    · exact .past h _

end Nodes

/-! ### Operands and operators -/

/-- The selector of the metric that a token may name. -/
def metricSelector (t : Token) (ts : List Token) : Reading (Read Expr) :=
  match t.metricName? with
  | some name => selector (some name) ts
  | none => malformed

/-- An operand that has no sign. -/
def unsignedOperand (fuel : Nat) (ts : List Token) : Reading (Read Expr) := do
  let (e, ts) ← primary fuel ts
  suffixes (ts.length + 1) e ts

/-- What the readers of expressions give with so many steps. -/
structure Steps (x : Exchange) (fuel : Nat) : Prop where
  primary : ∀ {ts us}, x.Around ts us →
    x.Alike x.Yields (Grammar.primary fuel ts) (Grammar.primary fuel us)
  operand : ∀ {ts us}, x.Around ts us →
    x.Alike x.Yields (Grammar.operand fuel ts) (Grammar.operand fuel us)
  expression : ∀ {level ts us}, x.Around ts us →
    x.Alike x.Yields (Grammar.expression fuel level ts) (Grammar.expression fuel level us)
  operators : ∀ {level left ts us}, x.Around ts us →
    x.Alike x.Yields (Grammar.operators fuel level left ts) (Grammar.operators fuel level left us)
  operators_past : ∀ {level left left'} ts, x.Yields left left' → x.Alike x.Yields
    (Grammar.operators fuel level (some left) ts) (Grammar.operators fuel level (some left') ts)
  arguments : ∀ {ts us}, x.Around ts us →
    x.Alike x.YieldsOne (Grammar.arguments fuel ts) (Grammar.arguments fuel us)
  moreArguments : ∀ {ts us}, x.Around ts us →
    x.Alike x.YieldsOne (Grammar.moreArguments fuel ts) (Grammar.moreArguments fuel us)

section Steps

variable {fuel : Nat} (ih : Steps x fuel)

include ih

theorem alike_primary (h : x.Around ts us) :
    x.Alike x.Yields (primary (fuel + 1) ts) (primary (fuel + 1) us) := by
  refine h.head_cases (fun h => alike_selector none h) fun {t ts us} ht h => ?_
  have hname : x.Alike x.Yields (metricSelector t ts) (metricSelector t us) := by
    unfold metricSelector
    cases t.metricName? with
    | none => exact .error _
    | some name => exact alike_selector _ h
  cases t
  case leftBrace => exact absurd rfl ht
  case number | duration | string => exact .before _ h
  case metric name => exact hname
  case leftParen =>
    refine (ih.expression h).bind (fun _ => isVain_bind isVain_none) (fun v ts us h => ?_)
      fun e e' ts h => ?_
    · exact alike_expect (by decide) h fun _ _ => .before _
    · exact .bind_value fun ts => .past (.paren h) ts
  case identifier name =>
    revert hname
    refine h.head_cases (fun _ hname => hname) fun {u ts us} _ h hname => ?_
    cases u
    case leftParen =>
      exact (ih.arguments h).bind isVain_none (fun _ _ _ => .before _) fun _ _ ts h =>
        .past (yields_call name h) ts
    all_goals exact hname
  case keyword k w =>
    cases k
    case aggregate op =>
      revert hname
      refine h.head_cases (fun _ hname => hname) fun {u ts us} hu h hname => ?_
      cases u
      case leftParen =>
        rw [primary, primary]
        split_ifs
        · exact .error _
        · refine (ih.arguments h).bind (fun _ => isVain_bind fun _ => isVain_none _)
            (fun es ts us h => ?_) fun es es' ts h => ?_
          · refine (alike_grouping h).bind_clause (fun ts => ?_) fun _ _ _ => .before _
            cases es <;> exact isVain_none ts
          · refine .bind_value fun next => .of_rel ?_ next.2
            cases next.1 with
            | none => exact .none
            | some g => exact yields_aggregateOf? op g h
      case keyword k w =>
        cases k
        case grouping allBut =>
          rw [primary, primary]
          split_ifs
          · exact .error _
          · refine (alike_grouping (.token hu h)).bind_clause
              (fun _ => isVain_bind fun _ => isVain_bind fun next => ?_)
              fun g ts us h => alike_expect (by decide) h fun ts us h => ?_
            · obtain ⟨_ | es, ts⟩ := next <;> exact isVain_none ts
            refine (ih.arguments h).bind isVain_none (fun _ _ _ => .before _)
              fun es es' ts h => .of_rel ?_ ts
            cases g with
            | none => exact .none
            | some g => exact yields_aggregateOf? op g h
        all_goals exact hname
      all_goals exact hname
    all_goals exact hname
  all_goals exact .error _

theorem alike_unsignedOperand (h : x.Around ts us) :
    x.Alike x.Yields (unsignedOperand fuel ts) (unsignedOperand fuel us) := by
  refine (ih.primary h).bind (fun _ => isVain_suffixes _ _) (fun e ts us h => ?_)
    fun _ _ ts h => alike_suffixes_past _ h ts
  simp only [h.length_eq]
  exact alike_suffixes _ e h

theorem alike_operand (h : x.Around ts us) :
    x.Alike x.Yields (operand (fuel + 1) ts) (operand (fuel + 1) us) := by
  refine h.head_cases (fun h => alike_unsignedOperand ih h) fun {t ts us} ht h => ?_
  cases t
  case operator op =>
    cases op
    case sub =>
      exact (ih.expression h).bind isVain_none (fun _ _ _ => .before _) fun _ _ ts h =>
        .past (yields_negated h) ts
    case add => exact ih.expression h
    all_goals exact alike_unsignedOperand ih (.token ht h)
  all_goals exact alike_unsignedOperand ih (.token ht h)

theorem alike_expression {level : Nat} (h : x.Around ts us) :
    x.Alike x.Yields (expression (fuel + 1) level ts) (expression (fuel + 1) level us) :=
  (ih.operand h).bind (fun _ => isVain_operators _ _ _) (fun _ _ _ => ih.operators) fun _ _ ts h =>
    ih.operators_past ts h

theorem alike_operators {level : Nat} {left : Option Expr} (h : x.Around ts us) :
    x.Alike x.Yields (operators (fuel + 1) level left ts) (operators (fuel + 1) level left us) := by
  rw [operators, operators, ← h.head?_eq]
  split
  · next op hop =>
    split_ifs
    · refine (alike_binaryModifiers (h.tail hop)).bind_clause (fun ts => ?_) fun m ts us h => ?_
      · refine isVain_bind fun _ => ?_
        cases left <;> exact isVain_operators _ _ _
      · refine (ih.expression h).bind (fun ts => ?_) (fun right ts us h => ih.operators h) ?_
        · cases left <;> cases m <;> exact isVain_operators _ _ _
        · intro right right' ts h
          rcases left with _ | left
          · exact .of_isVain (isVain_operators _ _ _)
          · rcases m with _ | m
            · exact .of_isVain (isVain_operators _ _ _)
            · exact ih.operators_past ts (.right op m left h)
    · exact .before left h
  · exact .before left h

theorem alike_operators_past {level : Nat} {left left' : Expr} (ts : List Token)
    (h : x.Yields left left') :
    x.Alike x.Yields (operators (fuel + 1) level (some left) ts)
      (operators (fuel + 1) level (some left') ts) := by
  rw [operators, operators]
  split
  · next op hop =>
    split_ifs
    · refine .bind_value fun modifiers => .bind_value fun operand => ?_
      rcases modifiers with ⟨_ | m, ts⟩
      · exact .of_isVain (isVain_operators _ _ _)
      · rcases operand with ⟨_ | right, ts⟩
        · exact .of_isVain (isVain_operators _ _ _)
        · exact ih.operators_past ts (.left op m h right)
    · exact .past h ts
  · exact .past h ts

theorem alike_moreArguments (h : x.Around ts us) :
    x.Alike x.YieldsOne (moreArguments (fuel + 1) ts) (moreArguments (fuel + 1) us) := by
  refine (ih.expression h).bind (fun ts => ?_) (fun e ts us h => ?_) fun e e' ts h => ?_
  · simp only
    split
    · exact isVain_none _
    · exact isVain_bind fun _ => isVain_none _
    · exact isVain_error _
  · refine h.head_cases (fun _ => .error _) fun {t ts us} _ h => ?_
    cases t
    case rightParen => exact .before _ h
    case comma =>
      refine (ih.moreArguments h).bind (fun ts => ?_) (fun _ _ _ => .before _) fun es es' ts h => ?_
      · cases e <;> exact isVain_none ts
      · cases e with
        | none => exact .vain _
        | some e => exact .past (.cons e h) ts
    all_goals exact .error _
  · simp only
    split
    · exact .past (.head h []) _
    · refine .bind_value fun others => ?_
      obtain ⟨es, ts⟩ := others
      cases es with
      | none => exact .vain _
      | some es => exact .past (.head h es) ts
    · exact .error _

theorem alike_arguments (h : x.Around ts us) :
    x.Alike x.YieldsOne (arguments (fuel + 1) ts) (arguments (fuel + 1) us) := by
  refine h.head_cases (fun h => ih.moreArguments h) fun {t ts us} ht h => ?_
  cases t
  case rightParen => exact .before _ h
  all_goals exact ih.moreArguments (.token ht h)

end Steps

theorem steps (x : Exchange) (fuel : Nat) : Steps x fuel := by
  induction fuel with
  | zero => constructor <;> intros <;> exact .error _
  | succ fuel ih =>
    exact ⟨alike_primary ih, alike_operand ih, alike_expression ih, alike_operators ih,
      alike_operators_past ih, alike_arguments ih, alike_moreArguments ih⟩

/-- Two queries that differ in one pair of braces are read as expressions that differ in the
matchers of one selector. -/
theorem yields_of_whole {e e' : Expr} (h : x.Around ts us) (hts : whole ts = .ok (some e))
    (hus : whole us = .ok (some e')) : x.Yields e e' := by
  have hread : x.Alike x.Yields (expression (4 * ts.length + 4) 0 ts)
      (expression (4 * ts.length + 4) 0 us) := (steps x (4 * ts.length + 4)).expression h
  unfold whole at hts hus
  rw [← h.length_eq] at hus
  generalize expression (4 * ts.length + 4) 0 ts = a at hts hread
  generalize expression (4 * ts.length + 4) 0 us = b at hus hread
  cases hread with
  | error => cases hts
  | vain vs => cases vs <;> cases hts
  | before v h => cases h <;> cases hts
  | past h vs =>
    cases vs with
    | nil =>
      cases hts
      cases hus
      exact h
    | cons => cases hts

end Exchange

end Grammar

end PromQL

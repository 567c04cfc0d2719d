import PromQL.Proofs.Expr.Weight
import PromQL.Proofs.Token.Words

/-!
# What readers take

A reader takes tokens away from the front. Those that are left are words of the lexer if all of them
were, and those that are gone weigh at least as much as what has been read.
-/

namespace PromQL

/-- Tokens of at least some weight are taken away in front of others, outside of braces. -/
structure Takes (weight : Nat) (ts rest : List Token) : Prop where
  lexed : Lexed .plain ts → Lexed .plain rest
  weight : weight + tally rest ≤ tally ts

namespace Takes

variable {w w' : Nat} {ts us rest : List Token} {t : Token}

theorem refl (ts : List Token) : Takes 0 ts ts := ⟨id, Nat.le_of_eq (Nat.zero_add _)⟩

theorem trans (h : Takes w ts us) (h' : Takes w' us rest) : Takes (w + w') ts rest := by
  have h₁ := h.weight
  have h₂ := h'.weight
  exact ⟨fun hts => h'.lexed (h.lexed hts), by omega⟩

theorem weaken (h : Takes w ts rest) (hle : w' ≤ w) : Takes w' ts rest :=
  ⟨h.lexed, Nat.le_trans (Nat.add_le_add_right hle _) h.weight⟩

theorem cons_of (hgroup : t.IsGroupWord → ts.head? ≠ some .leftParen)
    (hafter : LexMode.plain.after t = .plain) (hweight : w ≤ t.weight) : Takes w (t :: ts) ts := by
  constructor
  · intro h
    have := h.2
    rwa [hafter] at this
  · rw [tally_cons_of hgroup]
    exact Nat.add_le_add_right hweight _

theorem cons (hgroup : ¬ t.IsGroupWord) (hafter : LexMode.plain.after t = .plain)
    (hweight : w ≤ t.weight) : Takes w (t :: ts) ts :=
  cons_of (fun h => absurd h hgroup) hafter hweight

theorem paren (ts : List Token) : Takes 1 (.leftParen :: ts) ts :=
  cons (by simp [Token.IsGroupWord]) rfl (Nat.le_refl 1)

theorem comma (ts : List Token) : Takes 0 (.comma :: ts) ts :=
  cons (by simp [Token.IsGroupWord]) rfl (Nat.zero_le _)

theorem close (ts : List Token) : Takes 0 (.rightParen :: ts) ts :=
  cons (by simp [Token.IsGroupWord]) rfl (Nat.zero_le _)

theorem keyword {k : Keyword} (h : ∀ many, k ≠ .group many) (spelling : Text)
    (ts : List Token) : Takes 0 (.keyword k spelling :: ts) ts := by
  apply cons _ rfl (Nat.zero_le _)
  rintro ⟨many, word', heq⟩
  exact h many (Token.keyword.inj heq).1

theorem binaryOp {op : BinaryOp} (h : t.binaryOp? = some op) (ts : List Token) :
    Takes 0 (t :: ts) ts := by
  cases t
  case keyword word spelling =>
    apply keyword
    rintro many rfl
    cases h
  case operator op => exact cons (by simp [Token.IsGroupWord]) rfl (Nat.zero_le _)
  all_goals cases h

end Takes

namespace Grammar

/-- The name of a metric is a word, and no group modifier. -/
theorem takes_name {t : Token} {name : Text} (h : t.metricName? = some name) (ts : List Token) :
    Takes 0 (t :: ts) ts ∧ t.word? = some name := by
  cases t
  case identifier =>
    cases h
    exact ⟨.cons (by simp [Token.IsGroupWord]) rfl (Nat.zero_le _), rfl⟩
  case metric =>
    cases h
    exact ⟨.cons (by simp [Token.IsGroupWord]) rfl (Nat.zero_le _), rfl⟩
  case keyword word spelling =>
    rw [Token.metricName?] at h
    split at h
    · next hmetric =>
      refine ⟨.keyword ?_ _ _, h⟩
      rintro many rfl
      cases hmetric
    · cases h
  all_goals cases h

/-! ### Labels -/

theorem takes_expect {t : Token} {ts rest : List Token} (hgroup : ¬ t.IsGroupWord)
    (hafter : LexMode.plain.after t = .plain) (h : expect t ts = .ok rest) :
    Takes t.weight ts rest := by
  unfold expect at h
  split at h
  · split at h
    · next heq =>
      cases h
      subst heq
      exact .cons hgroup hafter (Nat.le_refl _)
    · cases h
  · cases h

theorem after_of_label? {t : Token} {label : Option Text} (h : t.label? = some label)
    (mode : LexMode) : mode.after t = mode := by
  cases t <;> first | rfl | cases h

theorem takes_labelsRest {ts rest : List Token} {labels : Option (List Text)}
    (h : labelsRest ts = .ok (labels, rest)) : Takes 0 ts rest := by
  fun_induction labelsRest ts generalizing labels rest with
  | case1 ts =>
    cases h
    exact .close _
  | case2 t ts _ label hlabel =>
    cases h
    exact (Takes.cons_of (by simp) (after_of_label? hlabel _) (Nat.zero_le _)).trans (.close _)
  | case3 => cases h
  | case4 t ts _ label hlabel ih =>
    obtain ⟨more, behind, hmore, h⟩ := Reading.bind_pair_eq_ok.mp h
    cases h
    have hlabel : Takes 0 (t :: .comma :: ts) (.comma :: ts) :=
      .cons_of (by simp) (after_of_label? hlabel _) (Nat.zero_le _)
    exact (hlabel.trans (.comma ts)).trans (ih hmore)
  | case5 => cases h
  | case6 => cases h

theorem takes_labelChoice {allBut : Bool} {ts rest : List Token} {choice : Option LabelChoice}
    (h : labelChoice allBut ts = .ok (choice, rest)) : Takes 1 ts rest := by
  obtain ⟨labels, behind, hlabels, h⟩ := Reading.bind_pair_eq_ok.mp h
  cases h
  unfold labelList at hlabels
  split at hlabels
  · exact (Takes.paren _).trans (takes_labelsRest hlabels)
  · cases hlabels

theorem takes_grouping {ts rest : List Token} {g : Option LabelChoice}
    (h : grouping ts = .ok (some g, rest)) : Takes g.isSome.toNat ts rest := by
  unfold grouping at h
  split at h
  · obtain ⟨choice, behind, hchoice, h⟩ := Reading.bind_pair_eq_ok.mp h
    simp only [Reading.pure_eq_ok, Prod.mk.injEq, Option.map_eq_some_iff] at h
    obtain ⟨⟨c, rfl, rfl⟩, rfl⟩ := h
    exact ((Takes.keyword (by simp) _ _).trans (takes_labelChoice hchoice)).weaken (by simp)
  · cases h
    exact .refl _

/-! ### Modifiers of operators -/

theorem takes_groupModifier {ts rest : List Token} {grouping : Option (Option Grouping)}
    (h : groupModifier ts = .ok (grouping, rest)) : Takes 0 ts rest := by
  unfold groupModifier at h
  split at h
  · next many word us =>
    obtain ⟨labels, behind, hlabels, h⟩ := Reading.bind_pair_eq_ok.mp h
    cases h
    have hopen : Takes 0 (.keyword (.group many) word :: .leftParen :: us) us :=
      ⟨fun h => h.2.2, Nat.le_of_eq (Nat.zero_add _)⟩
    exact hopen.trans (takes_labelsRest hlabels)
  · next many word us hparen =>
    cases h
    apply Takes.cons_of _ rfl (Nat.zero_le _)
    intro _ hhead
    cases rest with
    | nil => cases hhead
    | cons u us =>
      cases hhead
      exact hparen us rfl
  · cases h
    exact .refl _

theorem takes_afterBool (ts : List Token) : Takes 0 ts (afterBool ts).2 := by
  unfold afterBool
  split
  · exact .keyword (by simp) _ _
  · exact .refl _

theorem takes_binaryModifiers {ts rest : List Token} {m : BinaryModifiers}
    (h : binaryModifiers ts = .ok (some m, rest)) : Takes m.matching.isSome.toNat ts rest := by
  have hbool := takes_afterBool ts
  rcases binaryModifiers_cases h with
    ⟨rfl, rfl⟩ | ⟨allBut, word, us, vs, choice, grouping, hafter, hchoice, hgrouping, rfl⟩
  · exact hbool
  · rw [hafter] at hbool
    have hword := Takes.keyword (k := .matching allBut) (by simp) word us
    exact (((hbool.trans hword).trans (takes_labelChoice hchoice)).trans
      (takes_groupModifier hgrouping)).weaken (by simp)

/-! ### Matchers -/

theorem takes_matchers {ts rest : List Token} {ms : Option Matchers}
    (h : matchers ts = .ok (ms, rest)) : Takes 0 ts rest := by
  unfold matchers at h
  split at h
  · next ts =>
    split at h
    · next c behind ms' hdrop _ =>
      cases h
      have hc : c = .rightBrace := by
        have := List.head?_dropWhile_not (· != .rightBrace) ts
        rw [hdrop] at this
        simpa using this
      subst hc
      refine ⟨fun hts => hts.2.of_dropWhile hdrop, ?_⟩
      have hclose : tally (.rightBrace :: rest) = tally rest :=
        tally_sign (by simp [Token.IsGroupWord]) (by simp [Token.weight]) rest
      have happend := List.takeWhile_append_dropWhile (p := (· != .rightBrace)) (l := ts)
      rw [hdrop] at happend
      have hhead : (Token.rightBrace :: rest).head? ≠ some .leftParen := by simp
      have hle := tally_le_append hhead (.leftBrace :: ts.takeWhile (· != .rightBrace))
      rw [List.cons_append, happend, hclose] at hle
      rwa [Nat.zero_add]
    · cases h
  · cases h

end Grammar

/-- Adding matchers to some keeps the form in which they are read. -/
theorem Matchers.Formed.add {ms : Matchers} (h : ms.Formed) (hne : ms.groups ≠ [])
    (alternative : Bool) (m : Matcher) :
    (ms.add alternative m).Formed ∧ (ms.add alternative m).groups ≠ [] := by
  obtain ⟨group, alternatives⟩ := ms
  have hgroup : alternatives = [] → group ≠ [] := by
    rintro rfl rfl
    exact hne rfl
  cases alternative with
  | true =>
    simp only [Matchers.add, if_true]
    refine ⟨.inr ⟨rfl, ?_, ?_⟩, by simp [Matchers.groups]⟩
    · rcases h with rfl | ⟨-, hlength, -⟩
      · simp [hgroup rfl]
      · simp only [List.length_append, List.length_singleton] at hlength ⊢
        omega
    · simp only [List.mem_append, List.mem_singleton]
      rintro g ((hg | hg) | rfl)
      · rcases h with rfl | ⟨-, -, hall⟩
        · cases hg
        · exact hall g hg
      · split at hg
        · cases hg
        · next hnonempty =>
          cases List.mem_singleton.mp hg
          simpa using hnonempty
      · simp
  | false =>
    simp only [Matchers.add, Bool.false_eq_true, if_false]
    split
    · next last hlast =>
      have halternatives := List.dropLast_append_getLast? last hlast
      rcases h with rfl | ⟨rfl, hlength, hall⟩
      · cases hlast
      · rw [← halternatives] at hlength hall
        refine ⟨.inr ⟨rfl, by simpa using hlength, ?_⟩, by simp [Matchers.groups]⟩
        intro g hg
        rcases List.mem_append.mp hg with hg | hg
        · exact hall g (List.mem_append_left _ hg)
        · cases List.mem_singleton.mp hg
          simp
    · exact ⟨.inl rfl, by simp [Matchers.groups]⟩

namespace Grammar

theorem formed_foldl {links : List (Bool × Option Matcher)} {acc : Option Matchers}
    (hacc : ∀ ms ∈ acc, ms.Formed ∧ ms.groups ≠ []) :
    ∀ ms ∈ links.foldl (fun acc (alternative, m) =>
      acc.bind fun ms => m.map fun m => ms.add alternative m) acc, ms.Formed := by
  induction links generalizing acc with
  | nil => exact fun ms hms => (hacc ms hms).1
  | cons link links ih =>
    apply ih
    intro ms hms
    obtain ⟨ms', hms', h⟩ := Option.bind_eq_some_iff.mp hms
    obtain ⟨m, -, rfl⟩ := Option.map_eq_some_iff.mp h
    obtain ⟨hformed, hne⟩ := hacc ms' hms'
    exact hformed.add hne _ m

/-- What is read in braces is one group, or at least two alternatives. -/
theorem formed_matchersOf? {ts : List Token} {ms : Matchers}
    (h : matchersOf? ts = some (some ms)) : ms.Formed := by
  unfold matchersOf? at h
  split at h
  · cases h
    exact .inl rfl
  · next first others _ =>
    obtain ⟨links, hlinks, h⟩ := Option.bind_eq_some_iff.mp h
    rw [List.mapM_cons] at hlinks
    obtain ⟨head, hhead, hlinks⟩ := Option.bind_eq_some_iff.mp hlinks
    obtain ⟨m, -, rfl⟩ := Option.map_eq_some_iff.mp hhead
    obtain ⟨more, -, hlinks⟩ := Option.bind_eq_some_iff.mp hlinks
    cases hlinks
    have hfold := Option.some.inj h
    rw [List.foldl_cons] at hfold
    refine formed_foldl ?_ ms hfold
    intro ms' hms'
    obtain ⟨n, rfl, rfl⟩ := Option.map_eq_some_iff.mp hms'
    exact ⟨.inl rfl, by simp [Matchers.groups, Matchers.add, Matchers.empty]⟩

theorem formed_matchers {ts rest : List Token} {ms : Matchers}
    (h : matchers ts = .ok (some ms, rest)) : ms.Formed := by
  unfold matchers at h
  split at h
  · split at h
    · next hof =>
      cases h
      exact formed_matchersOf? hof
    · cases h
  · cases h

/-! ### Quantities -/

/-- The token of a duration weighs one. -/
theorem weight_of_durationOf {t : Token} {fits : Bool} {d : Duration}
    (h : durationOf t fits = .ok (some d)) :
    t.weight = 1 ∧ ¬ t.IsGroupWord ∧ ∀ mode : LexMode, mode.after t = mode := by
  cases t
  case duration spelling => exact ⟨rfl, by simp [Token.IsGroupWord], fun _ => rfl⟩
  case number spelling =>
    refine ⟨?_, by simp [Token.IsGroupWord], fun _ => rfl⟩
    rw [durationOf] at h
    split at h
    · cases h
    · next v hv =>
      rw [Token.weight, hv]
      split at h
      · next hd =>
        cases v with
        | finite negative rank => rfl
        | nan => cases hd
        | infinite negative => cases hd
      · cases h
      · cases h
  all_goals cases h

theorem weight_negate (v : Double) : v.negate.weight = v.weight := by cases v <;> rfl

theorem weight_of_ofSeconds? {v : Double} {t : Instant} (h : Instant.ofSeconds? v = some t) :
    v.weight = 1 := by
  cases v <;> first | rfl | cases h

/-- The token of a finite number weighs one. -/
theorem takes_number? {t : Token} {v : Double} (h : t.number? = some (some v)) (hv : v.weight = 1)
    (ts : List Token) : Takes 1 (t :: ts) ts := by
  cases t
  case number spelling =>
    apply Takes.cons (by simp [Token.IsGroupWord]) rfl
    simp [Token.weight, Option.some.inj h, hv]
  case duration spelling => exact .cons (by simp [Token.IsGroupWord]) rfl (Nat.le_refl 1)
  all_goals cases h

theorem takes_signed (ts : List Token) : Takes 0 ts (signed ts).2 := by
  unfold signed
  split
  · exact .binaryOp rfl _
  · exact .binaryOp rfl _
  · exact .refl _

end Grammar

end PromQL

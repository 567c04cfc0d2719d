import PromQL.Text.Editing

/-!
# Where a rule edits a text

A text is edited piece by piece: a piece at no place of which the rule proposes an edit stays as it
is, and a piece that an edit stands for is replaced by it. What is behind the piece is edited on its
own in both cases.
-/

namespace PromQL

variable {rule : Text → Option Edit}

@[simp] theorem editAll_nil (rule : Text → Option Edit) : editAll rule [] = [] := rfl

theorem editAll_cons_of_none {c : Char} {cs : Text} (h : rule (c :: cs) = none) :
    editAll rule (c :: cs) = c :: editAll rule cs :=
  editFrom_zero_cons_of_none h

/-- A piece that the rule edits nowhere stays as it is. -/
theorem editAll_append_of_none {t rest : Text}
    (h : ∀ a b, t = a ++ b → b ≠ [] → rule (b ++ rest) = none) :
    editAll rule (t ++ rest) = t ++ editAll rule rest := by
  induction t with
  | nil => rfl
  | cons c cs ih =>
    have hc : rule (c :: (cs ++ rest)) = none := h [] (c :: cs) rfl (List.cons_ne_nil c cs)
    rw [List.cons_append, editAll_cons_of_none hc, ih]
    · rfl
    · intro a b hab hb
      exact h (c :: a) b (by rw [hab]; rfl) hb

/-- A text that the rule edits nowhere stays as it is. -/
theorem editAll_of_none {t : Text} (h : ∀ a b, t = a ++ b → b ≠ [] → rule b = none) :
    editAll rule t = t := by
  have happend : editAll rule (t ++ []) = t ++ editAll rule [] :=
    editAll_append_of_none (by simpa only [List.append_nil] using h)
  simpa only [List.append_nil, editAll_nil] using happend

/-- A piece that an edit stands for is replaced. -/
theorem editAll_append_of_some {edit : Edit} {rest : Text} (hne : edit.source ≠ [])
    (h : rule (edit.source ++ rest) = some edit) :
    editAll rule (edit.source ++ rest) = edit.replacement ++ editAll rule rest := by
  obtain ⟨c, cs, hsource⟩ := List.exists_cons_of_ne_nil hne
  rw [hsource, List.cons_append] at h ⊢
  rw [editAll, editFrom_zero_cons_of_some h, editFrom_eq_drop, hsource]
  simp

/-- A rule that only finds what stands at the start of a text, and never nothing. -/
def IsAnchored (rule : Text → Option Edit) : Prop :=
  ∀ t edit, rule t = some edit → edit.source <+: t ∧ edit.source ≠ []

/-- A property of texts follows the way in which a rule is applied to them: character by character
where the rule finds nothing, and over all that an edit stands for. -/
@[elab_as_elim]
theorem editAll_induction {motive : Text → Prop} (hrule : IsAnchored rule) (nil : motive [])
    (skip : ∀ c cs, rule (c :: cs) = none → motive cs → motive (c :: cs))
    (edited : ∀ edit rest, edit.source ≠ [] → rule (edit.source ++ rest) = some edit →
      motive rest → motive (edit.source ++ rest)) (t : Text) : motive t := by
  induction hn : t.length using Nat.strongRecOn generalizing t with
  | ind n ih =>
    subst hn
    cases t with
    | nil => exact nil
    | cons c cs =>
      cases hr : rule (c :: cs) with
      | none => exact skip c cs hr (ih _ (Nat.lt_succ_self _) cs rfl)
      | some edit =>
        obtain ⟨⟨rest, hrest⟩, hne⟩ := hrule _ edit hr
        have hlength : rest.length < (c :: cs).length := by
          rw [← hrest, List.length_append]
          exact Nat.lt_add_of_pos_left (List.length_pos_iff.mpr hne)
        rw [← hrest] at hr ⊢
        exact edited edit rest hne hr (ih _ hlength rest rfl)

/-- A rule that writes what it finds leaves a text as it is. -/
theorem editAll_eq_self (hrule : IsAnchored rule) {t : Text}
    (h : ∀ a, a <:+ t → ∀ edit, rule a = some edit → edit.replacement = edit.source) :
    editAll rule t = t := by
  induction t using editAll_induction hrule with
  | nil => rfl
  | skip c cs hr ih =>
    rw [editAll_cons_of_none hr, ih fun a ha => h a (ha.trans (List.suffix_cons c cs))]
  | edited edit rest hne hr ih =>
    rw [editAll_append_of_some hne hr, h _ List.suffix_rfl edit hr,
      ih fun a ha => h a (ha.trans (List.suffix_append _ rest))]

/-- A rule that does not look at what is behind a text edits the text on its own. -/
theorem editAll_append_of_local {b : Text} (hlocal : ∀ a, a ≠ [] → rule (a ++ b) = rule a)
    (hrule : IsAnchored rule) (a : Text) :
    editAll rule (a ++ b) = editAll rule a ++ editAll rule b := by
  induction a using editAll_induction hrule with
  | nil => rfl
  | skip c cs hr ih =>
    have hr' : rule (c :: (cs ++ b)) = none := (hlocal _ (List.cons_ne_nil c cs)).trans hr
    rw [editAll_cons_of_none hr, List.cons_append, editAll_cons_of_none hr', ih, List.cons_append]
  | edited edit rest hne hr ih =>
    have hr' : rule (edit.source ++ (rest ++ b)) = some edit := by
      rw [← List.append_assoc, hlocal _ (List.append_ne_nil_of_left_ne_nil hne rest), hr]
    rw [editAll_append_of_some hne hr, List.append_assoc, editAll_append_of_some hne hr', ih,
      List.append_assoc]

/-! ### The edits of a text -/

/-- The edits that a rule makes after leaving out so many characters, each with the text behind. -/
def editsFrom (rule : Text → Option Edit) : Nat → Text → List (Edit × Text)
  | _, [] => []
  | skip + 1, _ :: cs => editsFrom rule skip cs
  | 0, c :: cs =>
    match rule (c :: cs) with
    | some edit =>
      (edit, cs.drop (edit.source.length - 1)) :: editsFrom rule (edit.source.length - 1) cs
    | none => editsFrom rule 0 cs

/-- The edits that a rule makes in a text, from left to right, each with the text behind. -/
def edits (rule : Text → Option Edit) (t : Text) : List (Edit × Text) := editsFrom rule 0 t

theorem edits_cons_of_none {c : Char} {cs : Text} (h : rule (c :: cs) = none) :
    edits rule (c :: cs) = edits rule cs := by
  simp [edits, editsFrom, h]

theorem editsFrom_eq_drop (rule : Text → Option Edit) (skip : Nat) (t : Text) :
    editsFrom rule skip t = edits rule (t.drop skip) := by
  induction t generalizing skip with
  | nil => cases skip <;> rfl
  | cons c cs ih =>
    cases skip with
    | zero => rfl
    | succ skip => exact ih skip

theorem edits_append_of_some {edit : Edit} {rest : Text} (hne : edit.source ≠ [])
    (h : rule (edit.source ++ rest) = some edit) :
    edits rule (edit.source ++ rest) = (edit, rest) :: edits rule rest := by
  obtain ⟨c, cs, hsource⟩ := List.exists_cons_of_ne_nil hne
  rw [hsource, List.cons_append] at h ⊢
  have hdrop : (cs ++ rest).drop (edit.source.length - 1) = rest := by simp [hsource]
  have hfirst : edits rule (c :: (cs ++ rest)) =
      (edit, (cs ++ rest).drop (edit.source.length - 1)) ::
        editsFrom rule (edit.source.length - 1) (cs ++ rest) := by
    simp [edits, editsFrom, h]
  rw [hfirst, editsFrom_eq_drop, hdrop]

/-- What an edit writes stands in the edited text, with the text behind it edited on its own. -/
theorem suffix_editAll_of_mem_edits (hrule : IsAnchored rule) {t : Text} {e : Edit × Text}
    (he : e ∈ edits rule t) : e.1.replacement ++ editAll rule e.2 <:+ editAll rule t := by
  induction t using editAll_induction hrule with
  | nil => cases he
  | skip c cs hr ih =>
    rw [edits_cons_of_none hr] at he
    rw [editAll_cons_of_none hr]
    exact (ih he).trans (List.suffix_cons c _)
  | edited edit rest hne hr ih =>
    rw [edits_append_of_some hne hr] at he
    rw [editAll_append_of_some hne hr]
    rcases List.mem_cons.mp he with rfl | he
    · exact List.suffix_rfl
    · exact (ih he).trans (List.suffix_append _ _)

/-- Either the rule finds nothing, or there is a first edit, and the text is edited on its own
behind it. -/
theorem exists_first_edit (hrule : IsAnchored rule) (t : Text) :
    (∀ s, s <:+ t → s ≠ [] → rule s = none) ∨ ∃ (front rest : Text) (edit : Edit),
      t = front ++ (edit.source ++ rest) ∧ rule (edit.source ++ rest) = some edit ∧
      (∀ s, s <:+ front → s ≠ [] → rule (s ++ (edit.source ++ rest)) = none) ∧
      (edit, rest) ∈ edits rule t ∧
      editAll rule t = front ++ (edit.replacement ++ editAll rule rest) := by
  induction t with
  | nil => exact .inl fun s hs hne => absurd (List.suffix_nil.mp hs) hne
  | cons c cs ih =>
    cases hr : rule (c :: cs) with
    | none =>
      rcases ih with hnone | ⟨front, rest, edit, rfl, hsome, hfront, hmem, hall⟩
      · refine .inl fun s hs hne => ?_
        rcases List.suffix_cons_iff.mp hs with rfl | hs
        · exact hr
        · exact hnone s hs hne
      · refine .inr ⟨c :: front, rest, edit, rfl, hsome, fun s hs hne => ?_, ?_, ?_⟩
        · rcases List.suffix_cons_iff.mp hs with rfl | hs
          · exact hr
          · exact hfront s hs hne
        · rwa [edits_cons_of_none hr]
        · rw [editAll_cons_of_none hr, hall, List.cons_append]
    | some edit =>
      obtain ⟨⟨rest, hrest⟩, hne⟩ := hrule _ edit hr
      rw [← hrest] at hr ⊢
      refine .inr ⟨[], rest, edit, rfl, hr, fun s hs hne => ?_, ?_, ?_⟩
      · exact absurd (List.suffix_nil.mp hs) hne
      · rw [edits_append_of_some hne hr]
        exact List.mem_cons_self
      · rw [editAll_append_of_some hne hr, List.nil_append]

section Reading

variable {α : Type} {read? : Text → Option α} {edit : α → Edit} {t : Text}

/-- A text stays as it is if nothing is read in it. -/
theorem editAll_of_read?_eq_none (h : ∀ s, s <:+ t → read? s = none) :
    editAll (fun s => (read? s).map edit) t = t :=
  editAll_of_none fun a b hab _ => by rw [h b ⟨a, hab.symm⟩, Option.map_none]

/-- Either nothing is read in a text, or what is read first is edited, and the text is edited on its
own behind it. -/
theorem exists_first_read (hnil : read? [] = none)
    (hrule : IsAnchored fun s => (read? s).map edit) (t : Text) :
    (∀ s, s <:+ t → read? s = none) ∨ ∃ (front rest : Text) (a : α),
      t = front ++ ((edit a).source ++ rest) ∧ read? ((edit a).source ++ rest) = some a ∧
      (∀ s, s <:+ front → s ≠ [] → read? (s ++ ((edit a).source ++ rest)) = none) ∧
      (edit a, rest) ∈ edits (fun s => (read? s).map edit) t ∧
      editAll (fun s => (read? s).map edit) t =
        front ++ ((edit a).replacement ++ editAll (fun s => (read? s).map edit) rest) := by
  rcases exists_first_edit hrule t with hnone | ⟨front, rest, e, rfl, hedit, hfront, hmem, hall⟩
  · refine .inl fun s hs => ?_
    cases s with
    | nil => exact hnil
    | cons c cs => exact Option.map_eq_none_iff.mp (hnone _ hs (List.cons_ne_nil c cs))
  · obtain ⟨a, hread, rfl⟩ := Option.map_eq_some_iff.mp hedit
    exact .inr ⟨front, rest, a, rfl, hread,
      fun s hs hne => Option.map_eq_none_iff.mp (hfront s hs hne), hmem, hall⟩

/-- Every edit of a text has been read somewhere in it. -/
theorem exists_read_of_mem_edits (hrule : IsAnchored fun s => (read? s).map edit)
    {e : Edit × Text} (he : e ∈ edits (fun s => (read? s).map edit) t) :
    ∃ a, e.1 = edit a ∧ (edit a).source ++ e.2 <:+ t ∧
      read? ((edit a).source ++ e.2) = some a := by
  induction t using editAll_induction hrule with
  | nil => cases he
  | skip c cs hr ih =>
    rw [edits_cons_of_none hr] at he
    obtain ⟨a, hedit, hsuffix, hread⟩ := ih he
    exact ⟨a, hedit, hsuffix.trans (List.suffix_cons c cs), hread⟩
  | edited e' rest hne hr ih =>
    rw [edits_append_of_some hne hr] at he
    rcases List.mem_cons.mp he with rfl | he
    · obtain ⟨a, hread, rfl⟩ := Option.map_eq_some_iff.mp hr
      exact ⟨a, rfl, List.suffix_rfl, hread⟩
    · obtain ⟨a, hedit, hsuffix, hread⟩ := ih he
      exact ⟨a, hedit, hsuffix.trans (List.suffix_append _ _), hread⟩

end Reading

end PromQL

import PromQL.Proofs.Template.Boundaries

/-!
# Placeholders that agree

Two kinds of placeholders with the same stem that agree on the places in a text put the same
variables back. Which places are in a text can be seen from its variables: where a place has a
variable that is longer than all variables of the text, the place is not in it.
-/

namespace PromQL

/-! ### Variables of parts -/

theorem variablesOf_cons_suffix (c : Char) (text : Text) :
    variablesOf text <:+ variablesOf (c :: text) := by
  simp only [variablesOf, Segment.ofText, Segment.split, List.filterMap_cons, Segment.asVariable?]
  split_ifs
  · exact List.suffix_rfl
  · exact List.suffix_cons _ _
  · exact List.suffix_rfl

theorem variablesOf_append_suffix (front text : Text) :
    variablesOf text <:+ variablesOf (front ++ text) := by
  induction front with
  | nil => exact List.suffix_rfl
  | cons c front ih => exact ih.trans (variablesOf_cons_suffix c _)

theorem Segment.split_append_of_forall {name : Text} (hname : ∀ c ∈ name, isWordChar c)
    (text : Text) : (split (name ++ text)).1 = name ++ (split text).1 := by
  induction name with
  | nil => rfl
  | cons c name ih =>
    obtain ⟨hc, hname⟩ := List.forall_mem_cons.mp hname
    simp only [List.cons_append, split, hc, if_true, ih hname]

/-- A variable in front of a text is there, or has become longer. -/
theorem exists_mem_variablesOf {name : Text} (hne : name ≠ []) (hname : ∀ c ∈ name, isWordChar c)
    (text : Text) : ∃ v ∈ variablesOf ('$' :: name ++ text), name.length < v.length := by
  have hrun := Segment.split_append_of_forall hname text
  have hnonempty : (name ++ (Segment.split text).1).isEmpty = false :=
    List.isEmpty_eq_false_iff.mpr (List.append_ne_nil_of_left_ne_nil hne _)
  have hsplit : Segment.split ('$' :: name ++ text) =
      ([], .dollar (name ++ (Segment.split text).1) :: (Segment.split (name ++ text)).2) := by
    have hdollar : isWordChar '$' = false := rfl
    simp only [List.cons_append, Segment.split, hdollar, hrun, hnonempty]
    rfl
  refine ⟨'$' :: (name ++ (Segment.split text).1), ?_, ?_⟩
  · rw [variablesOf, Segment.ofText, hsplit]
    exact List.mem_cons_self
  · rw [List.length_cons, List.length_append]
    omega

namespace Placeholders

variable {m : Placeholders} {n : Nat}

/-! ### One pass -/

/-- Without variables, the pass changes nothing. -/
theorem unmask_eq_editAll (hstem : m.stem = stemOf n) (text : Text) :
    m.unmask text = editAll m.unmasking? text := by
  unfold unmask
  split_ifs with hempty
  · refine (editAll_eq_self (isAnchored_unmasking? hstem) fun a _ edit hedit => ?_).symm
    obtain ⟨rest, -, hedit⟩ := Option.bind_eq_some_iff.mp hedit
    cases hedit
    have hget : m.get? (m.stem ++ rest.takeWhile Char.isDigit) = none := by
      simp [get?, List.isEmpty_iff.mp hempty]
    rw [hget]
    rfl
  · rfl

/-- What stands for the digits behind a stem. -/
def restoring (m : Placeholders) (digits : Text) : Text :=
  ((index? digits).bind fun i => m.occurrences[i]?).getD (m.stem ++ digits)

theorem unmask_stem_append (hstem : m.stem = stemOf n) (rest : Text) :
    m.unmask (m.stem ++ rest) = m.restoring (rest.takeWhile Char.isDigit) ++
      m.unmask (rest.dropWhile Char.isDigit) := by
  have hedit : m.unmasking? (m.stem ++ rest) = some
      ⟨m.stem ++ rest.takeWhile Char.isDigit, m.restoring (rest.takeWhile Char.isDigit)⟩ := by
    simp [unmasking?, restoring, get?, isPrefixOf?_append]
  have hsplit : m.stem ++ rest =
      (m.stem ++ rest.takeWhile Char.isDigit) ++ rest.dropWhile Char.isDigit := by
    rw [List.append_assoc, List.takeWhile_append_dropWhile]
  have hne : m.stem ++ rest.takeWhile Char.isDigit ≠ [] := by simp [hstem, stemOf_eq_cons]
  rw [unmask_eq_editAll hstem, unmask_eq_editAll hstem]
  rw [hsplit] at hedit ⊢
  exact @editAll_append_of_some _ ⟨_, _⟩ _ hne hedit

theorem unmask_cons (hstem : m.stem = stemOf n) {c : Char} {cs : Text}
    (h : ¬ stemOf n <+: c :: cs) : m.unmask (c :: cs) = c :: m.unmask cs := by
  rw [unmask_eq_editAll hstem, unmask_eq_editAll hstem,
    editAll_cons_of_none (unmasking?_eq_none (hstem ▸ h))]

theorem unmask_nil (hstem : m.stem = stemOf n) : m.unmask [] = [] := by
  rw [unmask_eq_editAll hstem, editAll_nil]

/-- What is in front of a separator is unmasked on its own, and so is what is behind it. -/
theorem unmask_append_cons (hstem : m.stem = stemOf n) {c : Char} (hc : IsSeparator c)
    (a b : Text) : m.unmask (a ++ c :: b) = m.unmask a ++ c :: m.unmask b := by
  have hend : IsNameEnd (c :: b) := by
    rintro d ⟨⟩
    exact hc.1
  rw [unmask_append hstem hend, unmask_cons hstem (not_prefix_of_head hc.isFixed.1 b)]

/-! ### Agreement -/

/-- Placeholders that agree wherever others have no variable of more than so many characters put the
same variables back in a text in which the others put back no such variable. -/
theorem unmask_congr {vs vs' us : List Text} {bound : Nat} (h : ∀ i : Nat, us[i]? = vs[i]? ∧
      us[i]? = vs'[i]? ∨ ∃ name, us[i]? = some ('$' :: name) ∧ bound ≤ name.length ∧ name ≠ [] ∧
        ∀ c ∈ name, isWordChar c)
    {text : Text} (htext : ∀ v ∈ variablesOf ((Placeholders.mk (stemOf n) us).unmask text),
      v.length ≤ bound) :
    (Placeholders.mk (stemOf n) vs).unmask text = (Placeholders.mk (stemOf n) vs').unmask text := by
  induction hlength : text.length using Nat.strongRecOn generalizing text with
  | ind length ih =>
    subst hlength
    cases text with
    | nil => rw [unmask_nil rfl, unmask_nil rfl]
    | cons c cs =>
      by_cases hpre : stemOf n <+: c :: cs
      · obtain ⟨rest, hrest⟩ := hpre
        have hstem : ∀ us, (Placeholders.mk (stemOf n) us).unmask (c :: cs) =
            (Placeholders.mk (stemOf n) us).restoring (rest.takeWhile Char.isDigit) ++
              (Placeholders.mk (stemOf n) us).unmask (rest.dropWhile Char.isDigit) := fun us => by
          rw [← hrest]
          exact unmask_stem_append (m := ⟨stemOf n, us⟩) rfl rest
        have hshorter : (rest.dropWhile Char.isDigit).length < (c :: cs).length := by
          rw [← hrest, List.length_append, length_stemOf]
          have := (List.dropWhile_suffix (l := rest) Char.isDigit).length_le
          omega
        rw [hstem] at htext ⊢
        rw [hstem, ih _ hshorter (fun v hv => htext v ((variablesOf_append_suffix _ _).subset hv))
          rfl]
        congr 1
        unfold restoring
        cases hindex : index? (rest.takeWhile Char.isDigit) with
        | none => rfl
        | some i =>
          rcases h i with ⟨hvs, hvs'⟩ | ⟨name, hname, hbound, hne, hword⟩
          · simp only [Option.bind_some, ← hvs, ← hvs']
          · simp only [restoring, hindex, Option.bind_some, hname, Option.getD_some] at htext
            obtain ⟨v, hv, hlong⟩ := exists_mem_variablesOf hne hword
              ((Placeholders.mk (stemOf n) us).unmask (rest.dropWhile Char.isDigit))
            have := htext v hv
            omega
      · rw [unmask_cons rfl hpre] at htext ⊢
        rw [unmask_cons rfl hpre, ih cs.length (by simp)
          (fun v hv => htext v ((variablesOf_cons_suffix c _).subset hv)) rfl]

end Placeholders

end PromQL

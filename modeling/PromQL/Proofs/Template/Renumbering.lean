import PromQL.Proofs.Template.Boundaries

/-!
# Texts with other placeholders

A text may be masked with one numbering of its variables or with another. Both forms have the same
characters but for the numbers. They are unmasked to the same text, and two texts are ordered alike
in both forms, if they differ before a variable starts in both of them: up to there, nothing but the
stem is compared.
-/

namespace PromQL

/-- A dollar sign outside of variables is followed by no name. -/
theorem Segment.eq_nil_of_mem_split {text run : Text}
    (h : .literal ('$' :: run) ∈ (split text).2) : run = [] := by
  induction text with
  | nil => cases h
  | cons c cs ih =>
    simp only [split] at h
    split_ifs at h with hc hdollar
    · exact ih h
    · rcases List.mem_cons.mp h with heq | h
      · cases heq
      · exact ih h
    · rcases List.mem_cons.mp h with heq | h
      · cases heq
        simpa using hdollar
      · exact ih h

/-! ### Two numberings -/

/-- A text, and two forms of it in which placeholders with the same stem stand for its variables. -/
inductive Forms (n : Nat) (vs vs' : List Text) : Text → Text → Text → Prop
  | nil : Forms n vs vs' [] [] []
  /-- A dollar sign stands for itself where no name follows. -/
  | char {c : Char} {x a a' : Text} (hdollar : c = '$' → IsNameEnd x)
      (hstem : ¬ Placeholders.stemOf n <+: c :: a) (hstem' : ¬ Placeholders.stemOf n <+: c :: a')
      (h : Forms n vs vs' x a a') : Forms n vs vs' (c :: x) (c :: a) (c :: a')
  | dollar {name x a a' : Text} {i i' : Nat} (hi : vs[i]? = some ('$' :: name))
      (hi' : vs'[i']? = some ('$' :: name)) (hne : name ≠ []) (hname : ∀ c ∈ name, isWordChar c)
      (hend : IsNameEnd x) (h : Forms n vs vs' x a a') :
      Forms n vs vs' ('$' :: name ++ x) (Placeholders.key (Placeholders.stemOf n) i ++ a)
        (Placeholders.key (Placeholders.stemOf n) i' ++ a')

namespace Forms

open Placeholders

variable {n : Nat} {vs vs' : List Text} {x y a b a' b' : Text}

theorem symm (h : Forms n vs vs' x a a') : Forms n vs' vs x a' a := by
  induction h with
  | nil => exact .nil
  | char hdollar hstem hstem' _ ih => exact .char hdollar hstem' hstem ih
  | dollar hi hi' hne hname hend _ ih => exact .dollar hi' hi hne hname hend ih

/-- One form of a text stands beside any other one. -/
theorem merge {us us' : List Text} (h : Forms n vs us x a b) (h' : Forms n us' vs' x a' b') :
    Forms n vs vs' x a b' := by
  induction h generalizing a' b' with
  | nil =>
    cases h'
    exact .nil
  | char hdollar hstem _ _ ih =>
    generalize hx : _ :: _ = x at h'
    cases h' with
    | nil => cases hx
    | char _ _ hstem' h' =>
      cases hx
      exact .char hdollar hstem hstem' (ih h')
    | dollar _ _ hne hname =>
      rw [List.cons_append] at hx
      obtain ⟨rfl, rfl⟩ := List.cons.inj hx
      obtain ⟨c, name, rfl⟩ := List.exists_cons_of_ne_nil hne
      exact absurd (hname c List.mem_cons_self) (hdollar rfl c rfl)
  | @dollar name x _ _ _ _ hi _ hne hname hend _ ih =>
    generalize hx : '$' :: name ++ x = y at h'
    cases h' with
    | nil => cases hx
    | char hdollar =>
      obtain ⟨rfl, rfl⟩ := List.cons.inj hx
      obtain ⟨c, name, rfl⟩ := List.exists_cons_of_ne_nil hne
      exact absurd (hname c List.mem_cons_self) (hdollar rfl c rfl)
    | dollar _ hi' _ hname' hend' h' =>
      rw [List.cons_append, List.cons_append, List.cons.injEq] at hx
      have hspan := Lexeme.spanOf_of_forall hname hend
      rw [hx.2, Lexeme.spanOf_of_forall hname' hend'] at hspan
      cases hspan
      exact .dollar hi hi' hne hname hend (ih h')

/-! ### Unmasking -/

theorem key_append (i : Nat) (a : Text) : key (stemOf n) i ++ a =
    'V' :: ('A' :: 'R' :: List.replicate n '_' ++ (decimal i ++ a)) := by
  rw [key, stemOf_eq_cons]
  simp

/-- Where no name goes on in a text, no number goes on in its forms. -/
theorem not_isDigit_head (h : Forms n vs vs' x a a') (hend : IsNameEnd x) :
    ∀ c ∈ a.head?, ¬ c.isDigit := by
  cases h with
  | nil => nofun
  | char => exact hend.not_isDigit
  | dollar =>
    rw [key_append]
    rintro _ ⟨⟩
    decide

theorem unmask_eq (h : Forms n vs vs' x a a') (hcount : vs.length ≤ wordCount) :
    (Placeholders.mk (stemOf n) vs).unmask a = x := by
  unfold unmask
  split_ifs with hempty
  · obtain rfl : vs = [] := List.isEmpty_iff.mp hempty
    clear hempty hcount
    induction h with
    | nil => rfl
    | char _ _ _ _ ih => rw [ih]
    | dollar hi => cases hi
  · clear hempty
    induction h with
    | nil => rfl
    | char _ hstem _ _ ih => rw [editAll_cons_of_none (unmasking?_eq_none hstem), ih]
    | dollar hi _ _ _ hend h ih =>
      have hplace := (List.getElem?_eq_some_iff.mp hi).1
      rw [editAll_key (m := ⟨stemOf n, vs⟩) rfl hi (hplace.trans_le hcount)
        (h.not_isDigit_head hend), ih]

/-! ### Masking -/

/-- Other text in front. -/
theorem literal {t : Text} (hdollar : '$' ∉ t) (ht : ¬ stemOf n <:+: t) (ha : ∀ c ∈ a.head?, ¬ isStemTail c)
    (ha' : ∀ c ∈ a'.head?, ¬ isStemTail c) (h : Forms n vs vs' x a a') :
    Forms n vs vs' (t ++ x) (t ++ a) (t ++ a') := by
  induction t with
  | nil => exact h
  | cons c t ih =>
    rw [List.mem_cons, not_or] at hdollar
    have hnot : ∀ {a}, (∀ c ∈ a.head?, ¬ isStemTail c) → ¬ stemOf n <+: c :: (t ++ a) :=
      fun ha hpre => ht (stemOf_prefix_of_append (List.cons_ne_nil c t) ha hpre).isInfix
    exact .char (fun hc => absurd hc.symm hdollar.1) (hnot ha) (hnot ha')
      (ih hdollar.2 fun hin => ht (hin.trans (List.suffix_cons c t).isInfix))

theorem not_mem_of_forall_isWordChar {t : Text} (h : ∀ c ∈ t, isWordChar c) : '$' ∉ t := fun hc =>
  absurd (h _ hc) (by decide)

theorem of_segments {segments : List Segment} (hcut : ∀ s ∈ segments, s.IsCut)
    (halone : ∀ run, .literal ('$' :: run) ∈ segments → run = [])
    (hfresh : ∀ s ∈ segments, ¬ stemOf n <:+: s.text) {i i' : Nat}
    (hdrop : segments.filterMap Segment.asVariable? <+: vs.drop i)
    (hdrop' : segments.filterMap Segment.asVariable? <+: vs'.drop i') :
    Forms n vs vs' (segments.flatMap Segment.text) (fill (stemOf n) i segments)
      (fill (stemOf n) i' segments) := by
  induction segments generalizing i i' with
  | nil => exact .nil
  | cons s segments ih =>
    obtain ⟨hs, hbehind⟩ := List.forall_mem_cons.mp hcut
    obtain ⟨hfresh, hothers⟩ := List.forall_mem_cons.mp hfresh
    have hrest := fun run hrun => halone run (List.mem_cons_of_mem s hrun)
    have hend : IsNameEnd (segments.flatMap Segment.text) := by
      cases segments with
      | nil => exact isNameEnd_nil
      | cons s segments =>
        cases hbehind s List.mem_cons_self with
        | literal hc =>
          rintro _ ⟨⟩
          exact hc
        | dollar =>
          rintro _ ⟨⟩
          decide
    have hhead : ∀ j, ∀ c ∈ (fill (stemOf n) j segments).head?, ¬ isStemTail c :=
      fun j c hc => (head_fill hbehind c hc).1
    cases hs with
    | @literal c run hc hrun =>
      have hforms := ih hbehind hrest hothers hdrop hdrop'
      by_cases hdollar : c = '$'
      · subst hdollar
        obtain rfl := halone run List.mem_cons_self
        have hnot : ∀ a, ¬ stemOf n <+: '$' :: a := fun a hpre => by
          rw [stemOf_eq_cons] at hpre
          exact absurd (List.cons_prefix_cons.mp hpre).1 (by decide)
        exact .char (fun _ => hend) (hnot _) (hnot _) hforms
      · refine hforms.literal (fun hmem => ?_) hfresh (hhead i) (hhead i')
        rcases List.mem_cons.mp hmem with hmem | hmem
        · exact hdollar hmem.symm
        · exact not_mem_of_forall_isWordChar hrun hmem
    | @dollar name hne hname =>
      have hnext : ∀ {us : List Text} {j : Nat},
          ('$' :: name) :: segments.filterMap Segment.asVariable? <+: us.drop j →
          us[j]? = some ('$' :: name) ∧
            segments.filterMap Segment.asVariable? <+: us.drop (j + 1) := by
        rintro us j ⟨more, hmore⟩
        rw [← List.head?_drop, ← List.tail_drop, ← hmore]
        exact ⟨rfl, more, rfl⟩
      obtain ⟨hi, hdrop⟩ := hnext hdrop
      obtain ⟨hi', hdrop'⟩ := hnext hdrop'
      exact .dollar hi hi' hne hname hend (ih hbehind hrest hothers hdrop hdrop')

/-- A text without the stem, with its variables at two places. -/
theorem of_maskFrom (hfresh : ¬ stemOf n <:+: x) {i i' : Nat} (hdrop : variablesOf x <+: vs.drop i)
    (hdrop' : variablesOf x <+: vs'.drop i') :
    Forms n vs vs' x (maskFrom (stemOf n) i x) (maskFrom (stemOf n) i' x) := by
  obtain ⟨hword, hcut⟩ := Segment.split_spec x
  have hnot : ∀ s ∈ Segment.ofText x, ¬ stemOf n <:+: s.text := fun s hs hin =>
    hfresh (hin.trans (Segment.text_infix_of_mem_ofText hs))
  obtain ⟨hfirst, hothers⟩ := List.forall_mem_cons.mp hnot
  have hhead : ∀ j, ∀ c ∈ (fill (stemOf n) j (Segment.split x).2).head?, ¬ isStemTail c :=
    fun j c hc => (head_fill hcut c hc).1
  have hforms := of_segments hcut (fun _ => Segment.eq_nil_of_mem_split) hothers hdrop hdrop'
  have hwhole := hforms.literal (not_mem_of_forall_isWordChar hword) hfirst (hhead i) (hhead i')
  rwa [Segment.split_text] at hwhole

end Forms

/-! ### Order -/

/-- Two texts differ before a variable starts in both of them at the same place. -/
def IsSettled : Text → Text → Prop
  | c :: cs, d :: ds => c = d → (c = '$' → IsNameEnd cs ∨ IsNameEnd ds) ∧ IsSettled cs ds
  | _, _ => True

theorem isSettled_nil (x : Text) : IsSettled x [] := by
  cases x <;> trivial

instance : DecidableRel IsSettled := go
where
  go : (x y : Text) → Decidable (IsSettled x y)
    | c :: cs, d :: ds =>
      have : Decidable (IsSettled cs ds) := go cs ds
      inferInstanceAs (Decidable (c = d → (c = '$' →
        (∀ c ∈ cs.head?, ¬ isWordChar c) ∨ ∀ c ∈ ds.head?, ¬ isWordChar c) ∧ IsSettled cs ds))
    | [], _ => .isTrue trivial
    | _ :: _, [] => .isTrue trivial

theorem compare_cons (c d : Char) (s t : Text) :
    compare (c :: s) (d :: t) = (compare c d).then (compare s t) :=
  List.compareLex_cons_cons

namespace Forms

open Placeholders

variable {n : Nat} {vs vs' : List Text} {x y a b a' b' : Text}

theorem compare_cons_of_ne {c d : Char} (h : c ≠ d) (s t : Text) :
    compare (c :: s) (d :: t) = compare c d := by
  rw [compare_cons]
  cases hcd : compare c d with
  | eq => exact absurd (Std.LawfulEqCmp.eq_of_compare hcd) h
  | lt | gt => rfl

/-- What is behind the characters of a stem is not compared with a text that does not start with
them. -/
theorem compare_append {t : Text} (ht : ∀ c ∈ t, c ≠ 'V') (h : Forms n vs vs' x a a')
    (ha : ¬ t <+: a) (ha' : ¬ t <+: a') (s s' : Text) :
    compare (t ++ s) a = compare (t ++ s') a' := by
  induction t generalizing x a a' with
  | nil => exact absurd List.nil_prefix ha
  | cons k t ih =>
    obtain ⟨hk, ht⟩ := List.forall_mem_cons.mp ht
    cases h with
    | nil => rfl
    | @char c x a a' _ _ _ h =>
      by_cases hc : k = c
      · subst hc
        rw [List.cons_append, List.cons_append, compare_cons, compare_cons]
        rw [List.cons_prefix_cons, and_iff_right rfl] at ha ha'
        rw [ih ht h ha ha']
      · rw [List.cons_append, List.cons_append, compare_cons_of_ne hc, compare_cons_of_ne hc]
    | dollar =>
      rw [List.cons_append, List.cons_append, key_append, key_append, compare_cons_of_ne hk,
        compare_cons_of_ne hk]

/-- A number is not compared with a text that does not start with the stem. -/
theorem compare_key (h : Forms n vs vs' x a a') (ha : ¬ stemOf n <+: a) (ha' : ¬ stemOf n <+: a')
    (i i' : Nat) (s s' : Text) :
    compare (key (stemOf n) i ++ s) a = compare (key (stemOf n) i' ++ s') a' := by
  have htail : ∀ c ∈ 'A' :: 'R' :: List.replicate n '_', c ≠ 'V' := by
    simp only [List.mem_cons, List.mem_replicate]
    rintro c (rfl | rfl | ⟨-, rfl⟩) <;> decide
  rw [stemOf_eq_cons] at ha ha'
  rw [key_append, key_append]
  cases h with
  | nil => rfl
  | @char c x a a' _ _ _ h =>
    by_cases hc : 'V' = c
    · subst hc
      rw [List.cons_prefix_cons, and_iff_right rfl] at ha ha'
      rw [compare_cons, compare_cons, compare_append htail h ha ha']
    · rw [compare_cons_of_ne hc, compare_cons_of_ne hc]
  | dollar =>
    rw [key, stemOf_eq_cons, List.append_assoc] at ha
    exact absurd (List.prefix_append _ _) ha

/-- Two texts that differ before a variable starts in both of them are ordered alike in both
forms. -/
theorem compare_eq (hx : Forms n vs vs' x a a') (hy : Forms n vs vs' y b b')
    (h : IsSettled x y) : compare a b = compare a' b' := by
  induction hx generalizing y b b' with
  | nil =>
    cases hy with
    | nil | char => rfl
    | dollar =>
      rw [key_append, key_append]
      rfl
  | @char c x a a' hdollar hstem hstem' hx ih =>
    cases hy with
    | nil => rfl
    | @char d y b b' _ _ _ hy =>
      rw [compare_cons, compare_cons]
      by_cases hcd : c = d
      · rw [ih hy (h hcd).2]
      · rw [← compare_cons, compare_cons_of_ne hcd, ← compare_cons, compare_cons_of_ne hcd]
    | @dollar name y b b' i i' =>
      have hswap : ∀ s t : Text, compare s t = (compare t s).swap := fun _ _ =>
        Std.OrientedCmp.eq_swap
      rw [hswap (c :: a), hswap (c :: a')]
      rw [compare_key (.char hdollar hstem hstem' hx) hstem hstem' i i' b b']
  | @dollar name x a a' i i' hi hi' hne hname hend hx _ =>
    cases hy with
    | nil =>
      rw [key_append, key_append]
      rfl
    | @char d y b b' hdollar hstem hstem' hy =>
      exact compare_key (.char hdollar hstem hstem' hy) hstem hstem' i i' a a'
    | @dollar name' y b b' j j' hj hj' hne' hname' =>
      obtain ⟨c, cs, rfl⟩ := List.exists_cons_of_ne_nil hne
      obtain ⟨d, ds, rfl⟩ := List.exists_cons_of_ne_nil hne'
      rcases (h rfl).1 rfl with hnot | hnot
      · exact absurd (hname c List.mem_cons_self) (hnot c rfl)
      · exact absurd (hname' d List.mem_cons_self) (hnot d rfl)

end Forms

end PromQL

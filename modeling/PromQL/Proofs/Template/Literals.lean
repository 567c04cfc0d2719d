import PromQL.Proofs.Template.Escapes
import PromQL.Proofs.Template.Renumbering

/-!
# Literals with other placeholders

What a string stands for, and what is written for it, has the same forms as the string, as long as
its escapes stand for separators: such a character neither starts a stem nor goes on with one. So
labels and values are written with the same variables, whichever numbers these have.
-/

namespace PromQL

namespace Forms

open Placeholders

variable {n : Nat} {vs vs' : List Text} {x y a b a' b' : Text}

/-! ### Strings -/

section Strings

variable {mark : Char} {state : EscapeState} {t v : Text}

/-- A text that starts with a name character or a dollar sign is the end of no escape. -/
theorem escaped_cons_of_not_escape {c : Char} (hc : c = 'V' ∨ c = '$') (hmark : mark ≠ c)
    (hstate : state ≠ .plain) (cs : Text) : escaped mark state (c :: cs) = [] := by
  cases state with
  | plain => exact absurd rfl hstate
  | started =>
    rw [escaped, if_neg hmark.symm]
    rcases hc with rfl | rfl <;> rfl
  | digits base left value =>
    have hnone : digit? base c = none := by
      refine Option.eq_none_iff_forall_ne_some.mpr fun d hd => ?_
      rcases hc with rfl | rfl
      · exact (ne_of_digit? hd).1 rfl
      · exact (ne_of_digit? hd).2 rfl
    rw [escaped, hnone]

theorem unescape?_cons_of_not_escape (hmark : mark ≠ 'V' ∧ mark ≠ '$') {c : Char}
    (hc : c = 'V' ∨ c = '$') (hstate : state ≠ .plain) (cs : Text) :
    unescape? mark state (c :: cs) = none := by
  cases escapeStep hmark hstate c with
  | ends _ hne => exact absurd hc (not_or.mpr hne)
  | continues _ _ hne => exact absurd hc (not_or.mpr hne)
  | breaks hread => exact hread cs

/-- A character that is no backslash and no line break stands for itself in a string. -/
def IsLiteral (c : Char) : Prop := c ≠ '\\' ∧ c ≠ '\n'

theorem escaped_append (ht : ∀ c ∈ t, IsLiteral c) (a : Text) :
    escaped mark .plain (t ++ a) = escaped mark .plain a := by
  induction t with
  | nil => rfl
  | cons c t ih =>
    obtain ⟨hc, ht⟩ := List.forall_mem_cons.mp ht
    rw [List.cons_append, escaped, if_neg hc.1, ih ht]

theorem unescape?_append (ht : ∀ c ∈ t, IsLiteral c) (a : Text) :
    unescape? mark .plain (t ++ a) = (unescape? mark .plain a).map (t ++ ·) := by
  induction t with
  | nil => exact Option.map_id'.symm
  | cons c t ih =>
    obtain ⟨hc, ht⟩ := List.forall_mem_cons.mp ht
    rw [List.cons_append, unescape?_plain hc.2 hc.1, ih ht, Option.map_map]
    rfl

theorem isLiteral_of_isWordChar {c : Char} (h : isWordChar c) : IsLiteral c := by
  constructor <;> rintro rfl <;> exact absurd h (by decide)

theorem isLiteral_of_mem_key {i : Nat} {c : Char} (h : c ∈ key (stemOf n) i) : IsLiteral c :=
  isLiteral_of_isWordChar (isWordChar_of_mem_key h)

theorem isLiteral_of_mem_dollar {name : Text} (hname : ∀ c ∈ name, isWordChar c) :
    ∀ c ∈ '$' :: name, IsLiteral c :=
  List.forall_mem_cons.mpr
    ⟨⟨by decide, by decide⟩, fun c hc => isLiteral_of_isWordChar (hname c hc)⟩

/-- The forms of a string have its escapes. -/
theorem escaped_eq (hmark : mark ≠ 'V' ∧ mark ≠ '$') (h : Forms n vs vs' x a a') :
    escaped mark state a = escaped mark state x := by
  induction h generalizing state with
  | nil => rfl
  | @char c x a a' _ _ _ _ ih => cases state <;> simp only [escaped, ih]
  | @dollar name x a a' i i' _ _ _ hname _ _ ih =>
    by_cases hstate : state = .plain
    · subst hstate
      rw [escaped_append fun c => isLiteral_of_mem_key,
        escaped_append (isLiteral_of_mem_dollar hname), ih]
    · rw [key_append, escaped_cons_of_not_escape (.inl rfl) hmark.1 hstate, List.cons_append,
        escaped_cons_of_not_escape (.inr rfl) hmark.2 hstate]

/-- A string starts with what it stands for, or with an escape for a separator. -/
theorem unescape?_cases (hmark : mark ≠ 'V' ∧ mark ≠ '$') (h : unescape? mark .plain a = some v)
    (hescaped : ∀ c ∈ escaped mark .plain a, IsSeparator c) :
    a = [] ∧ v = [] ∨
      (∃ c cs rest, a = c :: cs ∧ v = c :: rest ∧ unescape? mark .plain cs = some rest ∧
        ∀ c ∈ escaped mark .plain cs, IsSeparator c) ∨
      ∃ cs d rest, a = '\\' :: cs ∧ v = d :: rest ∧ IsSeparator d := by
  cases a with
  | nil =>
    cases h
    exact .inl ⟨rfl, rfl⟩
  | cons c cs =>
    rw [unescape?] at h
    split_ifs at h with hn hback
    · subst hback
      obtain ⟨d, rest, rfl, hd, -⟩ : (Placeholders.mk (stemOf 0) []).Keeps cs v .started :=
        keeps_unescape? rfl hmark h hescaped
      exact .inr (.inr ⟨cs, d, rest, rfl, rfl, hd⟩)
    · obtain ⟨rest, hrest, rfl⟩ := Option.map_eq_some_iff.mp h
      rw [escaped, if_neg hback] at hescaped
      exact .inr (.inl ⟨c, cs, rest, rfl, rfl, hrest, hescaped⟩)

/-- Name characters in front of what a string stands for are in front of the string. -/
theorem prefix_of_unescape? (hmark : mark ≠ 'V' ∧ mark ≠ '$') (h : unescape? mark .plain a = some v)
    (hescaped : ∀ c ∈ escaped mark .plain a, IsSeparator c) (ht : ∀ c ∈ t, isWordChar c)
    (hpre : t <+: v) : t <+: a := by
  induction t generalizing a v with
  | nil => exact List.nil_prefix
  | cons k t ih =>
    obtain ⟨hk, ht⟩ := List.forall_mem_cons.mp ht
    rcases unescape?_cases hmark h hescaped with
      ⟨rfl, rfl⟩ | ⟨c, cs, rest, rfl, rfl, hrest, hothers⟩ | ⟨cs, d, rest, rfl, rfl, hd⟩
    · exact hpre
    · obtain ⟨rfl, hbehind⟩ := List.cons_prefix_cons.mp hpre
      exact List.cons_prefix_cons.mpr ⟨rfl, ih hrest hothers ht hbehind⟩
    · obtain ⟨rfl, -⟩ := List.cons_prefix_cons.mp hpre
      exact absurd hk hd.1

theorem isNameEnd_of_unescape? (hmark : mark ≠ 'V' ∧ mark ≠ '$')
    (h : unescape? mark .plain a = some v) (hescaped : ∀ c ∈ escaped mark .plain a, IsSeparator c)
    (hend : IsNameEnd a) : IsNameEnd v := by
  rcases unescape?_cases hmark h hescaped with
    ⟨rfl, rfl⟩ | ⟨c, cs, rest, rfl, rfl, -⟩ | ⟨cs, d, rest, rfl, rfl, hd⟩
  · exact hend
  · rintro _ ⟨⟩
    exact hend c rfl
  · rintro _ ⟨⟩
    exact hd.1

theorem isWordChar_of_mem_stemOf {c : Char} (h : c ∈ stemOf n) : isWordChar c := by
  have hkey : c ∈ key (stemOf n) 0 := List.mem_append_left _ h
  exact isWordChar_of_mem_key hkey

/-- Where no stem starts in a string, none starts in what it stands for. -/
theorem not_prefix_of_unescape? (hmark : mark ≠ 'V' ∧ mark ≠ '$') {c : Char}
    (h : unescape? mark .plain a = some v) (hescaped : ∀ c ∈ escaped mark .plain a, IsSeparator c)
    (hnot : ¬ stemOf n <+: c :: a) : ¬ stemOf n <+: c :: v := by
  intro hpre
  have hword : ∀ c ∈ stemOf n, isWordChar c := fun _ => isWordChar_of_mem_stemOf
  rw [stemOf_eq_cons] at hnot hpre hword
  obtain ⟨rfl, htail⟩ := List.cons_prefix_cons.mp hpre
  exact hnot (List.cons_prefix_cons.mpr
    ⟨rfl, prefix_of_unescape? hmark h hescaped (fun c hc => hword c (.tail _ hc)) htail⟩)

/-- Both forms of a string can be read, as forms of what it stands for. -/
def ReadsForms (n : Nat) (vs vs' : List Text) (y : Text) (read read' : Option Text) : Prop :=
  ∃ v v', read = some v ∧ read' = some v' ∧ Forms n vs vs' y v v'

/-- A character in front that does not start a stem. -/
theorem ReadsForms.map_cons {c : Char} {read read' : Option Text} (hdollar : c = '$' → IsNameEnd y)
    (hnot : ∀ v ∈ read, ¬ stemOf n <+: c :: v) (hnot' : ∀ v ∈ read', ¬ stemOf n <+: c :: v)
    (h : ReadsForms n vs vs' y read read') :
    ReadsForms n vs vs' (c :: y) (read.map (c :: ·)) (read'.map (c :: ·)) := by
  obtain ⟨v, v', rfl, rfl, hforms⟩ := h
  exact ⟨c :: v, c :: v', rfl, rfl, .char hdollar (hnot v rfl) (hnot' v' rfl) hforms⟩

/-- The character that an escape stands for in front of what is behind the escape. -/
theorem readsForms_of_escapeEnd {c : Char} (hc : c ≠ 'V' ∧ c ≠ '$')
    (hx : (unescape? mark .plain x).map (c :: ·) = some y)
    (h : ∀ y, unescape? mark .plain x = some y →
      ReadsForms n vs vs' y (unescape? mark .plain a) (unescape? mark .plain a')) :
    ReadsForms n vs vs' y ((unescape? mark .plain a).map (c :: ·))
      ((unescape? mark .plain a').map (c :: ·)) := by
  obtain ⟨y, hy, rfl⟩ := Option.map_eq_some_iff.mp hx
  exact (h y hy).map_cons (fun heq => absurd heq hc.2) (fun v _ => not_prefix_of_head hc.1 v)
    fun v _ => not_prefix_of_head hc.1 v

/-- Both forms of a string can be read if it can be read itself. -/
theorem readsForms_unescape? (hmark : mark ≠ 'V' ∧ mark ≠ '$') (h : Forms n vs vs' x a a')
    (hx : unescape? mark state x = some y)
    (hescaped : ∀ c ∈ escaped mark state x, IsSeparator c) :
    ReadsForms n vs vs' y (unescape? mark state a) (unescape? mark state a') := by
  induction h generalizing state y with
  | nil =>
    cases state with
    | plain =>
      cases hx
      exact ⟨[], [], rfl, rfl, .nil⟩
    | _ => cases hx
  | @char c x a a' hdollar hstem hstem' h ih =>
    by_cases hstate : state = .plain
    · subst hstate
      simp only [unescape?, escaped] at hx hescaped ⊢
      split_ifs at hx hescaped ⊢
      · exact ih hx hescaped
      · obtain ⟨y, hy, rfl⟩ := Option.map_eq_some_iff.mp hx
        refine (ih hy hescaped).map_cons
          (fun hc => isNameEnd_of_unescape? hmark hy hescaped (hdollar hc)) (fun v hv => ?_)
          fun v hv => ?_
        · exact not_prefix_of_unescape? hmark hv (h.escaped_eq hmark ▸ hescaped) hstem
        · exact not_prefix_of_unescape? hmark hv (h.symm.escaped_eq hmark ▸ hescaped) hstem'
    · cases escapeStep hmark hstate c with
      | ends d _ hread hends =>
        rw [hread] at hx
        rw [hends, List.forall_mem_cons] at hescaped
        rw [hread, hread]
        exact readsForms_of_escapeEnd hescaped.1.isFixed hx fun y hy => ih hy hescaped.2
      | continues next _ _ hread hends =>
        rw [hread] at hx
        rw [hends] at hescaped
        rw [hread, hread]
        exact ih hx hescaped
      | breaks hread =>
        rw [hread] at hx
        cases hx
  | @dollar name x a a' i i' hi hi' hne hname hend h ih =>
    have hdollar := isLiteral_of_mem_dollar hname
    by_cases hstate : state = .plain
    · subst hstate
      rw [unescape?_append hdollar] at hx
      rw [escaped_append hdollar] at hescaped
      obtain ⟨y, hy, rfl⟩ := Option.map_eq_some_iff.mp hx
      obtain ⟨v, v', hv, hv', hforms⟩ := ih hy hescaped
      rw [unescape?_append fun c => isLiteral_of_mem_key, hv,
        unescape?_append fun c => isLiteral_of_mem_key, hv']
      have hend := isNameEnd_of_unescape? hmark hy hescaped hend
      exact ⟨_, _, rfl, rfl, .dollar hi hi' hne hname hend hforms⟩
    · rw [List.cons_append, unescape?_cons_of_not_escape hmark (.inr rfl) hstate] at hx
      cases hx

/-! ### Literals -/

theorem mem_or_isWordChar {c : Char} (h : Forms n vs vs' x a a') (hc : c ∈ a) :
    c ∈ x ∨ isWordChar c := by
  induction h with
  | nil => exact .inl hc
  | char _ _ _ _ ih =>
    rcases List.mem_cons.mp hc with rfl | hc
    · exact .inl List.mem_cons_self
    · exact (ih hc).imp_left (List.mem_cons_of_mem _)
  | dollar _ _ _ _ _ _ ih =>
    rcases List.mem_append.mp hc with hc | hc
    · exact .inr (isWordChar_of_mem_key hc)
    · exact (ih hc).imp_left (List.mem_append_right _)

theorem readsForms_unquote? (hmark : mark ≠ 'V' ∧ mark ≠ '$') (h : Forms n vs vs' x a a')
    (hx : unquote? mark x = some y)
    (hescaped : mark ≠ backtick → ∀ c ∈ escaped mark .plain x, IsSeparator c) :
    ReadsForms n vs vs' y (unquote? mark a) (unquote? mark a') := by
  unfold unquote? at hx ⊢
  by_cases hraw : mark = backtick
  · simp only [if_pos hraw, List.contains_iff_mem] at hx ⊢
    split_ifs at hx with hmem
    cases hx
    have hnot : ∀ {us us' a a'}, Forms n us us' x a a' → backtick ∉ a := fun h hc =>
      (h.mem_or_isWordChar hc).elim hmem (by decide)
    rw [if_neg (hnot h), if_neg (hnot h.symm)]
    exact ⟨a, a', rfl, rfl, h⟩
  · simp only [if_neg hraw] at hx ⊢
    exact h.readsForms_unescape? hmark hx (hescaped hraw)

theorem escape_of_isWordChar {c : Char} (h : isWordChar c ∨ c = '$') : escape c = [c] :=
  (escape_cases c).resolve_right fun ⟨hc, _⟩ => h.elim hc.1 hc.2

theorem flatMap_escape_eq_self {t : Text} (h : ∀ c ∈ t, isWordChar c ∨ c = '$') :
    t.flatMap escape = t := by
  induction t with
  | nil => rfl
  | cons c t ih =>
    obtain ⟨hc, ht⟩ := List.forall_mem_cons.mp h
    rw [List.flatMap_cons, escape_of_isWordChar hc, ih ht]
    rfl

/-- Name characters in front of a written string are in front of what it is written for. -/
theorem prefix_of_flatMap_escape {rest : Text} (hrest : IsNameEnd rest)
    (ht : ∀ c ∈ t, isWordChar c) (hpre : t <+: v.flatMap escape ++ rest) : t <+: v := by
  induction v generalizing t with
  | nil =>
    cases t with
    | nil => exact List.nil_prefix
    | cons k t =>
      obtain ⟨more, rfl⟩ := hpre
      exact absurd (ht k List.mem_cons_self) (hrest k rfl)
  | cons c v ih =>
    cases t with
    | nil => exact List.nil_prefix
    | cons k t =>
      obtain ⟨hk, ht⟩ := List.forall_mem_cons.mp ht
      rw [List.flatMap_cons] at hpre
      rcases escape_cases c with hescape | ⟨-, code, -, hescape⟩
      · rw [hescape] at hpre
        obtain ⟨rfl, hbehind⟩ := List.cons_prefix_cons.mp hpre
        exact List.cons_prefix_cons.mpr ⟨rfl, ih ht hbehind⟩
      · rw [hescape] at hpre
        obtain ⟨rfl, -⟩ := List.cons_prefix_cons.mp hpre
        exact absurd hk (by decide)

theorem isNameEnd_flatMap_escape {rest : Text} (hrest : IsNameEnd rest) (hend : IsNameEnd v) :
    IsNameEnd (v.flatMap escape ++ rest) := by
  cases v with
  | nil => exact hrest
  | cons c v =>
    rw [List.flatMap_cons]
    rcases escape_cases c with hescape | ⟨-, code, -, hescape⟩
    · rw [hescape]
      rintro _ ⟨⟩
      exact hend c rfl
    · rw [hescape]
      rintro _ ⟨⟩
      decide

/-- Characters in front that start neither a placeholder nor a variable. -/
theorem fixed {t : Text} (ht : IsFixed t) (h : Forms n vs vs' x a a') :
    Forms n vs vs' (t ++ x) (t ++ a) (t ++ a') := by
  induction t with
  | nil => exact h
  | cons c t ih =>
    obtain ⟨hc, ht⟩ := List.forall_mem_cons.mp ht
    exact .char (fun heq => absurd heq hc.2) (not_prefix_of_head hc.1 _)
      (not_prefix_of_head hc.1 _) (ih ht)

theorem flatMap_escape {rest : Text} (hrest : IsNameEnd rest) (hfixed : IsFixed rest)
    (h : Forms n vs vs' x a a') :
    Forms n vs vs' (x.flatMap escape ++ rest) (a.flatMap escape ++ rest)
      (a'.flatMap escape ++ rest) := by
  induction h with
  | nil =>
    have hrest : Forms n vs vs' (rest ++ []) (rest ++ []) (rest ++ []) := .fixed hfixed .nil
    rwa [List.append_nil] at hrest
  | @char c x a a' hdollar hstem hstem' _ ih =>
    rw [List.flatMap_cons, List.flatMap_cons, List.flatMap_cons]
    rcases escape_cases c with hescape | ⟨-, code, hcode, hescape⟩
    · have hword : ∀ c ∈ stemOf n, isWordChar c := fun _ => isWordChar_of_mem_stemOf
      have hnot : ∀ {a : Text}, ¬ stemOf n <+: c :: a →
          ¬ stemOf n <+: c :: (a.flatMap escape ++ rest) := by
        intro a hstem hpre
        refine hstem (prefix_of_flatMap_escape hrest hword ?_)
        rwa [List.flatMap_cons, hescape]
      rw [hescape]
      exact .char (fun hc => isNameEnd_flatMap_escape hrest (hdollar hc)) (hnot hstem) (hnot hstem') ih
    · rw [hescape, List.append_assoc, List.append_assoc, List.append_assoc]
      exact .fixed (List.forall_mem_cons.mpr ⟨by decide, hcode⟩) ih
  | @dollar name x a a' i i' hi hi' hne hname hend _ ih =>
    have hkey : ∀ i, (key (stemOf n) i).flatMap escape = key (stemOf n) i := fun i =>
      flatMap_escape_eq_self fun c hc => .inl (isWordChar_of_mem_key hc)
    have hvariable : ('$' :: name).flatMap escape = '$' :: name :=
      flatMap_escape_eq_self (List.forall_mem_cons.mpr ⟨.inr rfl, fun c hc => .inl (hname c hc)⟩)
    simp only [List.flatMap_append, hkey, hvariable, List.append_assoc]
    exact .dollar hi hi' hne hname (isNameEnd_flatMap_escape hrest hend) ih

theorem quote_forms (h : Forms n vs vs' x a a') : Forms n vs vs' (quote x) (quote a) (quote a') :=
  .fixed (t := ['"']) (by decide) (h.flatMap_escape (by rintro _ ⟨⟩; decide) (by decide))

end Strings

/-! ### Names -/

theorem all_isWordChar_eq (h : Forms n vs vs' x a a') :
    a.all isWordChar = a'.all isWordChar := by
  have hkey : ∀ i, (key (stemOf n) i).all isWordChar = true := fun i =>
    List.all_eq_true.mpr fun _ => isWordChar_of_mem_key
  induction h with
  | nil => rfl
  | char _ _ _ _ ih => rw [List.all_cons, List.all_cons, ih]
  | dollar _ _ _ _ _ _ ih => rw [List.all_append, List.all_append, hkey, hkey, ih]

/-- Both forms of a label are written bare, or both in quotes. -/
theorem isBareLabel_eq (h : Forms n vs vs' x a a') : isBareLabel a = isBareLabel a' := by
  have hall := h.all_isWordChar_eq
  cases h with
  | nil => rfl
  | char _ _ _ h => rw [isBareLabel, isBareLabel, isName_cons, isName_cons, h.all_isWordChar_eq]
  | dollar =>
    rw [key_append, key_append, List.all_cons, List.all_cons] at hall
    rw [key_append, key_append]
    exact hall

/-- A label is written with the same variables in both forms. -/
theorem unmask_labelText (h : Forms n vs vs' x a a') (hcount : vs.length ≤ wordCount)
    (hcount' : vs'.length ≤ wordCount) :
    (Placeholders.mk (stemOf n) vs).unmask (labelText a) =
      (Placeholders.mk (stemOf n) vs').unmask (labelText a') := by
  unfold labelText
  rw [← h.isBareLabel_eq]
  split
  · rw [h.unmask_eq hcount, h.symm.unmask_eq hcount']
  · rw [h.quote_forms.unmask_eq hcount, h.quote_forms.symm.unmask_eq hcount']

/-- And so is a value. -/
theorem unmask_quote (h : Forms n vs vs' x a a') (hcount : vs.length ≤ wordCount)
    (hcount' : vs'.length ≤ wordCount) :
    (Placeholders.mk (stemOf n) vs).unmask (quote a) =
      (Placeholders.mk (stemOf n) vs').unmask (quote a') := by
  rw [h.quote_forms.unmask_eq hcount, h.quote_forms.symm.unmask_eq hcount']

end Forms

end PromQL

import Mathlib
import PromQL.Proofs.Template.Rearrangement
import PromQL.Proofs.Template.Separation

/-!
# What masking replaces

A text is cut at its variables in one way only: each of them is a dollar sign with the longest name
behind it, and no variable is in what stands between them. Masking writes a placeholder in the place
of each variable, numbered from left to right, and leaves the rest as it is.
-/

namespace PromQL

/-- A text cut at its variables: what is in front of the first one, and each variable by its name
with what stands behind it. -/
structure Template where
  front : Text
  occurrences : List (Text × Text)
  deriving DecidableEq, Repr

namespace Template

/-- Variables with what stands behind each of them, as they are written. -/
def textOf (vs : List (Text × Text)) : Text :=
  vs.flatMap fun (name, behind) => '$' :: name ++ behind

/-- The whole text. -/
def text (t : Template) : Text := t.front ++ textOf t.occurrences

/-- What is written in the place of variables, the first of which is in the given place. -/
def maskedFrom (stem : Text) (index : Nat) (vs : List (Text × Text)) : Text :=
  (vs.zipIdx index).flatMap fun ((_, behind), i) => stem ++ decimal i ++ behind

/-- The text with placeholders for its variables. -/
def masked (stem : Text) (t : Template) : Text := t.front ++ maskedFrom stem 0 t.occurrences

/-- The placeholders with the variables that they stand for. -/
def pairs (stem : Text) (t : Template) : List (Text × Text) :=
  t.occurrences.zipIdx.map fun ((name, _), i) => (stem ++ decimal i, '$' :: name)

/-- A text in which no dollar sign is in front of a character of a name. -/
def Plain (t : Text) : Prop := ∀ c, isWordChar c → ¬ ['$', c] <:+: t

/-- Every variable has a name that goes on as far as it can, and there are no others. -/
structure IsCut (t : Template) : Prop where
  front : Plain t.front
  name_ne_nil : ∀ v ∈ t.occurrences, v.1 ≠ []
  name : ∀ v ∈ t.occurrences, ∀ c ∈ v.1, isWordChar c
  behind_head : ∀ v ∈ t.occurrences, ∀ c ∈ v.2.head?, ¬ isWordChar c
  behind : ∀ v ∈ t.occurrences, Plain v.2

variable {name behind front a b : Text} {vs ws : List (Text × Text)}

@[simp] theorem textOf_nil : textOf [] = [] := rfl

@[simp] theorem textOf_cons (name behind : Text) (vs : List (Text × Text)) :
    textOf ((name, behind) :: vs) = '$' :: name ++ (behind ++ textOf vs) := by
  simp [textOf]

@[simp] theorem maskedFrom_nil (stem : Text) (index : Nat) : maskedFrom stem index [] = [] := rfl

@[simp] theorem maskedFrom_cons (stem name behind : Text) (index : Nat)
    (vs : List (Text × Text)) : maskedFrom stem index ((name, behind) :: vs) =
      stem ++ decimal index ++ (behind ++ maskedFrom stem (index + 1) vs) := by
  simp [maskedFrom, List.zipIdx_cons]

/-! ### Texts without variables -/

theorem plain_nil : Plain [] := by
  intro c _ h
  simp at h

theorem plain_cons_iff {c : Char} {cs : Text} :
    Plain (c :: cs) ↔ (c = '$' → ∀ d ∈ cs.head?, ¬ isWordChar d) ∧ Plain cs := by
  constructor
  · intro h
    refine ⟨?_, fun d hd hin => h d hd (hin.trans (List.suffix_cons c cs).isInfix)⟩
    rintro rfl d hd hword
    cases cs with
    | nil => cases hd
    | cons e es =>
      cases hd
      exact h d hword (List.prefix_append ['$', d] es).isInfix
  · rintro ⟨hhead, htail⟩ d hd hin
    rcases List.infix_cons_iff.mp hin with ⟨rest, hrest⟩ | hin
    · obtain ⟨rfl, hcs⟩ := List.cons.inj hrest
      exact hhead rfl d (by rw [← hcs]; rfl) hd
    · exact htail d hd hin

/-- Characters of names may be written in front. -/
theorem Plain.append_of_forall (h : Plain b) (ha : ∀ c ∈ a, isWordChar c) : Plain (a ++ b) := by
  induction a with
  | nil => exact h
  | cons c cs ih =>
    obtain ⟨hc, hcs⟩ := List.forall_mem_cons.mp ha
    refine plain_cons_iff.mpr ⟨?_, ih hcs⟩
    rintro rfl
    exact absurd hc (by decide)

/-! ### A text is cut in one way -/

/-- In front of a variable, a text without variables ends at its dollar sign. -/
theorem eq_of_append_dollar {x y : Text} (ha : Plain a) (hb : Plain b) {c d : Char}
    (hc : isWordChar c) (hd : isWordChar d) (h : a ++ '$' :: c :: x = b ++ '$' :: d :: y) :
    a = b := by
  have hcut : ∀ {a e x y : Text} {c d : Char}, Plain (a ++ e) → isWordChar c →
      '$' :: c :: x = e ++ '$' :: d :: y → e = [] := by
    intro a e x y c d hplain hc h
    match e with
    | [] => rfl
    | [e] =>
      -- the name would start with the other dollar sign
      cases h
      exact absurd hc (by decide)
    | e :: e' :: es =>
      cases h
      exact absurd ⟨a, es, by simp⟩ (hplain c hc)
  rcases List.append_eq_append_iff.mp h with ⟨e, rfl, he⟩ | ⟨e, rfl, he⟩
  · rw [hcut hb hc he, List.append_nil]
  · rw [hcut ha hd he, List.append_nil]

/-- A name ends where the text goes on with a character that no name has. -/
theorem eq_of_append_name {x y : Text} (ha : ∀ c ∈ a, isWordChar c) (hb : ∀ c ∈ b, isWordChar c)
    (hx : ∀ c ∈ x.head?, ¬ isWordChar c) (hy : ∀ c ∈ y.head?, ¬ isWordChar c)
    (h : a ++ x = b ++ y) : a = b ∧ x = y := by
  have hcut : ∀ {e x y : Text}, (∀ c ∈ e, isWordChar c) → (∀ c ∈ x.head?, ¬ isWordChar c) →
      x = e ++ y → e = [] := by
    intro e x y he hx h
    cases e with
    | nil => rfl
    | cons c cs => exact absurd (he c List.mem_cons_self) (hx c (by rw [h]; rfl))
  rcases List.append_eq_append_iff.mp h with ⟨e, rfl, he⟩ | ⟨e, rfl, he⟩
  · have hnil := hcut (fun c hc => hb c (List.mem_append_right a hc)) hx he
    subst hnil
    exact ⟨(List.append_nil a).symm, he⟩
  · have hnil := hcut (fun c hc => ha c (List.mem_append_right b hc)) hy he
    subst hnil
    exact ⟨List.append_nil b, he.symm⟩

theorem not_isWordChar_head_textOf (hbehind : ∀ c ∈ behind.head?, ¬ isWordChar c) :
    ∀ c ∈ (behind ++ textOf vs).head?, ¬ isWordChar c := by
  cases behind with
  | cons d ds => exact hbehind
  | nil =>
    cases vs with
    | nil => nofun
    | cons v vs =>
      obtain ⟨name, behind⟩ := v
      rw [List.nil_append, textOf_cons]
      rintro _ ⟨⟩
      decide

theorem isCut_nil (hfront : Plain front) : IsCut ⟨front, []⟩ where
  front := hfront
  name_ne_nil _ hv := absurd hv List.not_mem_nil
  name _ hv := absurd hv List.not_mem_nil
  behind_head _ hv := absurd hv List.not_mem_nil
  behind _ hv := absurd hv List.not_mem_nil

theorem IsCut.cons_iff : IsCut ⟨front, (name, behind) :: vs⟩ ↔
    Plain front ∧ name ≠ [] ∧ (∀ c ∈ name, isWordChar c) ∧
      (∀ c ∈ behind.head?, ¬ isWordChar c) ∧ IsCut ⟨behind, vs⟩ := by
  constructor
  · rintro ⟨hfront, hne, hname, hhead, hbehind⟩
    obtain ⟨hne, hnes⟩ := List.forall_mem_cons.mp hne
    obtain ⟨hname, hnames⟩ := List.forall_mem_cons.mp hname
    obtain ⟨hhead, hheads⟩ := List.forall_mem_cons.mp hhead
    obtain ⟨hbehind, hbehinds⟩ := List.forall_mem_cons.mp hbehind
    exact ⟨hfront, hne, hname, hhead, hbehind, hnes, hnames, hheads, hbehinds⟩
  · rintro ⟨hfront, hne, hname, hhead, hbehind, hnes, hnames, hheads, hbehinds⟩
    exact ⟨hfront, List.forall_mem_cons.mpr ⟨hne, hnes⟩, List.forall_mem_cons.mpr ⟨hname, hnames⟩,
      List.forall_mem_cons.mpr ⟨hhead, hheads⟩, List.forall_mem_cons.mpr ⟨hbehind, hbehinds⟩⟩

/-- A text without variables is not one with a variable. -/
theorem IsCut.ne_append_textOf (ha : Plain a) (h : IsCut ⟨front, (name, behind) :: vs⟩) :
    a ≠ front ++ textOf ((name, behind) :: vs) := by
  obtain ⟨-, hne, hname, -⟩ := IsCut.cons_iff.mp h
  obtain ⟨c, cs, rfl⟩ := List.exists_cons_of_ne_nil hne
  rintro rfl
  exact ha c (hname c List.mem_cons_self) ⟨front, cs ++ (behind ++ textOf vs), by simp⟩

theorem IsCut.eq_of_text_eq {t u : Template} (ht : t.IsCut) (hu : u.IsCut) (h : t.text = u.text) :
    t = u := by
  obtain ⟨front, vs⟩ := t
  obtain ⟨front', ws⟩ := u
  simp only [text] at h
  induction vs generalizing front front' ws with
  | nil =>
    cases ws with
    | nil => simpa using h
    | cons w ws => exact absurd (by simpa using h) (IsCut.ne_append_textOf ht.front hu)
  | cons v vs ih =>
    cases ws with
    | nil => exact absurd (by simpa using h.symm) (IsCut.ne_append_textOf hu.front ht)
    | cons w ws =>
      obtain ⟨name, behind⟩ := v
      obtain ⟨name', behind'⟩ := w
      obtain ⟨hfront, hne, hname, hhead, hbehind⟩ := IsCut.cons_iff.mp ht
      obtain ⟨hfront', hne', hname', hhead', hbehind'⟩ := IsCut.cons_iff.mp hu
      obtain rfl : front = front' := by
        obtain ⟨c, cs, rfl⟩ := List.exists_cons_of_ne_nil hne
        obtain ⟨d, ds, rfl⟩ := List.exists_cons_of_ne_nil hne'
        rw [textOf_cons, textOf_cons] at h
        exact eq_of_append_dollar hfront hfront' (hname c List.mem_cons_self)
          (hname' d List.mem_cons_self) h
      have hrest := List.append_cancel_left h
      rw [textOf_cons, textOf_cons, List.cons_append, List.cons_append] at hrest
      obtain ⟨rfl, hbehinds⟩ := eq_of_append_name hname hname' (not_isWordChar_head_textOf hhead)
        (not_isWordChar_head_textOf hhead') (List.cons.inj hrest).2
      obtain ⟨rfl, rfl⟩ := Template.mk.inj (ih behind hbehind behind' ws hbehind' hbehinds)
      rfl

/-! ### The segments of a text -/

/-- Segments as they are cut at variables. -/
def ofSegments : List Segment → Template
  | [] => ⟨[], []⟩
  | .literal t :: segments => ⟨t ++ (ofSegments segments).front, (ofSegments segments).occurrences⟩
  | .dollar name :: segments =>
    ⟨[], (name, (ofSegments segments).front) :: (ofSegments segments).occurrences⟩

theorem text_ofSegments (segments : List Segment) :
    (ofSegments segments).text = segments.flatMap Segment.text := by
  induction segments with
  | nil => rfl
  | cons s segments ih =>
    cases s with
    | literal t => simp [← ih, ofSegments, text]
    | dollar name => simp [← ih, ofSegments, text]

theorem fill_eq_maskedFrom (stem : Text) (index : Nat) (segments : List Segment) :
    Placeholders.fill stem index segments =
      (ofSegments segments).front ++ maskedFrom stem index (ofSegments segments).occurrences := by
  induction segments generalizing index with
  | nil => rfl
  | cons s segments ih =>
    cases s with
    | literal t => simp [ofSegments, ih]
    | dollar name => simp [ofSegments, ih, Placeholders.key]

theorem filterMap_asVariable? (segments : List Segment) :
    segments.filterMap Segment.asVariable? =
      (ofSegments segments).occurrences.map fun (name, _) => '$' :: name := by
  induction segments with
  | nil => rfl
  | cons s segments ih =>
    cases s with
    | literal t => exact ih
    | dollar name => exact congrArg _ ih

/-- Names in a text go on as far as they can, and there is no variable between the segments. -/
theorem isCut_ofSegments_split (text : Text) :
    (∀ c ∈ (ofSegments (Segment.split text).2).front.head?, ¬ isWordChar c) ∧
      (ofSegments (Segment.split text).2).IsCut := by
  induction text with
  | nil => exact ⟨by simp [ofSegments, Segment.split], isCut_nil plain_nil⟩
  | cons c cs ih =>
    obtain ⟨hhead, hcut⟩ := ih
    obtain ⟨hrun, -⟩ := Segment.split_spec cs
    simp only [Segment.split]
    split_ifs with hc hdollar
    · exact ⟨hhead, hcut⟩
    · have hne : (Segment.split cs).1 ≠ [] := by
        simp only [Bool.and_eq_true, Bool.not_eq_true', List.isEmpty_eq_false_iff] at hdollar
        exact hdollar.2
      exact ⟨by simp [ofSegments], IsCut.cons_iff.mpr ⟨plain_nil, hne, hrun, hhead, hcut⟩⟩
    · refine ⟨by rintro _ ⟨⟩; exact hc, ?_, hcut.2, hcut.3, hcut.4, hcut.5⟩
      refine plain_cons_iff.mpr ⟨?_, hcut.front.append_of_forall hrun⟩
      rintro rfl
      -- the run behind the dollar sign is empty
      have hnil : (Segment.split cs).1 = [] := by simpa using hdollar
      rw [hnil]
      exact hhead

/-- A text cut at its variables. -/
def ofText (text : Text) : Template := ofSegments (Segment.ofText text)

theorem text_ofText (text : Text) : (ofText text).text = text := by
  rw [ofText, text_ofSegments, Segment.flatMap_text_ofText]

theorem isCut_ofText (text : Text) : (ofText text).IsCut := by
  obtain ⟨-, hcut⟩ := isCut_ofSegments_split text
  exact ⟨hcut.front.append_of_forall (Segment.split_spec text).1, hcut.2, hcut.3, hcut.4, hcut.5⟩

end Template

/-! ### Placeholders -/

namespace Placeholders

theorem key_injective (stem : Text) : Function.Injective (key stem) := by
  intro i j h
  have hdecimal : decimal i = decimal j := List.append_cancel_left h
  have hnumber := natural?_decimal i
  rw [hdecimal, natural?_decimal] at hnumber
  exact (Option.some.inj hnumber).symm

theorem mask_eq_masked (text : Text) :
    mask text = (Template.ofText text).masked (ofText text).stem :=
  Template.fill_eq_maskedFrom (freshStem text) 0 (Segment.ofText text)

theorem pairs_ofText (text : Text) :
    (ofText text).pairs = (Template.ofText text).pairs (ofText text).stem := by
  have hvariables : (ofText text).occurrences =
      (Template.ofText text).occurrences.map fun (name, _) => '$' :: name :=
    Template.filterMap_asVariable? (Segment.ofText text)
  rw [pairs, Template.pairs, hvariables, List.zipIdx_map, List.map_map]
  rfl

theorem nodup_keys (m : Placeholders) : (m.pairs.map Prod.fst).Nodup := by
  have hkeys : m.pairs.map Prod.fst = (m.occurrences.zipIdx.map Prod.snd).map (key m.stem) := by
    rw [pairs, List.map_map, List.map_map]
    rfl
  rw [hkeys]
  exact (List.nodup_zipIdx_map_snd m.occurrences).map (key_injective m.stem)

/-- Masking replaces exactly the variables of a text, each of which goes on as far as it can, by the
shortest stem that does not occur in the text and the place of the variable. -/
theorem mask_template (text : Text) :
    ∃ t : Template, t.IsCut ∧ t.text = text ∧ (∀ u : Template, u.IsCut → u.text = text → u = t) ∧
      mask text = t.masked (ofText text).stem ∧
      (ofText text).pairs = t.pairs (ofText text).stem ∧
      ((ofText text).pairs.map Prod.fst).Nodup ∧
      (∀ p ∈ (ofText text).pairs, ¬ p.1 <:+: text) ∧
      ∃ n, (ofText text).stem = stemOf n ∧ ¬ stemOf n <:+: text ∧ ∀ k < n, stemOf k <:+: text := by
  obtain ⟨n, hstem, hfresh⟩ := freshStem_spec text
  have hcut := Template.isCut_ofText text
  have htext := Template.text_ofText text
  refine ⟨Template.ofText text, hcut, htext, fun u hu hut => hu.eq_of_text_eq hcut ?_,
    mask_eq_masked text, pairs_ofText text, nodup_keys (ofText text), ?_, n, hstem, hfresh,
    fun k hk => freshStem_least hstem hk⟩
  · rw [hut, htext]
  · rintro ⟨k, v⟩ hp hin
    obtain ⟨i, -, rfl⟩ := mem_pairs.mp hp
    have hstem : (ofText text).stem = stemOf n := hstem
    rw [hstem] at hin
    exact hfresh ((List.prefix_append (stemOf n) (decimal i)).isInfix.trans hin)

end Placeholders

end PromQL

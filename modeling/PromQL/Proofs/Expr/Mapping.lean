import PromQL.Expr.Typing
import PromQL.Proofs.Expr.Canonical
import PromQL.Proofs.Expr.Rereading
import PromQL.Proofs.Label.Order

/-!
# Changes keep the shape of an expression

A change of the parts of an expression leaves its nodes alone, and with them its type, its level and
how it starts. If the parts still fit, the expression makes sense as before. Both are the case for
the canonical form and for cutting durations.
-/

namespace PromQL

namespace Expr

variable (f : Change)

/-! ### Nodes -/

@[simp] theorem type_map (e : Expr) : (e.map f).type = e.type := by
  induction e using Expr.type.induct <;> simp_all [map, type]

@[simp] theorem level_map (e : Expr) : (e.map f).level = e.level := by
  cases e <;> rfl

@[simp] theorem isNumber_map (e : Expr) : (e.map f).isNumber = e.isNumber := by
  cases e <;> rfl

@[simp] theorem opens_map (e : Expr) : (e.map f).opens = e.opens := by
  match e with
  | subquery inner _ _ _ => exact opens_map inner
  | binary _ _ left _ => exact opens_map left
  | number _ | string _ | vector _ | matrix _ _ | paren _ | negate _ | call _ _
  | aggregate _ _ _ _ | extension _ => rfl

mutual

theorem map_map (g : Change) (e : Expr) : (e.map f).map g =
    e.map ⟨g.selector ∘ f.selector, g.duration ∘ f.duration, g.step ∘ f.step,
      g.modifiers ∘ f.modifiers, g.operator ∘ f.operator⟩ := by
  match e with
  | number _ | string _ | vector _ | matrix _ _ | extension _ => rfl
  | subquery inner range step modifiers =>
    simp only [map, map_map g inner, Function.comp_apply]
  | paren inner => simp only [map, map_map g inner]
  | negate inner => simp only [map, map_map g inner]
  | call function arguments => simp only [map, mapAll_mapAll g arguments]
  | aggregate op grouping none inner => simp only [map, mapOption, map_map g inner]
  | aggregate op grouping (some p) inner =>
    simp only [map, mapOption, map_map g inner, map_map g p]
  | binary op modifiers left right =>
    simp only [map, map_map g left, map_map g right, Function.comp_apply]

theorem mapAll_mapAll (g : Change) (es : List Expr) : mapAll g (mapAll f es) =
    mapAll ⟨g.selector ∘ f.selector, g.duration ∘ f.duration, g.step ∘ f.step,
      g.modifiers ∘ f.modifiers, g.operator ∘ f.operator⟩ es := by
  match es with
  | [] => rfl
  | e :: es => simp only [mapAll, map_map g e, mapAll_mapAll g es]

end

/-! ### Making sense -/

/-- The parts that a change gives fit where the ones that it gets do. -/
structure Change.Fits : Prop where
  selector : ∀ s : Selector, s.wellFormed → (f.selector s).wellFormed
  operator : ∀ (m : BinaryModifiers) op left right, m.admit op left right →
    BinaryModifiers.admit (f.operator m) op left right

theorem isSpecialCall_map (function : Text) (arguments : List Expr) :
    isSpecialCall function (mapAll f arguments) = isSpecialCall function arguments := by
  cases arguments with
  | nil => rfl
  | cons e es =>
    cases e
    case number v => cases v <;> rfl
    all_goals rfl

theorem map_type_mapAll (arguments : List Expr) :
    (mapAll f arguments).map type = arguments.map type := by
  rw [mapAll_eq_map, List.map_map]
  simp [Function.comp_def]

variable {f}

mutual

theorem wellTyped_map (hf : f.Fits) {e : Expr} (he : e.wellTyped) : (e.map f).wellTyped := by
  match e with
  | number _ | string _ | extension _ => exact he
  | vector s | matrix s _ => exact hf.selector s he
  | subquery inner _ _ _ =>
    simp only [wellTyped, map, Bool.and_eq_true, type_map] at he ⊢
    exact ⟨wellTyped_map hf he.1, he.2⟩
  | paren inner => exact wellTyped_map hf (e := inner) he
  | negate inner =>
    simp only [wellTyped, map, Bool.and_eq_true, type_map] at he ⊢
    exact ⟨wellTyped_map hf he.1, he.2⟩
  | call function arguments =>
    simp only [wellTyped, map, Bool.and_eq_true] at he ⊢
    refine ⟨allWellTyped_mapAll hf he.1, ?_⟩
    rw [isSpecialCall_map, map_type_mapAll, mapAll_eq_map, List.length_map]
    exact he.2
  | aggregate op _ parameter inner =>
    simp only [wellTyped, map, Bool.and_eq_true, type_map] at he ⊢
    refine ⟨⟨wellTyped_map hf he.1.1, he.1.2⟩, ?_⟩
    match parameter, he.2 with
    | none, hp => exact hp
    | some p, hp =>
      simp only [parameterWellTyped, mapOption, Bool.and_eq_true, type_map] at hp ⊢
      exact ⟨⟨hp.1.1, wellTyped_map hf hp.1.2⟩, hp.2⟩
  | binary op modifiers left right =>
    simp only [wellTyped, map, Bool.and_eq_true, type_map] at he ⊢
    exact ⟨⟨wellTyped_map hf he.1.1, wellTyped_map hf he.1.2⟩, hf.operator _ _ _ _ he.2⟩

theorem allWellTyped_mapAll (hf : f.Fits) {es : List Expr} (hes : allWellTyped es) :
    allWellTyped (mapAll f es) := by
  match es with
  | [] => rfl
  | e :: es =>
    simp only [allWellTyped, mapAll, Bool.and_eq_true] at hes ⊢
    exact ⟨wellTyped_map hf hes.1, allWellTyped_mapAll hf hes.2⟩

end

/-! ### Shape -/

/-- The parts that a change gives have the shape of parsed ones if the ones that it gets do. -/
structure Change.Keeps (f : Change) : Prop where
  selector : ∀ s : Selector, s.wellFormed → s.Formed → (f.selector s).Formed
  operator : ∀ m : BinaryModifiers, m.grouping = none → (f.operator m).grouping = none

mutual

theorem formed_map (hf : f.Keeps) {e : Expr} (htyped : e.wellTyped) (he : e.Formed) :
    (e.map f).Formed := by
  match e with
  | number _ | string _ | extension _ => exact he
  | vector s | matrix s _ => exact hf.selector s htyped he
  | subquery inner _ _ _ =>
    simp only [wellTyped, Bool.and_eq_true] at htyped
    simp only [Formed, map, level_map, isNumber_map] at he ⊢
    exact ⟨formed_map hf htyped.1 he.1, he.2⟩
  | paren inner => exact formed_map hf (e := inner) htyped he
  | negate inner =>
    simp only [wellTyped, Bool.and_eq_true] at htyped
    simp only [Formed, map, level_map, isNumber_map] at he ⊢
    exact ⟨formed_map hf htyped.1 he.1, he.2⟩
  | call function arguments =>
    simp only [wellTyped, Bool.and_eq_true] at htyped
    exact ⟨he.1, allFormed_mapAll hf htyped.1 he.2⟩
  | aggregate op _ parameter inner =>
    simp only [wellTyped, Bool.and_eq_true] at htyped
    obtain ⟨hop, hparameter, hp, hinner⟩ := he
    match parameter, hp, htyped.2 with
    | none, _, _ => exact ⟨hop, hparameter, trivial, formed_map hf htyped.1.1 hinner⟩
    | some p, hp, htypedP =>
      simp only [parameterWellTyped, Bool.and_eq_true] at htypedP
      exact ⟨hop, hparameter, formed_map hf (e := p) htypedP.1.2 hp,
        formed_map hf htyped.1.1 hinner⟩
  | binary op modifiers left right =>
    simp only [wellTyped, Bool.and_eq_true] at htyped
    simp only [Formed, map, level_map] at he ⊢
    obtain ⟨hleft, hright, hleftLevel, hrightLevel, hgrouping⟩ := he
    exact ⟨formed_map hf htyped.1.1 hleft, formed_map hf htyped.1.2 hright, hleftLevel,
      hrightLevel, fun hop => hf.operator _ (hgrouping hop)⟩

theorem allFormed_mapAll (hf : f.Keeps) {es : List Expr} (htyped : allWellTyped es)
    (hes : AllFormed es) : AllFormed (mapAll f es) := by
  match es with
  | [] => trivial
  | e :: es =>
    simp only [allWellTyped, Bool.and_eq_true] at htyped
    exact ⟨formed_map hf htyped.1 hes.1, allFormed_mapAll hf htyped.2 hes.2⟩

end

end Expr

/-! ### Canonical matchers -/

namespace Matchers

theorem mem_canonicalGroup {metric : Option Text} {group : List Matcher} {m : Matcher} :
    m ∈ canonicalGroup metric group ↔ m ∈ group ∧ m.repeatsName metric = false := by
  rw [canonicalGroup, (Matcher.sort_perm _).mem_iff, List.mem_filter, Bool.not_eq_true']

theorem canonicalGroup_canonicalGroup (metric : Option Text) (group : List Matcher) :
    canonicalGroup metric (canonicalGroup metric group) = canonicalGroup metric group := by
  have hfilter : (canonicalGroup metric group).filter (fun m => !m.repeatsName metric) =
      canonicalGroup metric group := by
    rw [List.filter_eq_self]
    intro m hm
    rw [(mem_canonicalGroup.mp hm).2]
    rfl
  rw [canonicalGroup, hfilter, canonicalGroup, Matcher.sort_of_pairwise (Matcher.pairwise_sort _)]

theorem canonical_canonical (metric : Option Text) (ms : Matchers) :
    (ms.canonical metric).canonical metric = ms.canonical metric := by
  have halternatives : ((ms.canonical metric).alternatives.map (canonicalGroup metric)) =
      (ms.canonical metric).alternatives := by
    refine (List.map_congr_left ?_).trans (List.map_id _)
    intro group hgroup
    obtain ⟨group', -, rfl⟩ := List.mem_map.mp (List.mem_of_mem_filter hgroup)
    exact canonicalGroup_canonicalGroup metric group'
  rw [canonical, halternatives]
  simp [canonical, canonicalGroup_canonicalGroup, List.filter_filter]

theorem mem_flatten_canonical {metric : Option Text} {ms : Matchers} {m : Matcher} :
    m ∈ (ms.canonical metric).flatten ↔ m ∈ ms.flatten ∧ m.repeatsName metric = false := by
  simp only [flatten, canonical, List.mem_append, List.mem_flatten, List.mem_filter, List.mem_map,
    mem_canonicalGroup]
  constructor
  · rintro (h | ⟨group, ⟨⟨group', hgroup', rfl⟩, -⟩, h⟩)
    · exact ⟨.inl h.1, h.2⟩
    · rw [mem_canonicalGroup] at h
      exact ⟨.inr ⟨group', hgroup', h.1⟩, h.2⟩
  · rintro ⟨h | ⟨group, hgroup, h⟩, hm⟩
    · exact .inl ⟨h, hm⟩
    · have hmem : m ∈ canonicalGroup metric group := mem_canonicalGroup.mpr ⟨h, hm⟩
      refine .inr ⟨_, ⟨⟨group, hgroup, rfl⟩, ?_⟩, hmem⟩
      cases hempty : canonicalGroup metric group with
      | nil => rw [hempty] at hmem; cases hmem
      | cons n ns => rfl

end Matchers

/-! ### Canonical parts -/

namespace Selector

/-- In a selector that makes sense, no matcher repeats the name of the metric. -/
theorem repeatsName_eq_false {s : Selector} (hs : s.wellFormed) {m : Matcher}
    (hm : m ∈ s.matchers.flatten) : m.repeatsName s.name = false := by
  simp only [wellFormed, Bool.and_eq_true] at hs
  cases hname : s.name with
  | none => simp [Matcher.repeatsName]
  | some name =>
    rw [hname] at hs
    have hne := List.all_eq_true.mp hs.2 m hm
    simp only [bne_iff_ne] at hne
    simp [Matcher.repeatsName, hne]

theorem mem_canonical {s : Selector} (hs : s.wellFormed) {m : Matcher} :
    m ∈ s.canonical.matchers.flatten ↔ m ∈ s.matchers.flatten := by
  rw [canonical, Matchers.mem_flatten_canonical]
  exact ⟨And.left, fun hm => ⟨hm, repeatsName_eq_false hs hm⟩⟩

theorem wellFormed_canonical {s : Selector} (hs : s.wellFormed) : s.canonical.wellFormed := by
  have hmem := fun m => mem_canonical hs (m := m)
  have hname : s.canonical.name = s.name := rfl
  simp only [wellFormed, Bool.and_eq_true, hname] at hs ⊢
  constructor
  · simpa only [List.all_eq_true, hmem] using hs.1
  · cases h : s.name with
    | some name =>
      simp only [h] at hs
      simpa only [List.all_eq_true, hmem] using hs.2
    | none =>
      simp only [h] at hs
      simpa only [List.any_eq_true, hmem] using hs.2

theorem canonicalGroup_eq_nil {s : Selector} (hs : s.wellFormed) {group : List Matcher}
    (hgroup : ∀ m ∈ group, m ∈ s.matchers.flatten)
    (h : Matchers.canonicalGroup s.name group = []) : group = [] := by
  rw [List.eq_nil_iff_forall_not_mem]
  intro m hm
  have hcanonical := Matchers.mem_canonicalGroup.mpr ⟨hm, repeatsName_eq_false hs (hgroup m hm)⟩
  rw [h] at hcanonical
  cases hcanonical

theorem formed_canonical {s : Selector} (hs : s.wellFormed) (h : s.Formed) :
    s.canonical.Formed := by
  refine ⟨h.name, ?_, ?_⟩
  · rcases h.matchers with halternatives | ⟨hgroup, hlength, hne⟩
    · left
      simp [canonical, Matchers.canonical, halternatives]
    · right
      have halternatives : s.canonical.matchers.alternatives =
          s.matchers.alternatives.map (Matchers.canonicalGroup s.name) := by
        rw [canonical, Matchers.canonical]
        simp only [List.filter_eq_self, List.mem_map]
        rintro _ ⟨group, hmem, rfl⟩
        rw [Bool.not_eq_true', List.isEmpty_eq_false_iff]
        intro hnil
        apply hne group hmem
        apply canonicalGroup_eq_nil hs _ hnil
        intro m hm
        exact List.mem_append_right _ (List.mem_flatten.mpr ⟨group, hmem, hm⟩)
      refine ⟨?_, ?_, ?_⟩
      · simp [canonical, Matchers.canonical, hgroup, Matchers.canonicalGroup]
      · rw [halternatives, List.length_map]
        exact hlength
      · intro group hmem
        have hnonempty := (List.mem_filter.mp hmem).2
        rw [Bool.not_eq_true', List.isEmpty_eq_false_iff] at hnonempty
        exact hnonempty
  · intro hname hnil
    apply h.nonempty hname
    rw [List.eq_nil_iff_forall_not_mem] at hnil ⊢
    intro m hm
    exact hnil m ((mem_canonical hs).mpr hm)

end Selector

theorem BinaryModifiers.admit_canonical {m : BinaryModifiers} {op : BinaryOp}
    {left right : ValueType} (h : BinaryModifiers.admit m op left right) :
    BinaryModifiers.admit m.canonical op left right := by
  by_cases hm : m.matching = some (.allBut [])
  · obtain ⟨returnBool, matching, grouping⟩ := m
    simp only at hm
    subst hm
    simpa [ BinaryModifiers.admit, canonical, overlap, LabelChoice.isNonempty] using h
  · rw [canonical, if_neg hm]
    exact h

theorem Offset.cut_cut (o : Offset) : o.cut.cut = o.cut :=
  congrArg (Offset.mk o.negative) o.duration.cut_cut

/-! ### Expressions -/

namespace Expr

theorem fits_canonical :
    Change.Fits ⟨Selector.canonical, id, id, id, BinaryModifiers.canonical⟩ where
  selector _ := Selector.wellFormed_canonical
  operator _ _ _ _ := BinaryModifiers.admit_canonical

theorem keeps_canonical :
    Change.Keeps ⟨Selector.canonical, id, id, id, BinaryModifiers.canonical⟩ where
  selector _ := Selector.formed_canonical
  operator _ h := h

theorem wellTyped_canonical {e : Expr} (he : e.wellTyped) : e.canonical.wellTyped :=
  wellTyped_map fits_canonical he

theorem formed_canonical {e : Expr} (htyped : e.wellTyped) (he : e.Formed) : e.canonical.Formed :=
  formed_map keeps_canonical htyped he

theorem canonical_canonical (e : Expr) : e.canonical.canonical = e.canonical := by
  have hselector : Selector.canonical ∘ Selector.canonical = Selector.canonical := by
    funext s
    simp only [Function.comp_apply, Selector.canonical, Matchers.canonical_canonical]
  have hoperator : BinaryModifiers.canonical ∘ BinaryModifiers.canonical =
      BinaryModifiers.canonical := by
    funext m
    by_cases hm : m.matching = some (.allBut []) <;> simp [BinaryModifiers.canonical, hm]
  rw [canonical, canonical, map_map]
  simp only [hselector, hoperator, Function.comp_id]

theorem cut_cut (e : Expr) : e.cut.cut = e.cut := by
  have hduration : Duration.cut ∘ Duration.cut = Duration.cut := funext Duration.cut_cut
  have hmodifiers : Modifiers.cut ∘ Modifiers.cut = Modifiers.cut := by
    funext m
    simp [Modifiers.cut, Function.comp_def, Offset.cut_cut]
  have hstep : Option.map Duration.cut ∘ Option.map Duration.cut = Option.map Duration.cut := by
    rw [Option.map_comp_map, hduration]
  have hselector : Selector.cut ∘ Selector.cut = Selector.cut := by
    funext s
    exact congrArg (fun m => { s with modifiers := m }) (congrFun hmodifiers s.modifiers)
  rw [cut, cut, map_map]
  simp only [hselector, hduration, hstep, hmodifiers, Function.comp_id]

theorem canonical_cut (e : Expr) : e.cut.canonical = e.canonical.cut := by
  rw [canonical, cut, map_map, canonical, cut, map_map]
  rfl

end Expr

end PromQL

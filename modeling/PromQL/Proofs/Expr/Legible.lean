import PromQL.Proofs.Expr.Mapping

/-!
# Legible expressions

An expression is legible if what is written of it can be read: its labels are read as labels, no
group modifier lacks the labels to match on, and its durations and times come up to some standard.
The lowest standard is that they can be read at all, and the highest that they are read as what they
are, down to whole milliseconds.
-/

namespace PromQL

/-! ### Standards -/

/-- What durations, steps of subqueries and times have to come up to. -/
structure Standard where
  duration : Duration → Prop
  step : Duration → Prop
  time : Instant → Prop

namespace Standard

/-- A quantity can be read. Steps may also be so short that nothing is written of them. -/
def readable : Standard :=
  ⟨fun d => d.reread.isSome, fun d => d.text = [] ∨ d.reread.isSome, fun t => t.reread.isSome⟩

/-- A quantity is read as what it is, down to whole milliseconds. -/
def faithful : Standard := ⟨Duration.Readable, Duration.Readable, fun t => t.reread = some t⟩

end Standard

/-- The modifiers of a selector come up to a standard. -/
structure Modifiers.Legible (q : Standard) (m : Modifiers) : Prop where
  time : ∀ t ∈ m.time, q.time t
  offset : ∀ o ∈ m.offset, q.duration o.duration

namespace Expr

mutual

/-- An expression can be read where it is written, its quantities up to a standard. -/
def Legible (q : Standard) : Expr → Prop
  | number _ | string _ => True
  | vector s => s.modifiers.Legible q
  | matrix s range => s.modifiers.Legible q ∧ q.duration range
  | subquery inner range step modifiers =>
    inner.Legible q ∧ q.duration range ∧ (∀ s ∈ step, q.step s) ∧ modifiers.Legible q
  | paren inner | negate inner => inner.Legible q
  | call _ arguments => AllLegible q arguments
  | aggregate _ grouping parameter inner =>
    grouping.all LabelChoice.isLegible ∧ ParameterLegible q parameter ∧ inner.Legible q
  | binary _ modifiers left right =>
    left.Legible q ∧ right.Legible q ∧ modifiers.isLegible ∧
      (modifiers.isBare → right.opens = false)
  | extension _ => False

/-- Several expressions can be read where they are written. -/
def AllLegible (q : Standard) : List Expr → Prop
  | [] => True
  | e :: es => e.Legible q ∧ AllLegible q es

/-- An expression that may be missing can be read where it is written. -/
def ParameterLegible (q : Standard) : Option Expr → Prop
  | none => True
  | some e => e.Legible q

end

end Expr

/-! ### Parts as they are read -/

/-- A duration as it is read, if it is. -/
def Duration.asRead (d : Duration) : Duration := d.reread.getD d

/-- The step of a subquery as it is read, if it is. -/
def Duration.stepAsRead (step : Option Duration) : Option Duration := (rereadStep step).getD step

/-- A time as it is read, if it is. -/
def Instant.asRead (t : Instant) : Instant := t.reread.getD t

/-- An offset as it is read, if it is. -/
def Offset.asRead (o : Offset) : Offset := { o with duration := o.duration.asRead }

/-- Modifiers as they are read, if they are. -/
def Modifiers.asRead (m : Modifiers) : Modifiers :=
  ⟨m.time.map Instant.asRead, m.offset.map Offset.asRead⟩

/-- An expression with its durations and times as they are read. -/
def Expr.asRead (e : Expr) : Expr :=
  e.map ⟨fun s => { s with modifiers := s.modifiers.asRead }, Duration.asRead,
    Duration.stepAsRead, Modifiers.asRead, id⟩

theorem Duration.reread_eq_asRead {d : Duration} (h : d.reread.isSome) :
    d.reread = some d.asRead := by
  obtain ⟨d', hd⟩ := Option.isSome_iff_exists.mp h
  rw [asRead, hd, Option.getD_some]

theorem Duration.text_ne_nil_of_reread {d : Duration} (h : d.reread.isSome) : d.text ≠ [] := by
  intro htext
  rw [reread, htext] at h
  cases h

theorem Duration.rereadStep_isSome_iff (step : Option Duration) :
    (rereadStep step).isSome ↔ ∀ s ∈ step, Standard.readable.step s := by
  cases step with
  | none => simp [rereadStep]
  | some s =>
    by_cases h : s.text = [] <;> simp [rereadStep, Standard.readable, h]

theorem Duration.rereadStep_eq_asRead {step : Option Duration}
    (h : ∀ s ∈ step, Standard.readable.step s) : rereadStep step = some (stepAsRead step) := by
  obtain ⟨s, hs⟩ := Option.isSome_iff_exists.mp ((rereadStep_isSome_iff step).mpr h)
  rw [stepAsRead, hs, Option.getD_some]

theorem Modifiers.reread_isSome_iff (m : Modifiers) :
    m.reread.isSome ↔ m.Legible .readable := by
  obtain ⟨t, o⟩ := m
  have hoffset (o : Offset) : o.reread.isSome ↔ o.duration.reread.isSome := by
    simp [Offset.reread]
  have hiff : (Modifiers.reread ⟨t, o⟩).isSome ↔
      (∀ t' ∈ t, t'.reread.isSome) ∧ ∀ o' ∈ o, o'.duration.reread.isSome := by
    simp only [← hoffset]
    cases o with
    | none =>
      cases t with
      | none => simp [reread]
      | some t => cases h : t.reread <;> simp [reread, h]
    | some o =>
      cases t with
      | none => cases ho : o.reread <;> simp [reread, ho]
      | some t => cases h : t.reread <;> cases ho : o.reread <;> simp [reread, h, ho]
  rw [hiff]
  exact ⟨fun h => ⟨h.1, h.2⟩, fun h => ⟨h.time, h.offset⟩⟩

theorem Modifiers.reread_eq_asRead {m : Modifiers} (h : m.Legible .readable) :
    m.reread = some m.asRead := by
  obtain ⟨t, o⟩ := m
  have htime : t.mapM Instant.reread = some (t.map Instant.asRead) := by
    cases t with
    | none => rfl
    | some t =>
      obtain ⟨t', ht⟩ := Option.isSome_iff_exists.mp (h.time t rfl)
      simp [Instant.asRead, ht]
  have hoffset : o.mapM Offset.reread = some (o.map Offset.asRead) := by
    cases o with
    | none => rfl
    | some o =>
      have ho := Duration.reread_eq_asRead (h.offset o rfl)
      simp [Offset.asRead, Offset.reread, ho]
  rw [reread, htime, hoffset]
  rfl

/-! ### What is legible is read -/

namespace Expr

mutual

/-- What is legible is read as itself, with its durations and times as they are read. -/
theorem reread_eq_asRead (e : Expr) (he : e.Formed) (h : e.Legible .readable) :
    e.reread = .ok (some e.asRead) := by
  match e with
  | number _ | string _ => rfl
  | vector s =>
    rw [reread, Modifiers.reread_eq_asRead h]
    rfl
  | matrix s range =>
    rw [reread, if_neg (Duration.text_ne_nil_of_reread h.2), Modifiers.reread_eq_asRead h.1,
      Duration.reread_eq_asRead h.2]
    rfl
  | subquery inner range step modifiers =>
    obtain ⟨hinner, hrange, hstep, hmodifiers⟩ := h
    rw [reread, reread_eq_asRead inner he.1 hinner, Reading.ok_bind,
      if_neg (Duration.text_ne_nil_of_reread hrange), Modifiers.reread_eq_asRead hmodifiers,
      Duration.reread_eq_asRead hrange, Duration.rereadStep_eq_asRead hstep]
    rfl
  | paren inner =>
    rw [reread, reread_eq_asRead inner he h]
    rfl
  | negate inner =>
    have hnegated : negated inner.asRead = negate inner.asRead := by
      have hnumber : inner.asRead.isNumber = false := (isNumber_map _ inner).trans he.2.2
      cases hinner : inner.asRead <;> first | rfl | (rw [hinner] at hnumber; cases hnumber)
    rw [reread, reread_eq_asRead inner he.1 h, Reading.ok_bind, Option.map_some, hnegated]
    rfl
  | call function arguments =>
    rw [reread, rereads_eq_asRead arguments he.2 h, asRead, map, mapAll_eq_map]
    rfl
  | aggregate op grouping none inner =>
    obtain ⟨-, -, -, hinner⟩ := he
    rw [reread, if_pos h.1, rereadOption, reread_eq_asRead inner hinner h.2.2]
    rfl
  | aggregate op grouping (some p) inner =>
    obtain ⟨-, -, hp, hinner⟩ := he
    rw [reread, if_pos h.1, rereadOption, reread_eq_asRead p hp h.2.1,
      reread_eq_asRead inner hinner h.2.2]
    rfl
  | binary op modifiers left right =>
    obtain ⟨hleft, hright, -⟩ := he
    rw [reread, reread_eq_asRead left hleft h.1, Reading.ok_bind, if_pos h.2.2.1,
      reread_eq_asRead right hright h.2.1]
    rfl

theorem rereads_eq_asRead (es : List Expr) (hes : AllFormed es) (h : AllLegible .readable es) :
    rereads es = .ok (some (es.map asRead)) := by
  match es with
  | [] => rfl
  | e :: es =>
    rw [rereads, reread_eq_asRead e hes.1 h.1, rereads_eq_asRead es hes.2 h.2]
    rfl

end

/-! ### What is read is legible -/

mutual

/-- What is read as an expression at all is legible. -/
theorem legible_of_reread (e : Expr) (hs : e.Separate) {e' : Expr}
    (h : e.reread = .ok (some e')) : e.Legible .readable := by
  match e with
  | number _ | string _ => trivial
  | vector s =>
    rw [reread, Except.ok.injEq, Option.map_eq_some_iff] at h
    obtain ⟨m, hm, -⟩ := h
    exact (Modifiers.reread_isSome_iff _).mp (by rw [hm]; rfl)
  | matrix s range =>
    rw [reread] at h
    split at h
    · cases h
    · rw [Except.ok.injEq, Option.bind_eq_some_iff] at h
      obtain ⟨d, hd, h⟩ := h
      obtain ⟨m, hm, -⟩ := Option.map_eq_some_iff.mp h
      refine ⟨(Modifiers.reread_isSome_iff _).mp (by rw [hm]; rfl), ?_⟩
      exact Option.isSome_iff_exists.mpr ⟨d, hd⟩
  | subquery inner range step modifiers =>
    obtain ⟨x, hx, h⟩ := Reading.bind_eq_ok.mp h
    split at h
    · cases h
    · rw [Except.ok.injEq, Option.bind_eq_some_iff] at h
      obtain ⟨y, rfl, h⟩ := h
      obtain ⟨d, hd, h⟩ := Option.bind_eq_some_iff.mp h
      obtain ⟨s, hstep, h⟩ := Option.bind_eq_some_iff.mp h
      obtain ⟨m, hm, -⟩ := Option.map_eq_some_iff.mp h
      refine ⟨legible_of_reread inner hs.1 hx, Option.isSome_iff_exists.mpr ⟨d, hd⟩, ?_, ?_⟩
      · exact (Duration.rereadStep_isSome_iff step).mp (by rw [hstep]; rfl)
      · exact (Modifiers.reread_isSome_iff _).mp (by rw [hm]; rfl)
  | paren inner =>
    obtain ⟨x, hx, -⟩ := Reading.map_eq_ok.mp h
    exact legible_of_reread inner hs hx
  | negate inner =>
    obtain ⟨x, hx, -⟩ := Reading.map_eq_ok.mp h
    exact legible_of_reread inner hs hx
  | call function arguments =>
    obtain ⟨x, hx, -⟩ := Reading.map_eq_ok.mp h
    exact allLegible_of_rereads arguments hs hx
  | aggregate op grouping parameter inner =>
    rw [reread] at h
    split at h
    · next hgrouping =>
      obtain ⟨p, hp, h⟩ := Reading.bind_eq_ok.mp h
      obtain ⟨x, hx, h⟩ := Reading.bind_eq_ok.mp h
      obtain ⟨p, rfl, hvalue⟩ := Option.bind_eq_some_iff.mp (Reading.pure_eq_ok.mp h)
      obtain ⟨x, rfl, -⟩ := Option.map_eq_some_iff.mp hvalue
      refine ⟨hgrouping, ?_, legible_of_reread inner hs.2 hx⟩
      match parameter, hp, hs.1 with
      | none, _, _ => trivial
      | some e, hp, hse =>
        obtain ⟨z, hz, -⟩ := Reading.map_eq_ok.mp hp
        exact legible_of_reread e hse hz
    · cases h
  | binary op modifiers left right =>
    obtain ⟨l, hl, h⟩ := Reading.bind_eq_ok.mp h
    split at h
    · next hmodifiers =>
      obtain ⟨r, hr, h⟩ := Reading.bind_eq_ok.mp h
      obtain ⟨l, rfl, hvalue⟩ := Option.bind_eq_some_iff.mp (Reading.pure_eq_ok.mp h)
      obtain ⟨r, rfl, -⟩ := Option.map_eq_some_iff.mp hvalue
      exact ⟨legible_of_reread left hs.1 hl, legible_of_reread right hs.2.1 hr, hmodifiers,
        hs.2.2⟩
    · cases h

theorem allLegible_of_rereads (es : List Expr) (hs : AllSeparate es) {es' : List Expr}
    (h : rereads es = .ok (some es')) : AllLegible .readable es := by
  match es with
  | [] => trivial
  | e :: es =>
    obtain ⟨x, hx, h⟩ := Reading.bind_eq_ok.mp h
    obtain ⟨xs, hxs, h⟩ := Reading.bind_eq_ok.mp h
    obtain ⟨x, rfl, hvalue⟩ := Option.bind_eq_some_iff.mp (Reading.pure_eq_ok.mp h)
    obtain ⟨xs, rfl, -⟩ := Option.map_eq_some_iff.mp hvalue
    exact ⟨legible_of_reread e hs.1 hx, allLegible_of_rereads es hs.2 hxs⟩

end

mutual

/-- What is legible has no part that runs into the next one. -/
theorem separate_of_legible {q : Standard} (hq : ∀ d, q.duration d → d.text ≠ []) (e : Expr)
    (h : e.Legible q) : e.Separate := by
  match e with
  | number _ | string _ | extension _ => trivial
  | vector s => exact fun o ho => hq _ (h.offset o ho)
  | matrix s _ => exact fun o ho => hq _ (h.1.offset o ho)
  | subquery inner _ _ modifiers =>
    exact ⟨separate_of_legible hq inner h.1, fun o ho => hq _ (h.2.2.2.offset o ho)⟩
  | paren inner => exact separate_of_legible hq inner h
  | negate inner => exact separate_of_legible hq inner h
  | call _ arguments => exact allSeparate_of_legible hq arguments h
  | aggregate _ _ none inner => exact ⟨trivial, separate_of_legible hq inner h.2.2⟩
  | aggregate _ _ (some p) inner =>
    exact ⟨separate_of_legible hq p h.2.1, separate_of_legible hq inner h.2.2⟩
  | binary _ _ left right =>
    exact ⟨separate_of_legible hq left h.1, separate_of_legible hq right h.2.1, h.2.2.2⟩

theorem allSeparate_of_legible {q : Standard} (hq : ∀ d, q.duration d → d.text ≠ [])
    (es : List Expr) (h : AllLegible q es) : AllSeparate es := by
  match es with
  | [] => trivial
  | e :: es => exact ⟨separate_of_legible hq e h.1, allSeparate_of_legible hq es h.2⟩

end

end Expr

/-! ### What is read as what it is -/

namespace Duration

theorem cut_of_reread {d d' : Duration} (h : d.reread = some d') : d'.cut = d' := by
  rw [reread, ofText?_text] at h
  split at h
  · cases h
  · cases h
    simp [cut, milliseconds]

theorem readable_and_cut_asRead_iff (d : Duration) :
    Standard.readable.duration d ∧ d.asRead.cut = d.cut ↔ Standard.faithful.duration d := by
  change d.reread.isSome ∧ d.asRead.cut = d.cut ↔ d.Readable
  rw [← ofText?_text_eq_cut_iff, ← reread]
  constructor
  · rintro ⟨hd, hcut⟩
    have h := reread_eq_asRead hd
    rw [h, ← cut_of_reread h, hcut]
  · intro h
    refine ⟨by rw [h]; rfl, ?_⟩
    rw [asRead, h, Option.getD_some, cut_cut]

theorem text_ne_nil_of_readable {d : Duration} (h : d.Readable) : d.text ≠ [] :=
  text_ne_nil_of_reread ((readable_and_cut_asRead_iff d).mpr h).1

theorem readable_and_cut_stepAsRead_iff (step : Option Duration) :
    (∀ s ∈ step, Standard.readable.step s) ∧ (stepAsRead step).map cut = step.map cut ↔
      ∀ s ∈ step, Standard.faithful.step s := by
  cases step with
  | none => simp [stepAsRead, rereadStep]
  | some s =>
    by_cases htext : s.text = []
    · have hnot : ¬ Standard.faithful.step s := fun h => text_ne_nil_of_readable h htext
      simp [stepAsRead, rereadStep, htext, hnot]
    · have hstep : stepAsRead (some s) = some s.asRead := by
        rw [stepAsRead, rereadStep, if_neg htext, asRead]
        cases s.reread <;> rfl
      have hread : s.reread.isSome ∧ s.asRead.cut = s.cut ↔ Standard.faithful.step s :=
        readable_and_cut_asRead_iff s
      rw [hstep]
      simpa [Standard.readable, htext] using hread

end Duration

theorem Modifiers.readable_and_cut_asRead_iff (m : Modifiers) :
    m.Legible .readable ∧ m.asRead.cut = m.cut ↔ m.Legible .faithful := by
  obtain ⟨t, o⟩ := m
  have htime : (∀ t' ∈ t, t'.reread.isSome) ∧ t.map Instant.asRead = t ↔
      ∀ t' ∈ t, t'.reread = some t' := by
    cases t with
    | none => simp
    | some t => cases h : t.reread <;> simp [Instant.asRead, h]
  have hoffset : (∀ o' ∈ o, o'.duration.reread.isSome) ∧
      (o.map Offset.asRead).map Offset.cut = o.map Offset.cut ↔
      ∀ o' ∈ o, o'.duration.Readable := by
    cases o with
    | none => simp
    | some o =>
      have hread : o.duration.reread.isSome ∧ o.duration.asRead.cut = o.duration.cut ↔
        o.duration.Readable := o.duration.readable_and_cut_asRead_iff
      simpa [Offset.asRead, Offset.cut] using hread
  constructor
  · rintro ⟨⟨ht, ho⟩, hcut⟩
    simp only [asRead, cut, Modifiers.mk.injEq] at hcut
    exact ⟨htime.mp ⟨ht, hcut.1⟩, hoffset.mp ⟨ho, hcut.2⟩⟩
  · rintro ⟨ht, ho⟩
    obtain ⟨ht, htcut⟩ := htime.mpr ht
    obtain ⟨ho, hocut⟩ := hoffset.mpr ho
    exact ⟨⟨ht, ho⟩, by simp only [asRead, cut, htcut, hocut]⟩

namespace Expr

mutual

/-- What can be read is read as what it is, down to whole milliseconds, if and only if its
quantities come up to the highest standard. -/
theorem readable_and_cut_asRead_iff (e : Expr) :
    e.Legible .readable ∧ e.asRead.cut = e.cut ↔ e.Legible .faithful := by
  match e with
  | number _ | string _ | extension _ => simp [Legible, asRead, cut, map]
  | vector s =>
    have hm := s.modifiers.readable_and_cut_asRead_iff
    simpa [Legible, asRead, cut, map, Selector.cut] using hm
  | matrix s range =>
    have hm := s.modifiers.readable_and_cut_asRead_iff
    have hd := range.readable_and_cut_asRead_iff
    simp only [Legible, asRead, cut, map, Selector.cut, matrix.injEq, Selector.mk.injEq, true_and]
    rw [← hm, ← hd]
    tauto
  | subquery inner range step modifiers =>
    have hinner := readable_and_cut_asRead_iff inner
    have hm := modifiers.readable_and_cut_asRead_iff
    have hd := range.readable_and_cut_asRead_iff
    have hstep := Duration.readable_and_cut_stepAsRead_iff step
    simp only [Legible, asRead, cut, map, subquery.injEq] at hinner ⊢
    rw [← hinner, ← hm, ← hd, ← hstep]
    tauto
  | paren inner =>
    have hinner := readable_and_cut_asRead_iff inner
    simpa only [Legible, asRead, cut, map, paren.injEq] using hinner
  | negate inner =>
    have hinner := readable_and_cut_asRead_iff inner
    simpa only [Legible, asRead, cut, map, negate.injEq] using hinner
  | call function arguments =>
    have harguments := allReadable_and_cut_asRead_iff arguments
    simpa only [Legible, asRead, cut, map, call.injEq, true_and] using harguments
  | aggregate op grouping none inner =>
    have hinner := readable_and_cut_asRead_iff inner
    simp only [Legible, ParameterLegible, asRead, cut, map, mapOption, aggregate.injEq, true_and]
      at hinner ⊢
    rw [← hinner]
    tauto
  | aggregate op grouping (some p) inner =>
    have hp := readable_and_cut_asRead_iff p
    have hinner := readable_and_cut_asRead_iff inner
    simp only [Legible, ParameterLegible, asRead, cut, map, mapOption, aggregate.injEq, true_and,
      Option.some.injEq] at hp hinner ⊢
    rw [← hp, ← hinner]
    tauto
  | binary op modifiers left right =>
    have hleft := readable_and_cut_asRead_iff left
    have hright := readable_and_cut_asRead_iff right
    simp only [Legible, asRead, cut, map, binary.injEq, true_and] at hleft hright ⊢
    rw [← hleft, ← hright]
    tauto

theorem allReadable_and_cut_asRead_iff (es : List Expr) :
    AllLegible .readable es ∧ mapAll ⟨Selector.cut, Duration.cut, Option.map Duration.cut,
      Modifiers.cut, id⟩ (mapAll ⟨fun s => { s with modifiers := s.modifiers.asRead },
        Duration.asRead, Duration.stepAsRead, Modifiers.asRead, id⟩ es) =
      mapAll ⟨Selector.cut, Duration.cut, Option.map Duration.cut, Modifiers.cut, id⟩ es ↔
      AllLegible .faithful es := by
  match es with
  | [] => simp [AllLegible, mapAll]
  | e :: es =>
    have he := readable_and_cut_asRead_iff e
    have hes := allReadable_and_cut_asRead_iff es
    simp only [AllLegible, asRead, cut, mapAll, List.cons.injEq] at he ⊢
    rw [← he, ← hes]
    tauto

end

theorem canonical_asRead (e : Expr) : e.asRead.canonical = e.canonical.asRead := by
  rw [canonical, asRead, map_map, canonical, asRead, map_map]
  rfl

theorem wellTyped_asRead {e : Expr} (he : e.wellTyped) : e.asRead.wellTyped :=
  wellTyped_map ⟨fun _ h => h, fun _ _ _ _ h => h⟩ he

/-- An expression whose parts do not run into each other is read as one that is the same, if it is
in canonical form, if and only if it is legible. -/
theorem reread_same_iff {e : Expr} (he : e.Formed) (hs : e.Separate)
    (hcanonical : e.canonical = e) :
    (∃ e', e.reread = .ok (some e') ∧ e.Same e') ↔ e.Legible .faithful := by
  rw [← readable_and_cut_asRead_iff]
  have hsame : e.Same e.asRead ↔ e.asRead.cut = e.cut := by
    rw [Same, canonical_asRead, hcanonical]
    exact eq_comm
  constructor
  · rintro ⟨e', he', h⟩
    have hlegible := legible_of_reread e hs he'
    rw [reread_eq_asRead e he hlegible, Except.ok.injEq, Option.some.injEq] at he'
    rw [← he'] at h
    exact ⟨hlegible, hsame.mp h⟩
  · rintro ⟨hlegible, h⟩
    exact ⟨e.asRead, reread_eq_asRead e he hlegible, hsame.mpr h⟩

end Expr

end PromQL

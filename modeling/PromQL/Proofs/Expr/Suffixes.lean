import PromQL.Proofs.Expr.Readers
import PromQL.Proofs.Expr.Tokens

/-!
# Ranges, offsets and times are read back

Behind an operand, a written duration is read as the duration of its text, and a written time as
the time of its decimal places. Neither has to be what has been written.
-/

namespace PromQL

/-! ### Quantities -/

/-- What a duration is read as where it is written. -/
def Duration.reread (d : Duration) : Option Duration := ofText? d.text

/-- The number that the three decimal places of a number stand for. -/
def Double.rereadPlaces : Double → Option Double
  | .finite negative rank =>
    (ofNumeral? (placesParts rank.val).text).map fun v => if negative then v.negate else v
  | v => some v

/-- What a time is read as where it is written. -/
def Instant.reread : Instant → Option Instant
  | epoch t => (seconds t).rereadPlaces.bind ofSeconds?
  | t => some t

/-- What an offset is read as where it is written. -/
def Offset.reread (o : Offset) : Option Offset := o.duration.reread.map fun d => ⟨o.negative, d⟩

/-- What modifiers are read as where they are written. -/
def Modifiers.reread (m : Modifiers) : Option Modifiers := do
  let time ← m.time.mapM Instant.reread
  let offset ← m.offset.mapM Offset.reread
  pure ⟨time, offset⟩

/-- What the step of a subquery is read as, a step below a millisecond not being written. -/
def Duration.rereadStep : Option Duration → Option (Option Duration)
  | none => some none
  | some step => if step.text = [] then some none else step.reread.map some

/-! ### Modifiers -/

/-- The modifiers of a selector or subquery. -/
def Expr.modifiers? : Expr → Option Modifiers
  | vector s | matrix s _ => some s.modifiers
  | subquery _ _ _ m => some m
  | _ => none

/-- A selector or subquery with other modifiers. -/
def Expr.withModifiers? (e : Expr) (m : Modifiers) : Option Expr := e.modify? fun _ => some m

namespace Expr

variable {e : Expr}

theorem withTime?_of_empty (h : e.modifiers? = some .empty) (t : Instant) :
    e.withTime? t = e.withModifiers? ⟨some t, none⟩ := by
  cases e <;> simp_all [modifiers?, withTime?, withModifiers?, modify?, Modifiers.empty]

theorem withModifiers?_empty (h : e.modifiers? = some .empty) :
    e.withModifiers? .empty = some e := by
  cases e <;> simp_all [modifiers?, withModifiers?, modify?] <;> rw [← h]

theorem withModifiers?_withOffset? (h : e.modifiers? = some .empty) (t : Option Instant)
    (o : Offset) :
    (e.withModifiers? ⟨t, none⟩).bind (fun e => e.withOffset? o) =
      e.withModifiers? ⟨t, some o⟩ := by
  cases e <;> simp_all [modifiers?, withOffset?, withModifiers?, modify?]

end Expr

namespace Grammar

theorem signed_tokens (negative : Bool) {t : Token} (h : ∀ op, t ≠ .operator op)
    (ts : List Token) : signed (signTokens negative ++ t :: ts) = (negative, t :: ts) := by
  cases negative with
  | true => rfl
  | false =>
    simp only [signTokens, Bool.false_eq_true, if_false, List.nil_append]
    cases t
    case operator op => exact absurd rfl (h op)
    all_goals rfl

theorem durationOf_duration (text : Text) (fits : Bool) :
    durationOf (.duration text) fits = .ok (Duration.ofText? text) := rfl

theorem readSuffixes_offset (e : Option Expr) {o : Offset} (ho : o.duration.text ≠ [])
    (rest : List Token) : readSuffixes e (o.tokens ++ rest) =
      readSuffixes (e.bind fun e => o.reread.bind e.withOffset?) rest := by
  rw [readSuffixes_eq, Offset.tokens, Duration.tokens, if_neg ho, List.append_assoc,
    List.cons_append]
  simp only
  rw [offset, List.singleton_append, signed_tokens _ (by simp)]
  simp only [durationOf_duration, Reading.ok_bind]
  rw [Offset.reread, Duration.reread]
  cases Duration.ofText? o.duration.text <;> rfl

/-- The tokens of the decimal places are a sign and a number that make up the value. -/
theorem exists_placesTokens (v : Double) : ∃ negative text,
    v.placesTokens = signTokens negative ++ [.number text] ∧
      v.rereadPlaces = (Double.ofNumeral? text).map fun v => if negative then v.negate else v := by
  have hnan : Double.ofNumeral? "NaN".toList = some .nan := by decide
  have hinf : Double.ofNumeral? "inf".toList = some (.infinite false) := by decide
  cases v with
  | nan => exact ⟨false, _, rfl, by rw [hnan]; rfl⟩
  | infinite negative =>
    refine ⟨negative, _, rfl, ?_⟩
    rw [hinf]
    cases negative <;> rfl
  | finite negative rank => exact ⟨negative, _, rfl, rfl⟩

theorem time_number (e : Option Expr) (negative : Bool) (text : Text) (rest : List Token) :
    time e (signTokens negative ++ .number text :: rest) =
      .ok (e.bind fun e => ((Double.ofNumeral? text).map fun v =>
        if negative then v.negate else v).bind fun v => (Instant.ofSeconds? v).bind e.withTime?,
        rest) := by
  cases negative <;> rfl

theorem readSuffixes_time (e : Option Expr) (t : Instant) (rest : List Token) :
    readSuffixes e (t.tokens ++ rest) =
      readSuffixes (e.bind fun e => t.reread.bind e.withTime?) rest := by
  rw [readSuffixes_eq]
  cases t with
  | queryStart => rfl
  | queryEnd => rfl
  | epoch t =>
    obtain ⟨negative, text, htokens, hvalue⟩ := exists_placesTokens (Instant.seconds t)
    rw [Instant.tokens, htokens, Instant.reread, hvalue]
    simp only [List.cons_append, List.append_assoc, List.nil_append]
    rw [time_number, Reading.ok_bind]
    simp only [Option.bind_assoc]

/-- The modifiers behind a selector or subquery without modifiers are read as its own. -/
theorem readSuffixes_modifiers {e : Option Expr} {m : Modifiers}
    (he : ∀ e' ∈ e, e'.modifiers? = some .empty)
    (hm : ∀ o ∈ m.offset, o.duration.text ≠ []) (rest : List Token) :
    readSuffixes e (m.tokens ++ rest) =
      readSuffixes (e.bind fun e => m.reread.bind e.withModifiers?) rest := by
  obtain ⟨t, o⟩ := m
  have htime (us : List Token) : readSuffixes e ((t.map Instant.tokens).getD [] ++ us) =
      readSuffixes (e.bind fun e =>
        (t.mapM Instant.reread).bind fun t => e.withModifiers? ⟨t, none⟩) us := by
    cases t with
    | none =>
      cases e with
      | none => rfl
      | some e => exact congrArg (readSuffixes · us) (Expr.withModifiers?_empty (he e rfl)).symm
    | some t =>
      simp only [Option.map_some, Option.getD_some, readSuffixes_time, Option.mapM_some]
      cases e with
      | none => rfl
      | some e =>
        cases h : t.reread with
        | none => simp
        | some t' => simp [Expr.withTime?_of_empty (he e rfl)]
  rw [Modifiers.tokens, List.append_assoc, htime]
  cases o with
  | none =>
    cases e with
    | none => rfl
    | some e => cases h : t.mapM Instant.reread <;> simp [Modifiers.reread, h]
  | some o =>
    simp only [Option.map_some, Option.getD_some, readSuffixes_offset _ (hm o rfl)]
    cases e with
    | none => rfl
    | some e =>
      simp [Modifiers.reread]
      cases t.mapM Instant.reread with
      | none => rfl
      | some t =>
        cases h : o.reread with
        | none => simp
        | some o' => simp [Expr.withModifiers?_withOffset? (he e rfl)]

/-! ### Ranges -/

theorem range_rightBracket (e : Option Expr) (rest : List Token) :
    range e (.rightBracket :: rest) = malformed := by
  unfold range
  split
  · next heq => cases heq; rfl
  · next heq => cases heq; rfl
  · rfl

theorem range_colon (e : Option Expr) (ts : List Token) : range e (.colon :: ts) = malformed := by
  unfold range
  split
  · next heq => cases heq; rfl
  · next heq => cases heq; rfl
  · rfl

theorem range_tokens (e : Option Expr) (d : Duration) (rest : List Token) :
    range e (d.tokens ++ .rightBracket :: rest) =
      if d.text = [] then malformed
      else .ok (e.bind fun e => d.reread.bind e.overRange?, rest) := by
  rw [Duration.tokens]
  by_cases hd : d.text = []
  · simp [hd, range_rightBracket]
  · simp only [hd, if_false]
    rfl

theorem range_subquery (e : Option Expr) (d : Duration) (step : Option Duration)
    (rest : List Token) :
    range e (d.tokens ++ .colon :: ((step.map Duration.tokens).getD [] ++ .rightBracket :: rest)) =
      if d.text = [] then malformed
      else .ok (e.bind fun e => d.reread.bind fun d =>
        (Duration.rereadStep step).map fun s => .subquery e d s .empty, rest) := by
  rw [Duration.tokens]
  by_cases hd : d.text = []
  · simp [hd, range_colon]
  have hwithout : range e (.duration d.text :: .colon :: .rightBracket :: rest) =
      .ok (e.bind fun e => d.reread.map fun d => .subquery e d none .empty, rest) := rfl
  have hwith (s : Duration) :
      range e (.duration d.text :: .colon :: .duration s.text :: .rightBracket :: rest) =
        .ok (e.bind fun e => d.reread.bind fun d => s.reread.map fun s =>
          .subquery e d (some s) .empty, rest) := rfl
  simp only [hd, if_false, List.singleton_append]
  cases step with
  | none =>
    simp only [Option.map_none, Option.getD_none, List.nil_append, hwithout, Duration.rereadStep]
    cases e <;> cases d.reread <;> rfl
  | some s =>
    simp only [Option.map_some, Option.getD_some, Duration.tokens, Duration.rereadStep]
    by_cases hs : s.text = []
    · simp only [hs, if_true, List.nil_append, hwithout]
      cases e <;> cases d.reread <;> rfl
    · simp only [hs, if_false, List.singleton_append, hwith]
      cases e <;> cases d.reread <;> cases s.reread <;> rfl

theorem readSuffixes_range (e : Option Expr) (d : Duration) (rest : List Token) :
    readSuffixes e (.leftBracket :: (d.tokens ++ .rightBracket :: rest)) =
      if d.text = [] then malformed
      else readSuffixes (e.bind fun e => d.reread.bind e.overRange?) rest := by
  rw [readSuffixes_eq]
  simp only
  rw [range_tokens]
  split <;> rfl

theorem readSuffixes_subquery (e : Option Expr) (d : Duration) (step : Option Duration)
    (rest : List Token) :
    readSuffixes e (.leftBracket :: (d.tokens ++ .colon ::
      ((step.map Duration.tokens).getD [] ++ .rightBracket :: rest))) =
      if d.text = [] then malformed
      else readSuffixes (e.bind fun e => d.reread.bind fun d =>
        (Duration.rereadStep step).map fun s => .subquery e d s .empty) rest := by
  rw [readSuffixes_eq]
  simp only
  rw [range_subquery]
  split <;> rfl

end Grammar

end PromQL

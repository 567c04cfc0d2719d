import Mathlib
import PromQL.Formatter
import PromQL.Proofs.Expr.Equality
import PromQL.Proofs.Template.Restoration

/-!
# The outcome of a call

A query that cannot be read is given up: the validator does not see it, and nobody is warned. A
query that can be read is laid out and checked once, and the validator decides alone how the call
ends. It sees the text with placeholders of its own, which stand for the variables that are in the
text.
-/

namespace PromQL

/-! ### What a report says -/

/-- Whether an event says that an offset has been moved. -/
def Event.isMove : Event → Bool
  | moved .. => true
  | unparsed _ | failed _ => false

namespace Report

/-- The events of a call that should be looked at. -/
def warnings (r : Report) : List Event := r.events.filter fun event => event.level == .warn

/-- A call that has given its query up. A query that is no query at all is handed back as it is. -/
structure Declined (r : Report) (raw : Text) (error : ParseError) : Prop where
  shown : r.shown = []
  warnings : r.warnings = []
  malformed : error = .malformed → r.result = .ok raw
  outOfRange : error = .outOfRange → r.result = .error .outOfRange

/-- A call that has come to a formatted text and has asked the validator about a query with
placeholders in it. -/
structure Checked (r : Report) (validator : Validator) (formatted query : Text) : Prop where
  shown : r.shown = [query]
  unmasked : (Placeholders.ofText formatted).unmask query = formatted
  accepted : r.result = .ok formatted ↔ validator query = .accepted
  rejected (reason : Text) :
    r.result = .error (.invalid formatted reason) ↔ validator query = .rejected reason
  outOfRange : r.result = .error .outOfRange ↔ validator query = .outOfRange
  warned : r.warnings = [.failed formatted] ↔ ∃ reason, validator query = .rejected reason
  unwarned : r.warnings = [] ↔ ¬ ∃ reason, validator query = .rejected reason

/-- A call that starts by saying that offsets have been moved if they have, and does not say so
again. -/
def Announced (r : Report) (raw repaired : Text) : Prop :=
  ∃ others : List Event, (∀ event ∈ others, ¬ event.isMove) ∧
    r.events = if repaired = raw then others else .moved raw repaired :: others

end Report

/-! ### Checks -/

/-- A check ends as the validator says. -/
theorem Validator.checked_check (validator : Validator) {formatted : Text}
    (hcount : (variablesOf formatted).length ≤ wordCount) :
    (validator.check formatted).Checked validator formatted (Placeholders.mask formatted) := by
  have hunmask := Placeholders.unmask_mask hcount
  match hverdict : validator (Placeholders.mask formatted) with
  | .accepted =>
    simp only [check, hverdict]
    constructor <;> simp [Report.warnings, hunmask, hverdict]
  | .rejected reason =>
    simp only [check, hverdict]
    constructor <;> simp [Report.warnings, Event.level, hunmask, hverdict]
  | .outOfRange =>
    simp only [check, hverdict]
    constructor <;> simp [Report.warnings, hunmask, hverdict]

theorem Validator.not_isMove_of_mem_check {validator : Validator} {formatted : Text} {event : Event}
    (h : event ∈ (validator.check formatted).events) : ¬ event.isMove := by
  unfold check at h
  simp only at h
  split at h
  · cases h
  · cases List.mem_singleton.mp h
    exact Bool.false_ne_true
  · cases h

namespace Report

/-- Events that nobody has to look at may come first. -/
theorem Checked.prepend {r : Report} {validator : Validator} {formatted query : Text}
    (h : r.Checked validator formatted query) {before : List Event}
    (hbefore : ∀ event ∈ before, event.level ≠ .warn) :
    Checked ⟨r.result, before ++ r.events, r.shown⟩ validator formatted query := by
  have hwarnings : Report.warnings ⟨r.result, before ++ r.events, r.shown⟩ = r.warnings := by
    have hnone : before.filter (fun event => event.level == .warn) = [] :=
      List.filter_eq_nil_iff.mpr fun event hmem => by simpa using hbefore event hmem
    rw [warnings, List.filter_append, hnone, List.nil_append, warnings]
  exact ⟨h.shown, h.unmasked, h.accepted, h.rejected, h.outOfRange, hwarnings ▸ h.warned,
    hwarnings ▸ h.unwarned⟩

end Report

/-! ### Calls -/

namespace Formatter

open Placeholders

/-- The events of a call that come before its query is read. -/
def moves (raw : Text) : List Event :=
  if Offset.repair raw = raw then [] else [.moved raw (Offset.repair raw)]

theorem level_of_mem_moves {raw : Text} {event : Event} (h : event ∈ moves raw) :
    event.level ≠ .warn := by
  unfold moves at h
  split at h
  · cases h
  · cases List.mem_singleton.mp h
    exact Level.noConfusion

theorem filter_moves (raw : Text) : (moves raw).filter (fun event => event.level == .warn) = [] :=
  List.filter_eq_nil_iff.mpr fun _ hmem => by simpa using level_of_mem_moves hmem

theorem announced_moves (raw : Text) {others : List Event} (h : ∀ event ∈ others, ¬ event.isMove)
    (result : Except FormatError Text) (shown : List Text) :
    Report.Announced ⟨result, moves raw ++ others, shown⟩ raw (Offset.repair raw) := by
  refine ⟨others, h, ?_⟩
  unfold moves
  split_ifs <;> rfl

theorem declined_format (f : Formatter) {raw : Text} {error : ParseError}
    (hread : Expr.ofText (mask (Offset.repair raw)) = .error error) :
    (f.format raw).Declined raw error ∧ (f.format raw).Announced raw (Offset.repair raw) := by
  cases error with
  | malformed =>
    simp only [format, hread]
    refine ⟨⟨rfl, ?_, fun _ => rfl, nofun⟩, announced_moves raw (by simp [Event.isMove]) _ _⟩
    exact (List.filter_append ..).trans (congrArg (· ++ _) (filter_moves raw))
  | outOfRange =>
    simp only [format, hread]
    refine ⟨⟨rfl, filter_moves raw, nofun, fun _ => rfl⟩, ?_⟩
    have hnone : ∀ event ∈ ([] : List Event), ¬ event.isMove := nofun
    have hannounced := announced_moves raw hnone (.error .outOfRange) []
    rwa [List.append_nil] at hannounced

theorem checked_format (f : Formatter) {raw : Text} {e : Expr}
    (hread : Expr.ofText (mask (Offset.repair raw)) = .ok e)
    (hcount : (variablesOf (f.textOf (Offset.repair raw) e)).length ≤ wordCount) :
    (f.format raw).Checked f.validator (f.textOf (Offset.repair raw) e)
        (mask (f.textOf (Offset.repair raw) e)) ∧
      (f.format raw).Announced raw (Offset.repair raw) := by
  simp only [format, hread]
  exact ⟨(f.validator.checked_check hcount).prepend fun _ => level_of_mem_moves,
    announced_moves raw (fun _ => Validator.not_isMove_of_mem_check) _ _⟩

/-- A call gives its query up if it cannot be read, and has the formatted text checked otherwise.
First of all it says whether offsets have been moved. -/
theorem format_outcome (f : Formatter) (raw : Text)
    (hcount : ∀ e, Expr.ofText (mask (Offset.repair raw)) = .ok e →
      (variablesOf (f.textOf (Offset.repair raw) e)).length ≤ wordCount) :
    (∀ error, Expr.ofText (mask (Offset.repair raw)) = .error error →
      (f.format raw).Declined raw error) ∧
    (∀ e, Expr.ofText (mask (Offset.repair raw)) = .ok e →
      (f.format raw).Checked f.validator (f.textOf (Offset.repair raw) e)
        (mask (f.textOf (Offset.repair raw) e))) ∧
    (f.format raw).Announced raw (Offset.repair raw) := by
  refine ⟨fun error hread => (declined_format f hread).1,
    fun e hread => (checked_format f hread (hcount e hread)).1, ?_⟩
  cases hread : Expr.ofText (mask (Offset.repair raw)) with
  | error error => exact (declined_format f hread).2
  | ok e => exact (checked_format f hread (hcount e hread)).2

/-- A formatter that does not allow offsets. -/
def withoutOffsets : Formatter where
  options := .default
  validator := fun query =>
    if occursIn "offset".toList query then .rejected "no offset, please".toList else .accepted

/-- A query with an offset in the wrong place and a variable. -/
def misplacedQuery : Text := "sum(rate(m\x7ba=\"$x\"\x7d[5m])) offset 1d".toList

/-- The sum that the repaired query stands for. -/
def misplacedSum : Expr :=
  .aggregate .sum none none (.call "rate".toList
    [.matrix ⟨some "m".toList, ⟨[⟨"a".toList, .equal, "VAR0".toList⟩], []⟩,
      none, some ⟨false, ⟨86400000000000⟩⟩⟩ ⟨300000000000⟩])

theorem format_outcome_misplacedQuery :
    (withoutOffsets.format misplacedQuery).Checked withoutOffsets.validator
        "sum(rate(m\x7ba=\"$x\"\x7d[5m] offset 1d))".toList
        "sum(rate(m\x7ba=\"VAR0\"\x7d[5m] offset 1d))".toList ∧
      (withoutOffsets.format misplacedQuery).Announced misplacedQuery
        "sum(rate(m\x7ba=\"$x\"\x7d[5m] offset 1d))".toList := by
  have hrepair : Offset.repair misplacedQuery =
      "sum(rate(m\x7ba=\"$x\"\x7d[5m] offset 1d))".toList := by decide +kernel
  have hread : Expr.ofText (mask (Offset.repair misplacedQuery)) = .ok misplacedSum := by
    decide +kernel
  have htext : withoutOffsets.textOf (Offset.repair misplacedQuery) misplacedSum =
      "sum(rate(m\x7ba=\"$x\"\x7d[5m] offset 1d))".toList := by decide +kernel
  have hmask : mask "sum(rate(m\x7ba=\"$x\"\x7d[5m] offset 1d))".toList =
      "sum(rate(m\x7ba=\"VAR0\"\x7d[5m] offset 1d))".toList := by decide +kernel
  have hcount : ∀ e, Expr.ofText (mask (Offset.repair misplacedQuery)) = .ok e →
      (variablesOf (withoutOffsets.textOf (Offset.repair misplacedQuery) e)).length ≤
        wordCount := by
    intro e he
    cases Except.ok.inj (hread.symm.trans he)
    rw [htext]
    decide
  obtain ⟨-, hchecked, hannounced⟩ := format_outcome withoutOffsets misplacedQuery hcount
  have hchecked := hchecked misplacedSum hread
  rw [htext, hmask] at hchecked
  exact ⟨hchecked, hrepair ▸ hannounced⟩

/-- A query with a range that no duration is long enough for. -/
def longRangeQuery : Text := "m[1e20]".toList

/-- A query that is not read is not always handed back: the call ends without a text if a number in
it is too large. -/
theorem format_longRangeQuery_ne_raw :
    (∀ e, Expr.ofText (mask (Offset.repair longRangeQuery)) ≠ .ok e) ∧
      ((ofOptions .default).format longRangeQuery).result ≠ .ok longRangeQuery := by
  have hread : Expr.ofText (mask (Offset.repair longRangeQuery)) = .error .outOfRange := by
    decide +kernel
  have hresult : ((ofOptions .default).format longRangeQuery).result ≠ .ok longRangeQuery := by
    decide +kernel
  refine ⟨fun e he => ?_, hresult⟩
  cases hread.symm.trans he

end Formatter

end PromQL

import Mathlib
import PromQL.Proofs.Expr.Carrying
import PromQL.Proofs.Formatter.Meaning
import PromQL.Proofs.Offset.Variables

/-!
# Variables of formatted queries

Formatting keeps the template variables of a query, as often as they are there: repairing and
sorting put them in another order, and nothing else happens to them. The escapes in strings must
stand for separators, though, since the stem of the placeholders is chosen for the text of the
query, and an escape may stand for a character of the stem.
-/

namespace PromQL

namespace Formatter

open Placeholders

variable {raw out : Text}

/-- The tokens of a query, in which placeholders stand for the variables. -/
def maskedTokens? (raw : Text) : Option (List Token) :=
  Token.scan .plain (mask (Offset.repair raw))

/-- Whether all escapes in a query stand for separators can be computed. -/
theorem isSeparator_of_all (h : (maskedTokens? raw).all fun ts =>
      (ts.flatMap Token.escapes).all fun c => IsSeparator c) :
    ∀ ts, maskedTokens? raw = some ts → ∀ t ∈ ts, ∀ c ∈ t.escapes, IsSeparator c := by
  intro ts hts t ht c hc
  rw [hts] at h
  simp only [Option.all_some, List.all_eq_true, List.mem_flatMap, decide_eq_true_eq] at h
  exact h c ⟨t, ht, hc⟩

theorem not_mem_mask {text : Text} (h : '#' ∉ text) : '#' ∉ mask text := by
  obtain ⟨n, hstem, -⟩ := freshStem_spec text
  rw [mask_eq_maskFrom, hstem]
  intro hmem
  rcases mem_or_of_mem_maskFrom hmem with hmem | hword
  · exact h hmem
  · exact absurd hword (by decide)

/-- What is laid out of an expression has the variables of the tokens that it has been read from. -/
theorem restored_format_tokens {m : Placeholders} {n : Nat} (hstem : m.stem = stemOf n) {text : Text}
    {ts : List Token} {e : Expr} (indent : Nat) (hscan : Token.scan .plain text = some ts)
    (hread : Expr.ofText text = .ok e)
    (hescapes : ∀ t ∈ ts, ∀ c ∈ t.escapes, IsSeparator c) :
    m.restored (e.format indent) = m.tokensRestored ts := by
  obtain ⟨us, hus, hwhole, -⟩ := Expr.exists_tokens hread
  obtain rfl : us = ts := Option.some.inj (hus.symm.trans hscan)
  obtain ⟨htyped, hformed⟩ := Expr.ofText_sound hread
  have htransparent : ∀ t ∈ us, t.Transparent m :=
    Token.transparent_of_lexes hstem (Token.lexes_of_scan hscan) hescapes
  calc m.restored (e.format indent)
      = m.tokensRestored e.canonical.tokens :=
        restored_of_spelled hstem (Expr.spelled_format indent hformed)
    _ = m.tokensRestored e.tokens := tokensRestored_canonical hstem e htyped
    _ = m.tokensRestored us := (Grammar.tokensRestored_of_whole hstem hwhole htransparent).symm

/-- What is laid out of an expression has the variables of the text that it has been read from. -/
theorem restored_format {m : Placeholders} {n : Nat} (hstem : m.stem = stemOf n) {text : Text}
    {e : Expr} (indent : Nat) (hcomment : '#' ∉ text) (hread : Expr.ofText text = .ok e)
    (hescapes : ∀ ts, Token.scan .plain text = some ts → ∀ t ∈ ts, ∀ c ∈ t.escapes, IsSeparator c) :
    m.restored (e.format indent) = m.restored text := by
  obtain ⟨ts, hscan, -, -⟩ := Expr.exists_tokens hread
  rw [restored_of_scan hstem hscan hcomment]
  exact restored_format_tokens hstem indent hscan hread (hescapes ts hscan)

/-- Formatting a query without comments neither loses nor adds variables, if the escapes in its
strings stand for separators. -/
theorem variablesOf_format_perm (f : Formatter) (hcomment : '#' ∉ raw)
    (hcount : (variablesOf raw).length ≤ wordCount)
    (hescapes : ∀ ts, maskedTokens? raw = some ts → ∀ t ∈ ts, ∀ c ∈ t.escapes, IsSeparator c)
    (hout : (f.format raw).result = .ok out) : (variablesOf out).Perm (variablesOf raw) := by
  have hrepair := Offset.variablesOf_repair_perm raw
  match hread : Expr.ofText (mask (Offset.repair raw)) with
  | .error .malformed =>
    simp only [format, hread] at hout
    cases hout
    exact .refl _
  | .error .outOfRange =>
    simp only [format, hread] at hout
    cases hout
  | .ok e =>
    simp only [format, hread] at hout
    rw [eq_of_check_ok hout, textOf]
    obtain ⟨n, hfresh, -⟩ := freshStem_spec (Offset.repair raw)
    have hstem : (Placeholders.ofText (Offset.repair raw)).stem = stemOf n := hfresh
    have hrestored := restored_format hstem f.options.indent
      (not_mem_mask (Offset.not_mem_repair_of_not_mem (by decide) hcomment)) hread hescapes
    rw [restored, restored, unmask_mask (hrepair.length_eq ▸ hcount), Multiset.coe_eq_coe]
      at hrestored
    exact hrestored.trans hrepair

/-- A query with variables in a label, in strings with escapes, and in the place of a metric. -/
def dashboardQuery : Text :=
  "sum(rate(m\x7bb=\"$x\\n\", a=~'$y\\\\d'\x7d[5m])) by ($by) / $z offset 1d".toList

/-- The query as it is formatted. -/
def formattedDashboard : Text :=
  "sum by ($by) (rate(m\x7ba=~\"$y\\\\d\",b=\"$x\\n\"\x7d[5m]))\n/\n$z offset 1d".toList

theorem variablesOf_format_dashboardQuery :
    ((ofOptions .default).format dashboardQuery).result = .ok formattedDashboard ∧
      (variablesOf formattedDashboard).Perm (variablesOf dashboardQuery) := by
  have hcomment : '#' ∉ dashboardQuery := by decide
  have hcount : (variablesOf dashboardQuery).length ≤ wordCount := by decide
  have hall : ((maskedTokens? dashboardQuery).all fun ts =>
      (ts.flatMap Token.escapes).all fun c => IsSeparator c) := by
    decide +kernel
  have hout : ((ofOptions .default).format dashboardQuery).result = .ok formattedDashboard := by
    decide +kernel
  exact ⟨hout, variablesOf_format_perm _ hcomment hcount (isSeparator_of_all hall) hout⟩

/-- A query in which an escape stands for the first letter of a placeholder. -/
def escapedStemQuery : Text := "m\x7ba=\"$x\", b=\"\\x56AR0\"\x7d".toList

/-- The formatter takes the value for a placeholder, and writes its variable twice. -/
theorem format_escapedStemQuery_not_perm :
    '#' ∉ escapedStemQuery ∧ (variablesOf escapedStemQuery).length ≤ wordCount ∧
      ∃ out, ((ofOptions .default).format escapedStemQuery).result = .ok out ∧
        ¬ (variablesOf out).Perm (variablesOf escapedStemQuery) := by
  refine ⟨by decide, by decide, "m\x7ba=\"$x\",b=\"$x\"\x7d".toList, ?_, ?_⟩
  · decide +kernel
  · decide +kernel

end Formatter

end PromQL

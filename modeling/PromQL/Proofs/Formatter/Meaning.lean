import PromQL.Formatter
import PromQL.Proofs.Expr.Equality
import PromQL.Proofs.Expr.Formatted
import PromQL.Proofs.Offset.Sources
import PromQL.Proofs.Template.Separation

/-!
# The meaning of formatted queries

A formatted query without template variables means what the query meant that it was made from, if
and only if what is written of that query is legible. Two things can go wrong: a group modifier
whose labels are left out takes a parenthesised operand for its labels, and durations and times that
are written with too few digits are read as other ones.
-/

namespace PromQL

/-! ### Queries without variables -/

theorem Offset.not_mem_repair {text : Text} (h : '$' ∉ text) : '$' ∉ repair text :=
  not_mem_repair_of_not_mem (by decide) h

namespace Formatter

variable {options : Options} {raw out : Text} {e : Expr}

theorem textOf_of_not_mem (f : Formatter) (h : '$' ∉ raw) (e : Expr) :
    f.textOf raw e = e.format f.options.indent :=
  Placeholders.unmask_of_no_occurrences (Placeholders.variablesOf_of_not_mem h) _

theorem eq_of_check_ok {validator : Validator} {formatted : Text}
    (h : (validator.check formatted).result = .ok out) : out = formatted := by
  unfold Validator.check at h
  simp only at h
  split at h
  · exact (Except.ok.inj h).symm
  · cases h
  · cases h

/-- What a query without variables is formatted to is the text of its expression. -/
theorem eq_format (hraw : '$' ∉ raw) (hread : Expr.ofText (Offset.repair raw) = .ok e)
    (hout : ((ofOptions options).format raw).result = .ok out) :
    out = e.format options.indent := by
  have hrepair := Offset.not_mem_repair hraw
  have hmask := Placeholders.mask_of_no_variables (Placeholders.variablesOf_of_not_mem hrepair)
  simp only [format, hmask, hread] at hout
  rw [eq_of_check_ok hout]
  exact textOf_of_not_mem _ hrepair e

/-- A formatted query stands for an expression that is the same as the one that was formatted, up
to the order of matchers, clauses that say nothing, and parts of milliseconds, if and only if every
clause and every quantity that is written can be read back. -/
theorem format_same_iff (hraw : '$' ∉ raw) (hread : Expr.ofText (Offset.repair raw) = .ok e)
    (hout : ((ofOptions options).format raw).result = .ok out) :
    (∃ e', Expr.ofText out = .ok e' ∧ e.Same e') ↔ e.canonical.Legible .faithful := by
  obtain ⟨htyped, hformed⟩ := Expr.ofText_sound hread
  rw [eq_format hraw hread hout]
  exact Expr.ofText_format_same_iff htyped hformed

/-- A query whose group modifier has no labels and stands in front of a parenthesis. -/
def groupedQuery : Text := "a * on(x) group_left() (b) - c".toList

/-- The difference that the query stands for. -/
def groupedExpr : Expr :=
  .binary .sub .empty
    (.binary .mul ⟨false, some (.only ["x".toList]), some ⟨.left, []⟩⟩
      (.vector ⟨some "a".toList, .empty, .empty⟩)
      (.paren (.vector ⟨some "b".toList, .empty, .empty⟩)))
    (.vector ⟨some "c".toList, .empty, .empty⟩)

/-- The product that the formatted query stands for. -/
def regroupedExpr : Expr :=
  .binary .mul ⟨false, some (.only ["x".toList]), some ⟨.left, ["b".toList]⟩⟩
    (.vector ⟨some "a".toList, .empty, .empty⟩)
    (.negate (.vector ⟨some "c".toList, .empty, .empty⟩))

/-- The formatter turns a difference of a product into the product of a negation, without an
error. -/
theorem format_groupedQuery_not_same :
    ∃ out, '$' ∉ groupedQuery ∧ Expr.ofText (Offset.repair groupedQuery) = .ok groupedExpr ∧
      ((ofOptions .default).format groupedQuery).result = .ok out ∧
      Expr.ofText out = .ok regroupedExpr ∧ ¬ groupedExpr.Same regroupedExpr := by
  refine ⟨groupedExpr.format 4, ?_, ?_, ?_, ?_, ?_⟩
  · decide +kernel
  · decide +kernel
  · decide +kernel
  · decide +kernel
  · intro h
    have hlevel := congrArg Expr.level h
    simp only [Expr.cut, Expr.canonical, Expr.level_map] at hlevel
    cases hlevel

/-- A query with a range, an offset and a group modifier, all of which can be read back. -/
def rateQuery : Text := "rate(m[90s] offset 1500ms) * on(x) group_left(y) (b)".toList

/-- The product that the query stands for. -/
def rateExpr : Expr :=
  .binary .mul ⟨false, some (.only ["x".toList]), some ⟨.left, ["y".toList]⟩⟩
    (.call "rate".toList [.matrix ⟨some "m".toList, .empty, none, some ⟨false, ⟨1500000000⟩⟩⟩
      ⟨90000000000⟩])
    (.paren (.vector ⟨some "b".toList, .empty, .empty⟩))

theorem format_rateQuery_same :
    ∃ out, '$' ∉ rateQuery ∧ Expr.ofText (Offset.repair rateQuery) = .ok rateExpr ∧
      ((ofOptions .default).format rateQuery).result = .ok out ∧
      ∃ e', Expr.ofText out = .ok e' ∧ rateExpr.Same e' := by
  have hdollar : '$' ∉ rateQuery := by decide +kernel
  have hread : Expr.ofText (Offset.repair rateQuery) = .ok rateExpr := by decide +kernel
  have hout : ((ofOptions .default).format rateQuery).result = .ok (rateExpr.format 4) := by
    decide +kernel
  have hoffset : Duration.Readable ⟨1500000000⟩ := by decide +kernel
  have hrange : Duration.Readable ⟨90000000000⟩ := by decide +kernel
  have hlegible : rateExpr.canonical.Legible .faithful := by
    refine ⟨⟨⟨⟨?_, ?_⟩, hrange⟩, trivial⟩, ⟨?_, ?_⟩, ?_, ?_⟩
    · rintro _ ⟨⟩
    · rintro _ ⟨⟩
      exact hoffset
    · rintro _ ⟨⟩
    · rintro _ ⟨⟩
    · decide +kernel
    · decide +kernel
  exact ⟨_, hdollar, hread, hout, (format_same_iff hdollar hread hout).mpr hlegible⟩

end Formatter

end PromQL

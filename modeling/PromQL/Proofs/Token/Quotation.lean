import Mathlib
import PromQL.Proofs.Expr.Assembly
import PromQL.Proofs.Token.Indentation

/-!
# Inside and outside of quotes

A text in which every double quote opens or closes a string has an inside and an outside. Of what is
written between the quotes of a literal nothing gets out: every quote in it is behind a backslash,
and every backslash in front of a character that belongs to it.
-/

namespace PromQL

/-! ### Quoted and unquoted -/

namespace QuoteState

/-- Where a reader stands behind one more character. -/
def next : QuoteState → Char → QuoteState
  | outside, c => if c = '"' then inside else outside
  | inside, c => if c = '"' then outside else if c = '\\' then escaped else inside
  | escaped, _ => inside

/-- Where a reader stands behind a text. -/
def behind (state : QuoteState) (text : Text) : QuoteState := text.foldl next state

@[simp] theorem behind_nil (state : QuoteState) : state.behind [] = state := rfl

@[simp] theorem behind_cons (state : QuoteState) (c : Char) (cs : Text) :
    state.behind (c :: cs) = (state.next c).behind cs := rfl

theorem behind_append (state : QuoteState) (a b : Text) :
    state.behind (a ++ b) = (state.behind a).behind b :=
  List.foldl_append

end QuoteState

/-- The characters of a text that stand outside of quotes, without the quotes. -/
def unquoted : QuoteState → Text → Text
  | _, [] => []
  | .outside, c :: cs => if c = '"' then unquoted .inside cs else c :: unquoted .outside cs
  | state, c :: cs => unquoted (state.next c) cs

@[simp] theorem unquoted_nil (state : QuoteState) : unquoted state [] = [] := by
  cases state <;> rfl

theorem unquoted_outside_cons {c : Char} (hc : c ≠ '"') (cs : Text) :
    unquoted .outside (c :: cs) = c :: unquoted .outside cs := by
  rw [unquoted, if_neg hc]

theorem unquoted_append (state : QuoteState) (a b : Text) :
    unquoted state (a ++ b) = unquoted state a ++ unquoted (state.behind a) b := by
  induction a generalizing state with
  | nil => simp
  | cons c cs ih =>
    rw [List.cons_append, QuoteState.behind_cons]
    cases state with
    | outside =>
      by_cases hc : c = '"'
      · subst hc
        exact ih .inside
      · rw [unquoted_outside_cons hc, unquoted_outside_cons hc, ih, QuoteState.next, if_neg hc]
        rfl
    | inside => exact ih (QuoteState.inside.next c)
    | escaped => exact ih .inside

/-! ### Literals -/

/-- A text inside of quotes that does not end them. -/
def StaysInside (text : Text) : Prop :=
  QuoteState.inside.behind text = .inside ∧ unquoted .inside text = []

namespace StaysInside

variable {a b : Text}

theorem append (ha : StaysInside a) (hb : StaysInside b) : StaysInside (a ++ b) := by
  constructor
  · rw [QuoteState.behind_append, ha.1, hb.1]
  · rw [unquoted_append, ha.1, ha.2, hb.2]
    rfl

theorem singleton {c : Char} (hmark : c ≠ '"') (hback : c ≠ '\\') : StaysInside [c] := by
  simp [StaysInside, QuoteState.next, unquoted, hmark, hback]

theorem of_forall (h : ∀ c ∈ a, c ≠ '"' ∧ c ≠ '\\') : StaysInside a := by
  induction a with
  | nil => exact ⟨rfl, rfl⟩
  | cons c cs ih =>
    obtain ⟨hc, hcs⟩ := List.forall_mem_cons.mp h
    exact (singleton hc.1 hc.2).append (ih hcs)

/-- A backslash takes the next character with it. -/
theorem pair (c : Char) : StaysInside ['\\', c] := ⟨rfl, rfl⟩

theorem escape (c : Char) : StaysInside (escape c) := by
  rcases Lexeme.isForm_escape c with ⟨d, hform, -⟩ | ⟨hcontrol, hform⟩ | ⟨hmark, hback, hform⟩
  all_goals rw [hform]
  · exact pair d
  · refine append (a := ['\\', 'u']) (pair 'u') (of_forall fun d hd => ?_)
    have hword := isWordChar_of_mem_hexPadded _ (toNat_lt_of_isControl hcontrol) d hd
    constructor <;> rintro rfl <;> exact absurd hword (by decide)
  · exact singleton hmark hback

theorem flatMap_escape (v : Text) : StaysInside (v.flatMap PromQL.escape) := by
  induction v with
  | nil => exact ⟨rfl, rfl⟩
  | cons c cs ih =>
    rw [List.flatMap_cons]
    exact (escape c).append ih

end StaysInside

/-- A literal is a complete string: outside of quotes it leaves nothing, and no quote open. -/
theorem behind_quote (v : Text) : QuoteState.outside.behind (quote v) = .outside := by
  rw [quote, List.cons_append, QuoteState.behind_cons, QuoteState.behind_append]
  exact congrArg (QuoteState.behind · ['"']) (StaysInside.flatMap_escape v).1

theorem unquoted_quote (v : Text) : unquoted .outside (quote v) = [] := by
  obtain ⟨hbehind, hunquoted⟩ := StaysInside.flatMap_escape v
  have hbody : unquoted .outside (quote v) = unquoted .inside (v.flatMap escape ++ ['"']) := rfl
  rw [hbody, unquoted_append, hbehind, hunquoted]
  rfl

/-- Texts of characters of one class and of literals have characters of the class outside of
quotes, and no quote open at their ends. -/
theorem Composed.unquoted_spec {isOutside : Char → Bool} {p : Text → Prop} {t : Text}
    (hmark : ¬ isOutside '"') (h : Composed isOutside p t) :
    QuoteState.outside.behind t = .outside ∧ ∀ c ∈ unquoted .outside t, isOutside c := by
  induction h with
  | nil => exact ⟨rfl, nofun⟩
  | @cons c t hc _ ih =>
    have hne : c ≠ '"' := by
      rintro rfl
      exact hmark hc
    rw [QuoteState.behind_cons, QuoteState.next, if_neg hne, unquoted_outside_cons hne]
    exact ⟨ih.1, List.forall_mem_cons.mpr ⟨hc, ih.2⟩⟩
  | @quoted v t _ _ ih =>
    rw [QuoteState.behind_append, unquoted_append, behind_quote, unquoted_quote, List.nil_append]
    exact ih

end PromQL

import PromQL.Text.Basic

/-!
# Editing texts

A rule looks at the start of a text and may propose an edit there. Applying a rule to a text goes
from left to right: the first place where it proposes an edit is edited, and the search goes on
behind the text that the edit stands for. What an edit writes is not looked at again.
-/

namespace PromQL

/-- A text that is found and the text that is written in its place. -/
structure Edit where
  source : Text
  replacement : Text
  deriving DecidableEq, Repr

/-- Applies a rule everywhere in a text after leaving out so many characters. -/
def editFrom (rule : Text → Option Edit) : Nat → Text → Text
  | _, [] => []
  | skip + 1, _ :: cs => editFrom rule skip cs
  | 0, c :: cs =>
    match rule (c :: cs) with
    | some edit => edit.replacement ++ editFrom rule (edit.source.length - 1) cs
    | none => c :: editFrom rule 0 cs

/-- Applies a rule everywhere in a text. -/
def editAll (rule : Text → Option Edit) (text : Text) : Text := editFrom rule 0 text

@[simp] theorem editFrom_nil (rule : Text → Option Edit) (skip : Nat) :
    editFrom rule skip [] = [] := by
  cases skip <;> rfl

@[simp] theorem editFrom_succ_cons (rule : Text → Option Edit) (skip : Nat) (c : Char)
    (cs : Text) : editFrom rule (skip + 1) (c :: cs) = editFrom rule skip cs := rfl

theorem editFrom_zero_cons_of_some {rule : Text → Option Edit} {c : Char} {cs : Text}
    {edit : Edit} (h : rule (c :: cs) = some edit) :
    editFrom rule 0 (c :: cs) =
      edit.replacement ++ editFrom rule (edit.source.length - 1) cs := by
  simp [editFrom, h]

theorem editFrom_zero_cons_of_none {rule : Text → Option Edit} {c : Char} {cs : Text}
    (h : rule (c :: cs) = none) :
    editFrom rule 0 (c :: cs) = c :: editFrom rule 0 cs := by
  simp [editFrom, h]

/-- Leaving out characters is the same as not having them. -/
theorem editFrom_eq_drop (rule : Text → Option Edit) (skip : Nat) (text : Text) :
    editFrom rule skip text = editAll rule (text.drop skip) := by
  induction text generalizing skip with
  | nil => simp [editAll]
  | cons c cs ih =>
    cases skip with
    | zero => rfl
    | succ skip => simpa using ih skip

end PromQL

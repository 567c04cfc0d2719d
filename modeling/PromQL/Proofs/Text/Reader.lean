import PromQL.Proofs.Text.Editing

/-!
# Readers of texts

A reader goes through a text with a state and may stop before its end. What it does in a text is
said by what it does in the parts of the text, and it does not see edits that each leave it in the
state in which the edited part would have left it.
-/

namespace PromQL

/-- What a state becomes at a character, if the reader goes on there. -/
abbrev Reader (σ : Type) := σ → Char → Option σ

namespace Reader

variable {σ : Type} {r : Reader σ} {s s' : σ} {a b : Text}

/-- The state behind a text, if the reader comes to its end. -/
def run? (r : Reader σ) (state : σ) (text : Text) : Option σ := text.foldlM r state

@[simp] theorem run?_nil (r : Reader σ) (s : σ) : r.run? s [] = some s := rfl

@[simp] theorem run?_cons (r : Reader σ) (s : σ) (c : Char) (cs : Text) :
    r.run? s (c :: cs) = (r s c).bind fun next => r.run? next cs := rfl

theorem run?_append (r : Reader σ) (s : σ) (a b : Text) :
    r.run? s (a ++ b) = (r.run? s a).bind fun next => r.run? next b :=
  List.foldlM_append

theorem run?_append_of_some (h : r.run? s a = some s') (b : Text) :
    r.run? s (a ++ b) = r.run? s' b := by
  rw [run?_append, h, Option.bind_some]

/-- A reader that comes to the end of two parts comes to the end of the first one. -/
theorem exists_of_run?_append (h : r.run? s (a ++ b) = some s') :
    ∃ next, r.run? s a = some next ∧ r.run? next b = some s' := by
  rw [run?_append] at h
  exact Option.bind_eq_some_iff.mp h

/-- A text of characters at which the state stays the same. -/
theorem run?_of_forall (h : ∀ c ∈ a, r s c = some s) : r.run? s a = some s := by
  induction a with
  | nil => rfl
  | cons c cs ih =>
    obtain ⟨hc, hcs⟩ := List.forall_mem_cons.mp h
    rw [run?_cons, hc, Option.bind_some, ih hcs]

end Reader

end PromQL

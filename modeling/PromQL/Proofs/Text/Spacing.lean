import Mathlib
import PromQL.Text.Basic

/-!
# Texts up to their spacing

A layout decides where spaces and line breaks stand. The normal spacing of a text forgets it: every
run of them is one space, and there is none on the inner side of a parenthesis. Two texts have the
same spacing if one can stand for the other in any text without changing its normal spacing, so that
texts which are put together from parts are compared part by part.
-/

namespace PromQL

/-! ### Normal spacing -/

/-- The characters that a layout puts between the words of a text. -/
def isSpacing (c : Char) : Bool := c == ' ' || c == '\n'

/-- Whether a text starts with a space or a line break. -/
def startsSpaced (text : Text) : Bool := (text.head?.map isSpacing).getD false

/-- Writes every run of spaces and line breaks as one space. -/
def collapse : Text → Text
  | [] => []
  | c :: cs =>
    if isSpacing c then if startsSpaced cs then collapse cs else ' ' :: collapse cs
    else c :: collapse cs

/-- Leaves out the spaces right behind an opening parenthesis and right in front of a closing one.
The character in front of the text is given. -/
def closeUp (previous : Option Char) : Text → Text
  | [] => []
  | c :: cs =>
    if c = ' ' ∧ (previous = some '(' ∨ cs.head? = some ')') then closeUp (some c) cs
    else c :: closeUp (some c) cs

/-- A text with every run of spaces and line breaks as one space, and none on the inner side of a
parenthesis. -/
def normalSpacing (text : Text) : Text := closeUp none (collapse text)

theorem collapse_cons_of_spacing {c : Char} {text : Text} (hc : isSpacing c)
    (htext : startsSpaced text) : collapse (c :: text) = collapse text := by
  rw [collapse, if_pos hc, if_pos htext]

theorem collapse_cons_of_not_startsSpaced {c : Char} {text : Text} (hc : isSpacing c)
    (htext : ¬ startsSpaced text) : collapse (c :: text) = ' ' :: collapse text := by
  rw [collapse, if_pos hc, if_neg htext]

theorem collapse_cons_of_not_spacing {c : Char} {text : Text} (hc : ¬ isSpacing c) :
    collapse (c :: text) = c :: collapse text := by
  rw [collapse, if_neg hc]

/-- What a text is behind another one depends on its first character and on its own spacing. -/
theorem collapse_append_congr {a b : Text} (hstart : startsSpaced a = startsSpaced b)
    (h : collapse a = collapse b) (before : Text) :
    collapse (before ++ a) = collapse (before ++ b) := by
  induction before with
  | nil => exact h
  | cons c cs ih =>
    have hcs : startsSpaced (cs ++ a) = startsSpaced (cs ++ b) := by
      cases cs with
      | nil => exact hstart
      | cons d ds => rfl
    rw [List.cons_append, List.cons_append, collapse, collapse, hcs, ih]

/-- Nothing runs together across a character that is no spacing. -/
theorem collapse_append_of_not_spacing {c : Char} (hc : ¬ isSpacing c) (before behind : Text) :
    collapse (before ++ c :: behind) = collapse before ++ c :: collapse behind := by
  induction before with
  | nil => exact collapse_cons_of_not_spacing hc
  | cons d ds ih =>
    have hstart : startsSpaced (ds ++ c :: behind) = startsSpaced ds := by
      cases ds with
      | nil => exact Bool.eq_false_iff.mpr hc
      | cons e es => rfl
    rw [List.cons_append, collapse, collapse, hstart, ih]
    split
    · split <;> rfl
    · rfl

theorem collapse_spacing_append {text : Text} (hne : text ≠ []) (h : ∀ c ∈ text, isSpacing c)
    (behind : Text) : collapse (text ++ behind) = collapse (' ' :: behind) := by
  induction text with
  | nil => exact absurd rfl hne
  | cons c cs ih =>
    have hc : isSpacing c := h c List.mem_cons_self
    cases cs with
    | nil =>
      have hspace : isSpacing ' ' := rfl
      rw [List.singleton_append, collapse, collapse, if_pos hc, if_pos hspace]
    | cons d ds =>
      have htail : ∀ e ∈ d :: ds, isSpacing e := fun e he => h e (List.mem_cons_of_mem c he)
      have hstart : startsSpaced (d :: ds ++ behind) := htail d List.mem_cons_self
      rw [List.cons_append, collapse_cons_of_spacing hc hstart]
      exact ih (List.cons_ne_nil d ds) htail

theorem head?_collapse_of_not_startsSpaced {text : Text} (h : ¬ startsSpaced text) :
    (collapse text).head? = text.head? := by
  cases text with
  | nil => rfl
  | cons c cs =>
    rw [collapse_cons_of_not_spacing h]
    rfl

/-- Only a space is affected by the character in front of the text. -/
theorem closeUp_eq_of_head {text : Text} (h : text.head? ≠ some ' ') (p q : Option Char) :
    closeUp p text = closeUp q text := by
  cases text with
  | nil => rfl
  | cons c cs =>
    have hc : c ≠ ' ' := fun hc => h (by rw [hc]; rfl)
    rw [closeUp, closeUp, if_neg fun hspace => hc hspace.1, if_neg fun hspace => hc hspace.1]

/-- What is left of a text behind another one depends on its first character and on itself. -/
theorem closeUp_append_congr {a b : Text} (hhead : a.head? = b.head?)
    (h : ∀ p, closeUp p a = closeUp p b) (before : Text) (p : Option Char) :
    closeUp p (before ++ a) = closeUp p (before ++ b) := by
  induction before generalizing p with
  | nil => exact h p
  | cons c cs ih =>
    have hcs : (cs ++ a).head? = (cs ++ b).head? := by
      cases cs with
      | nil => exact hhead
      | cons d ds => rfl
    rw [List.cons_append, List.cons_append, closeUp, closeUp, hcs, ih]

theorem closeUp_open_collapse {text : Text} (h : ∀ c ∈ text, isSpacing c) (behind : Text) :
    closeUp (some '(') (collapse (text ++ behind)) = closeUp (some '(') (collapse behind) := by
  cases text with
  | nil => rfl
  | cons c cs =>
    rw [collapse_spacing_append (List.cons_ne_nil c cs) h]
    by_cases hstart : startsSpaced behind
    · rw [collapse_cons_of_spacing (by decide) hstart]
    · have hhead : (collapse behind).head? ≠ some ' ' := by
        rw [head?_collapse_of_not_startsSpaced hstart]
        intro hspace
        exact hstart (by rw [startsSpaced, hspace]; rfl)
      rw [collapse_cons_of_not_startsSpaced (by decide) hstart, closeUp,
        if_pos ⟨rfl, Or.inl rfl⟩, closeUp_eq_of_head hhead]

/-- A space in front of a closing parenthesis is left out, if it does not belong to a run of them
in front of it already. -/
theorem closeUp_collapse_close (behind before : Text) (p : Option Char) :
    closeUp p (collapse (before ++ (' ' :: ')' :: behind))) =
      closeUp p (collapse (before ++ (')' :: behind))) := by
  have hclose : ¬ isSpacing ')' := by decide
  have hstart : ¬ startsSpaced (')' :: behind) := hclose
  have hspace : collapse (' ' :: ')' :: behind) = ' ' :: collapse (')' :: behind) :=
    collapse_cons_of_not_startsSpaced rfl hstart
  induction before generalizing p with
  | nil =>
    rw [List.nil_append, List.nil_append, hspace, collapse_cons_of_not_spacing hclose, closeUp,
      if_pos ⟨rfl, Or.inr rfl⟩]
    exact closeUp_eq_of_head (by simp) _ _
  | cons c cs ih =>
    rw [List.cons_append, List.cons_append]
    by_cases hc : isSpacing c
    · cases cs with
      | nil =>
        have hnext : startsSpaced (' ' :: ')' :: behind) := rfl
        rw [List.nil_append, List.nil_append, collapse_cons_of_spacing hc hnext, hspace,
          collapse_cons_of_not_startsSpaced hc hstart]
      | cons d ds =>
        rw [List.cons_append, List.cons_append] at ih ⊢
        by_cases hd : isSpacing d
        · have hnext : ∀ t : Text, startsSpaced (d :: t) := fun _ => hd
          rw [collapse_cons_of_spacing hc (hnext _), collapse_cons_of_spacing hc (hnext _)]
          exact ih p
        · have hnext : ∀ t : Text, ¬ startsSpaced (d :: t) := fun _ => hd
          rw [collapse_cons_of_not_startsSpaced hc (hnext _),
            collapse_cons_of_not_startsSpaced hc (hnext _), closeUp, closeUp,
            head?_collapse_of_not_startsSpaced (hnext _),
            head?_collapse_of_not_startsSpaced (hnext _), ih]
          rfl
    · have hc' : c ≠ ' ' := fun h => hc (h ▸ rfl)
      rw [collapse_cons_of_not_spacing hc, collapse_cons_of_not_spacing hc, closeUp, closeUp,
        if_neg fun h => hc' h.1, if_neg fun h => hc' h.1, ih]

/-! ### Parts of texts -/

/-- One text can stand for another one without changing the normal spacing of what is around. -/
def SameSpacing (a b : Text) : Prop :=
  ∀ before behind : Text,
    normalSpacing (before ++ (a ++ behind)) = normalSpacing (before ++ (b ++ behind))

namespace SameSpacing

variable {a b c d : Text}

theorem normalSpacing_eq (h : SameSpacing a b) : normalSpacing a = normalSpacing b := by
  simpa only [List.nil_append, List.append_nil] using h [] []

theorem refl (a : Text) : SameSpacing a a := fun _ _ => rfl

theorem trans (h : SameSpacing a b) (h' : SameSpacing b c) : SameSpacing a c :=
  fun before behind => (h before behind).trans (h' before behind)

theorem append (h : SameSpacing a b) (h' : SameSpacing c d) :
    SameSpacing (a ++ c) (b ++ d) := by
  intro before behind
  calc normalSpacing (before ++ (a ++ c ++ behind))
      = normalSpacing (before ++ (a ++ (c ++ behind))) := by rw [List.append_assoc a]
    _ = normalSpacing (before ++ (b ++ (c ++ behind))) := h before (c ++ behind)
    _ = normalSpacing (before ++ b ++ (c ++ behind)) := by rw [List.append_assoc before]
    _ = normalSpacing (before ++ b ++ (d ++ behind)) := h' (before ++ b) behind
    _ = normalSpacing (before ++ (b ++ d ++ behind)) := by simp only [List.append_assoc]

theorem cons (e : Char) (h : SameSpacing a b) : SameSpacing (e :: a) (e :: b) :=
  (refl [e]).append h

theorem intercalate (separator : Text) {texts texts' : List Text}
    (h : List.Forall₂ SameSpacing texts texts') :
    SameSpacing (separator.intercalate texts) (separator.intercalate texts') := by
  induction h with
  | nil => exact refl _
  | cons hfirst hrest ih =>
    cases hrest with
    | nil => simpa using hfirst
    | cons _ _ =>
      rw [List.intercalate_cons_cons, List.intercalate_cons_cons]
      exact (hfirst.append (refl separator)).append ih

/-- Spaces and line breaks are the same as one space. -/
theorem spacing {text : Text} (hne : text ≠ []) (h : ∀ c ∈ text, isSpacing c) :
    SameSpacing text [' '] := by
  intro before behind
  refine congrArg (closeUp none)
    (collapse_append_congr ?_ (collapse_spacing_append hne h behind) before)
  obtain ⟨c, cs, rfl⟩ := List.exists_cons_of_ne_nil hne
  exact h c List.mem_cons_self

/-- Spacing behind an opening parenthesis does not count. -/
theorem behind_open {text : Text} (h : ∀ c ∈ text, isSpacing c) :
    SameSpacing ('(' :: text) ['('] := by
  intro before behind
  have hopen : ¬ isSpacing '(' := by decide
  rw [normalSpacing, normalSpacing, List.cons_append, List.singleton_append,
    collapse_append_of_not_spacing hopen, collapse_append_of_not_spacing hopen]
  refine closeUp_append_congr (a := '(' :: collapse (text ++ behind))
    (b := '(' :: collapse behind) rfl (fun p => ?_) (collapse before) none
  have hspace : ¬ '(' = ' ' := by decide
  rw [closeUp, closeUp, if_neg fun h => hspace h.1, if_neg fun h => hspace h.1,
    closeUp_open_collapse h]

/-- Spacing in front of a closing parenthesis does not count. -/
theorem before_close {text : Text} (h : ∀ c ∈ text, isSpacing c) :
    SameSpacing (text ++ [')']) [')'] := by
  cases text with
  | nil => exact refl _
  | cons c cs =>
    refine ((spacing (List.cons_ne_nil c cs) h).append (refl [')'])).trans fun before behind => ?_
    exact closeUp_collapse_close behind before none

end SameSpacing

example : normalSpacing "(\n    a\n)  +\n\nb".toList = "(a) + b".toList := by decide

end PromQL

import Mathlib
import PromQL.Expr.Layout
import PromQL.Proofs.Expr.Assembly
import PromQL.Proofs.Expr.Shape
import PromQL.Proofs.Token.Indentation

/-!
# Layouts with more or less indentation

How far a level is indented says only how many spaces stand behind the line breaks of a layout, and
no line break is in a string. So the lexer reads the same tokens in all layouts of an expression.
-/

namespace PromQL

/-! ### Parts of texts -/

/-- One text can stand for another one without changing more than the indentation. -/
def SameLines (a b : Text) : Prop :=
  ∀ before behind : Text, unindent (before ++ (a ++ behind)) = unindent (before ++ (b ++ behind))

namespace SameLines

variable {a b c d left left' right right' inner inner' : Text} {indent indent' : Nat}

theorem refl (a : Text) : SameLines a a := fun _ _ => rfl

theorem append (h : SameLines a b) (h' : SameLines c d) : SameLines (a ++ c) (b ++ d) := by
  intro before behind
  calc unindent (before ++ (a ++ c ++ behind))
      = unindent (before ++ (a ++ (c ++ behind))) := by rw [List.append_assoc a]
    _ = unindent (before ++ (b ++ (c ++ behind))) := h before (c ++ behind)
    _ = unindent (before ++ b ++ (c ++ behind)) := by rw [List.append_assoc before]
    _ = unindent (before ++ b ++ (d ++ behind)) := h' (before ++ b) behind
    _ = unindent (before ++ (b ++ d ++ behind)) := by simp only [List.append_assoc]

theorem intercalate (separator : Text) {texts texts' : List Text}
    (h : List.Forall₂ SameLines texts texts') :
    SameLines (separator.intercalate texts) (separator.intercalate texts') := by
  induction h with
  | nil => exact refl _
  | cons hfirst hrest ih =>
    cases hrest with
    | nil => simpa using hfirst
    | cons _ _ =>
      rw [List.intercalate_cons_cons, List.intercalate_cons_cons]
      exact (hfirst.append (refl separator)).append ih

/-- A line break and the indentation behind it. -/
theorem lineBreak (indent indent' depth : Nat) :
    SameLines ('\n' :: indentation indent depth) ('\n' :: indentation indent' depth) := by
  intro before behind
  simp only [unindent, List.cons_append, unindentFrom_append_lineBreak, indentation,
    unindentFrom_replicate_append]

theorem binaryLayout (m : BinaryModifiers) (op : BinaryOp) (depth : Nat)
    (hleft : SameLines left left') (hright : SameLines right right') :
    SameLines (m.layout op (indentation indent depth) left right)
      (m.layout op (indentation indent' depth) left' right') := by
  have hbreak := hleft.append (lineBreak indent indent' depth)
  have hline (gap : Text) :=
    (hbreak.append (refl (m.operatorText op true))).append ((refl gap).append hright)
  have hblank := refl "\n\n".toList
  have hclause := refl ((m.matchingText?.map ("\n\n".toList ++ ·)).getD [])
  have hoperator := (hleft.append hblank).append (refl (m.operatorText op false))
  have hset := ((hoperator.append hclause).append hblank).append hright
  cases op
  case and | or => exact hset
  case div | sub => simpa [BinaryModifiers.layout] using hline ['\n']
  case equal | notEqual | greater | less | greaterEqual | lessEqual =>
    simpa [BinaryModifiers.layout] using hline [' ']
  all_goals exact (hleft.append (refl _)).append ((refl [' ']).append hright)

theorem parens (depth : Nat) (h : SameLines inner inner') :
    SameLines
      ("(\n".toList ++ indentation indent (depth + 1) ++ inner ++
        '\n' :: indentation indent depth ++ [')'])
      ("(\n".toList ++ indentation indent' (depth + 1) ++ inner' ++
        '\n' :: indentation indent' depth ++ [')']) := by
  have hopen := (refl ['(']).append (lineBreak indent indent' (depth + 1))
  have hclose := (lineBreak indent indent' depth).append (refl [')'])
  simpa using (hopen.append h).append hclose

theorem call (function : Text) {texts texts' : List Text}
    (h : List.Forall₂ SameLines texts texts') :
    SameLines (callText function texts) (callText function texts') := by
  have harguments := (intercalate ", ".toList h).append (refl [')'])
  simpa [callText] using (refl function).append ((refl ['(']).append harguments)

end SameLines

namespace Expr

mutual

/-- Layouts differ in their indentation only. -/
theorem sameLines_layout (indent indent' depth : Nat) :
    ∀ e : Expr, SameLines (e.layout indent depth) (e.layout indent' depth)
  | number _ | string _ | vector _ | matrix .. | subquery .. | negate _ | extension _ => .refl _
  | paren inner => .parens depth (sameLines_layout indent indent' (depth + 1) inner)
  | call function arguments =>
    .call function (sameLines_layouts indent indent' (depth + 1) arguments)
  | aggregate _ _ _ inner =>
    ((SameLines.refl _).append (sameLines_layout indent indent' depth inner)).append (.refl [')'])
  | binary op modifiers left right =>
    .binaryLayout modifiers op depth (sameLines_layout indent indent' depth left)
      (sameLines_layout indent indent' depth right)

theorem sameLines_layouts (indent indent' depth : Nat) :
    ∀ es : List Expr,
      List.Forall₂ SameLines (layouts indent depth es) (layouts indent' depth es)
  | [] => .nil
  | e :: es =>
    .cons (sameLines_layout indent indent' depth e) (sameLines_layouts indent indent' depth es)

end

end Expr

/-! ### Strings on single lines -/

open Reader (run?_cons run?_append_of_some run?_of_forall)

/-- The text of an expression as one of characters and quoted texts. -/
theorem Assembled.composed {isGap : Char → Bool} {p : Text → Prop} {t : Text}
    (h : Assembled isGap p t) :
    Composed (fun c => isInline c || isGap c || c == '[' || c == ']') p t := by
  have hinline : ∀ {t}, Inline p t →
      Composed (fun c => isInline c || isGap c || c == '[' || c == ']') p t :=
    fun h => h.mono fun c hc => by simp [hc]
  have hgaps : ∀ {t : Text}, t.all isGap →
      Composed (fun c => isInline c || isGap c || c == '[' || c == ']') p t :=
    fun h => .of_forall fun c hc => by simp [List.all_eq_true.mp h c hc]
  induction h with
  | inline h => exact hinline h
  | negated _ ih => exact ih.cons rfl
  | ranged m _ hrange ih =>
    rw [List.append_assoc]
    exact ih.append (((hinline hrange).append
      ((hinline (Inline.modifiers m)).cons (by simp))).cons (by simp))
  | enclosed _ _ hlead hopening hclosing _ ih =>
    have hcomma : Inline p ", ".toList := .of_all (by decide)
    have harguments := Composed.intercalate (hinline hcomma) ih
    have hparen : Inline p [')'] := .of_all (by decide)
    simp only [List.append_assoc, List.cons_append]
    exact (hinline hlead).append (((hgaps hopening).append (harguments.append
      ((hgaps hclosing).append (hinline hparen)))).cons rfl)
  | operated op hgap hbehind _ _ ihleft ihright =>
    have hop : op.text.all isInline = true := by cases op <;> decide
    exact (((ihleft.append (hgaps hgap)).append (hinline (.of_all hop))).append
      (hbehind.mono fun c hc => by simp [hc])).append ihright

theorem isBareLabel_of_isPlainWord {name : Text} (h : IsPlainWord name) : isBareLabel name := by
  obtain ⟨hbare, hword⟩ := h
  have hcolon : ':' ∉ name := by
    intro hcolon
    simp only [Lexeme.ofWord, List.contains_iff_mem.mpr hcolon, if_true] at hword
    split at hword
    · cases hword
    · split_ifs at hword
  cases name with
  | nil => cases hbare
  | cons c cs =>
    rw [List.mem_cons, not_or] at hcolon
    simp only [isBareMetric, isName_cons, Bool.and_eq_true, Bool.or_eq_true, beq_iff_eq,
      List.all_eq_true] at hbare
    rw [isBareLabel, isName_cons, Bool.and_eq_true, List.all_eq_true]
    refine ⟨hbare.1.resolve_right (Ne.symm hcolon.1), fun d hd => ?_⟩
    exact (hbare.2 d hd).resolve_right (ne_of_mem_of_not_mem hd hcolon.2)

namespace Expr

mutual

/-- Expressions that are read are of the language alone, and have plain names of functions. -/
theorem Formed.textsAre : ∀ e : Expr, e.Formed → e.TextsAre fun _ => True
  | number _, _ => trivial
  | string _, _ => trivial
  | vector _, _ => fun _ _ => trivial
  | matrix .., _ => fun _ _ => trivial
  | subquery inner .., h => Formed.textsAre inner h.1
  | paren inner, h => Formed.textsAre inner h
  | negate inner, h => Formed.textsAre inner h.1
  | call _ arguments, h => ⟨isBareLabel_of_isPlainWord h.1, AllFormed.textsAre arguments h.2⟩
  | aggregate _ _ parameter inner, h =>
    ⟨fun _ _ _ _ => trivial, ParameterFormed.textsAre parameter h.2.2.1,
      Formed.textsAre inner h.2.2.2⟩
  | binary _ _ left right, h =>
    ⟨fun _ _ => trivial, Formed.textsAre left h.1, Formed.textsAre right h.2.1⟩

theorem AllFormed.textsAre : ∀ es : List Expr, AllFormed es → AllTextsAre (fun _ => True) es
  | [], _ => trivial
  | e :: es, h => ⟨Formed.textsAre e h.1, AllFormed.textsAre es h.2⟩

theorem ParameterFormed.textsAre :
    ∀ e : Option Expr, ParameterFormed e → OptionTextsAre (fun _ => True) e
  | none, _ => trivial
  | some e, h => Formed.textsAre e h

end

end Expr

end PromQL

import PromQL.Proofs.Expr.Legible
import PromQL.Proofs.Expr.Matchers

/-!
# Brackets and parentheses of written expressions

In the tokens of an expression every parenthesis has its partner. If the expression is legible, no
bracket stands in front of a colon either, so its text is scanned as its tokens.
-/

namespace PromQL

/-- Whether some bracket stands in front of a colon. -/
def Token.gapped : List Token → Bool
  | .leftBracket :: .colon :: _ => true
  | _ :: ts => gapped ts
  | [] => false

theorem Token.gapped_cons {t : Token} (h : t ≠ .leftBracket) (ts : List Token) :
    gapped (t :: ts) = gapped ts := by
  rw [gapped.eq_def]
  split
  · next heq =>
    cases heq
    exact absurd rfl h
  · next heq =>
    cases heq
    rfl
  · next heq => cases heq

theorem Token.gapped_bracket {t : Token} (h : t ≠ .colon) (ts : List Token) :
    gapped (.leftBracket :: t :: ts) = gapped (t :: ts) := by
  cases t <;> first | rfl | exact absurd rfl h

theorem Token.gapped_of_infix {ts : List Token} (h : [.leftBracket, .colon] <:+: ts) :
    gapped ts := by
  obtain ⟨before, behind, rfl⟩ := h
  induction before with
  | nil => rfl
  | cons t before ih =>
    rw [List.cons_append, List.cons_append, gapped.eq_def]
    split
    · rfl
    · next heq =>
      cases heq
      exact ih
    · next heq => cases heq

theorem Token.balanced_cons {t : Token} (hopen : t ≠ .leftParen) (hclose : t ≠ .rightParen)
    (n : Nat) (ts : List Token) : balanced n (t :: ts) = balanced n ts := by
  cases t <;> first | rfl | exact absurd rfl hopen | exact absurd rfl hclose

/-- Some tokens leave the parentheses and brackets of those behind them as they are. -/
structure Neat (ts : List Token) : Prop where
  balanced : ∀ n rest, Token.balanced n (ts ++ rest) = Token.balanced n rest
  gapped : ∀ rest, Token.gapped (ts ++ rest) = Token.gapped rest

namespace Neat

variable {ts us : List Token}

theorem nil : Neat [] := ⟨fun _ _ => rfl, fun _ => rfl⟩

theorem append (h : Neat ts) (h' : Neat us) : Neat (ts ++ us) := by
  constructor
  · intro n rest
    rw [List.append_assoc, h.balanced, h'.balanced]
  · intro rest
    rw [List.append_assoc, h.gapped, h'.gapped]

theorem cons {t : Token} (ht : t ≠ .leftParen ∧ t ≠ .rightParen ∧ t ≠ .leftBracket)
    (h : Neat ts) : Neat (t :: ts) := by
  obtain ⟨hopen, hclose, hbracket⟩ := ht
  constructor
  · intro n rest
    rw [List.cons_append, Token.balanced_cons hopen hclose, h.balanced]
  · intro rest
    rw [List.cons_append, Token.gapped_cons hbracket, h.gapped]

theorem of_forall (h : ∀ t ∈ ts, t ≠ .leftParen ∧ t ≠ .rightParen ∧ t ≠ .leftBracket) :
    Neat ts := by
  induction ts with
  | nil => exact nil
  | cons t ts ih =>
    exact cons (h t List.mem_cons_self) (ih fun u hu => h u (List.mem_cons_of_mem t hu))

theorem parens (h : Neat ts) : Neat (.leftParen :: (ts ++ [.rightParen])) := by
  constructor
  · intro n rest
    rw [List.cons_append, List.append_assoc, Token.balanced, h.balanced]
    rfl
  · intro rest
    rw [List.cons_append, List.append_assoc, Token.gapped_cons (by simp), h.gapped]
    exact Token.gapped_cons (by simp) rest

theorem bracket {t : Token} (ht : t ≠ .colon) (h : Neat (t :: ts)) :
    Neat (.leftBracket :: t :: ts) := by
  constructor
  · intro n rest
    exact h.balanced n rest
  · intro rest
    rw [List.cons_append, List.cons_append, Token.gapped_bracket ht]
    exact h.gapped rest

theorem intercalate {tss : List (List Token)} (h : ∀ ts ∈ tss, Neat ts) :
    Neat ([Token.comma].intercalate tss) := by
  induction tss with
  | nil => exact nil
  | cons ts tss ih =>
    have ih := ih fun us hus => h us (List.mem_cons_of_mem ts hus)
    cases tss with
    | nil =>
      rw [List.intercalate_singleton]
      exact h ts List.mem_cons_self
    | cons us tss =>
      rw [List.intercalate_cons_cons]
      exact ((h ts List.mem_cons_self).append (cons (by simp) nil)).append ih

theorem ofWord (w : Text) : Neat [Lexeme.ofWord w] := by
  apply cons _ nil
  unfold Lexeme.ofWord
  simp only
  split
  · simp
  · split
    · simp
    · split <;> simp

theorem signTokens (negative : Bool) : Neat (signTokens negative) := by
  cases negative
  · exact nil
  · exact cons (by simp) nil

theorem doubleTokens (v : Double) : Neat v.tokens := by
  apply of_forall
  cases v with
  | nan => simp [Double.tokens]
  | infinite negative => simp [Double.tokens]
  | finite negative rank => cases negative <;> simp [Double.tokens, PromQL.signTokens]

theorem placesTokens (v : Double) : Neat v.placesTokens := by
  obtain ⟨negative, text, htokens, -⟩ := Grammar.exists_placesTokens v
  rw [htokens]
  exact (signTokens negative).append (cons (by simp) nil)

theorem durationTokens (d : Duration) : Neat d.tokens := by
  unfold Duration.tokens
  split
  · exact nil
  · exact cons (by simp) nil

theorem modifiersTokens (m : Modifiers) : Neat m.tokens := by
  obtain ⟨time, offset⟩ := m
  apply append
  · cases time with
    | none => exact nil
    | some t =>
      cases t with
      | queryStart => exact cons (by simp) (cons (by simp) (parens nil))
      | queryEnd => exact cons (by simp) (cons (by simp) (parens nil))
      | epoch t => exact cons (by simp) (placesTokens _)
  · cases offset with
    | none => exact nil
    | some o => exact cons (by simp) ((signTokens _).append (durationTokens _))

theorem labelsTokens (names : List Text) : Neat (labelsTokens names) := by
  rw [PromQL.labelsTokens, List.cons_append]
  apply parens
  apply intercalate
  intro ts hts
  obtain ⟨name, -, rfl⟩ := List.mem_map.mp hts
  unfold labelToken
  split
  · exact ofWord name
  · exact cons (by simp [quotedToken]) nil

theorem groupingTokens (g : Option LabelChoice) :
    Neat ((g.map LabelChoice.groupingTokens).getD []) := by
  cases g with
  | none => exact nil
  | some c => cases c <;> exact cons (by simp) (labelsTokens _)

theorem operatorTokens (m : BinaryModifiers) : Neat m.tokens := by
  obtain ⟨returnBool, matching, grouping⟩ := m
  apply append
  · cases returnBool
    · exact nil
    · exact cons (by simp) nil
  · apply append
    · cases matching with
      | none => exact nil
      | some c => cases c <;> exact cons (by simp) (labelsTokens _)
    · cases grouping with
      | none => exact nil
      | some g =>
        apply cons (by simp)
        split
        · exact nil
        · exact labelsTokens _

theorem operatorToken (op : BinaryOp) (h : Neat ts) : Neat (op.token :: ts) := by
  apply cons _ h
  cases op <;> simp [BinaryOp.token]

theorem selectorTokens (s : Selector) : Neat s.tokens := by
  apply append
  · cases s.name with
    | none => exact nil
    | some name => exact ofWord name
  · apply of_forall
    intro t ht
    have hin := Matchers.isInner_of_mem_tokens ht
    cases t <;> first | cases hin; done | simp

end Neat

namespace Expr

mutual

/-- What is written of an expression is neat if it can be read. -/
theorem neat (e : Expr) (h : e.Legible .readable) : Neat e.tokens := by
  have hrange {d : Duration} (hd : d.reread.isSome) (ts : List Token) (hts : Neat ts) :
      Neat (.leftBracket :: (d.tokens ++ ts)) := by
    rw [Duration.tokens, if_neg (Duration.text_ne_nil_of_reread hd)]
    exact .bracket (by simp) (.cons (by simp) hts)
  match e with
  | number v => exact .doubleTokens v
  | string v => exact .cons (by simp [quotedToken]) .nil
  | vector s => exact (Neat.selectorTokens s).append (.modifiersTokens _)
  | matrix s range =>
    exact (Neat.selectorTokens s).append
      (hrange h.2 _ (.cons (by simp) (.modifiersTokens _)))
  | subquery inner range step modifiers =>
    obtain ⟨hinner, hd, -, -⟩ := h
    have hstep : Neat ((step.map Duration.tokens).getD []) := by
      cases step with
      | none => exact .nil
      | some s => exact .durationTokens s
    exact (neat inner hinner).append (hrange hd _ (.cons (by simp)
      (hstep.append (.cons (by simp) (.modifiersTokens _)))))
  | paren inner => exact (neat inner h).parens
  | negate inner => exact .cons (by simp) (neat inner h)
  | call function arguments =>
    rw [tokens, tokensOf_eq_map]
    refine (Neat.ofWord function).append (Neat.parens (.intercalate ?_))
    exact List.forall_mem_map.mpr (allNeat arguments h)
  | aggregate op grouping none inner =>
    exact .cons (by simp) ((Neat.groupingTokens grouping).append (neat inner h.2.2).parens)
  | aggregate op grouping (some p) inner =>
    have hp := (neat p h.2.1).append (.cons (t := .comma) (by simp) .nil)
    have hinner := (hp.append (neat inner h.2.2)).parens
    rw [List.append_assoc] at hinner
    exact .cons (by simp) ((Neat.groupingTokens grouping).append hinner)
  | binary op modifiers left right =>
    exact (neat left h.1).append
      (.operatorToken op ((Neat.operatorTokens modifiers).append (neat right h.2.1)))

theorem allNeat (es : List Expr) (h : AllLegible .readable es) : ∀ e ∈ es, Neat e.tokens := by
  match es with
  | [] => simp
  | e :: es => exact List.forall_mem_cons.mpr ⟨neat e h.1, allNeat es h.2⟩

end

end Expr

end PromQL

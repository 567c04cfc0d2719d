import Mathlib
import PromQL.Proofs.Expr.Spelling
import PromQL.Proofs.Label.Forms
import PromQL.Proofs.Template.Agreement

/-!
# Forms of matchers in order

Matchers are sorted with placeholders in them. If all of them are settled, they come into the same
order with one numbering of the placeholders and with another, so the variables are put back into
the same text.
-/

namespace PromQL

/-! ### Settled texts -/

theorem IsSettled.symm {x y : Text} (h : IsSettled x y) : IsSettled y x := by
  induction x generalizing y with
  | nil => exact isSettled_nil y
  | cons c cs ih =>
    cases y with
    | nil => trivial
    | cons d ds =>
      rintro rfl
      obtain ⟨hdollar, hrest⟩ := h rfl
      exact ⟨fun hd => (hdollar hd).symm, ih hrest⟩

instance : Std.Symm Matcher.Settled where
  symm m k h := by
    rcases h with rfl | ⟨hname, hvalue⟩
    · exact .inl rfl
    · exact .inr ⟨hname.symm, fun h h' => (hvalue h.symm h'.symm).symm⟩

/-! ### Sorting -/

theorem exists_of_forall₂ {α β : Type} {F : α → β → Prop} {xs : List α} {as : List β}
    (h : List.Forall₂ F xs as) : ∀ x ∈ xs, ∃ a ∈ as, F x a := by
  induction h with
  | nil => exact List.forall_mem_nil _
  | cons hx _ ih =>
    refine List.forall_mem_cons.mpr ⟨⟨_, List.mem_cons_self, hx⟩, fun y hy => ?_⟩
    obtain ⟨b, hb, hyb⟩ := ih y hy
    exact ⟨b, List.mem_cons_of_mem _ hb, hyb⟩

/-- What holds of the pairs of a list holds of those of a list beside it. -/
theorem pairwise_of_forall₂ {α β : Type} {F : α → β → Prop} {R : β → β → Prop} {xs : List α}
    {as : List β} (h : List.Forall₂ F xs as) (has : as.Pairwise R) :
    xs.Pairwise fun x y => ∃ a b, F x a ∧ F y b ∧ R a b := by
  induction h with
  | nil => exact .nil
  | @cons x a xs as hx hxs ih =>
    obtain ⟨ha, has⟩ := List.pairwise_cons.mp has
    refine List.pairwise_cons.mpr ⟨fun y hy => ?_, ih has⟩
    obtain ⟨b, hb, hyb⟩ := exists_of_forall₂ hxs y hy
    exact ⟨a, b, hx, hyb, ha b hb⟩

namespace MatcherForms

open Placeholders

variable {n : Nat} {vs vs' : List Text} {ms ms' as as' : List Matcher} {m a : Matcher}

/-- A matcher with placeholders for its variables. -/
abbrev IsForm (n : Nat) (vs : List Text) (m a : Matcher) : Prop := MatcherForms n vs vs m a a

/-- Whether a matcher comes before another one with placeholders, or is the same. -/
def Before (n : Nat) (vs : List Text) (m k : Matcher) : Prop :=
  m = k ∨ ∃ a b, IsForm n vs m a ∧ IsForm n vs k b ∧ Matcher.le a b

/-- Settled matchers are sorted alike with one numbering and with the other. -/
theorem exists_sort (hperm : ms.Perm ms') (h : List.Forall₂ (IsForm n vs) ms as)
    (h' : List.Forall₂ (IsForm n vs') ms' as') (hcount : vs.length ≤ wordCount)
    (hsettled : ms.Pairwise Matcher.Settled) :
    ∃ ks, List.Forall₂ (IsForm n vs) ks (Matcher.sort as) ∧
      List.Forall₂ (IsForm n vs') ks (Matcher.sort as') := by
  have hall : ∀ m ∈ ms, ∀ k ∈ ms, m.Settled k := fun m hm k hk =>
    hsettled.forall_of_forall (fun _ _ => .inl rfl) hm hk
  obtain ⟨ks, hks, hsorted⟩ := List.perm_comp_forall₂ (Matcher.sort_perm as) h.flip
  obtain ⟨ks', hks', hsorted'⟩ := List.perm_comp_forall₂ (Matcher.sort_perm as') h'.flip
  have hperm' := hsorted'.trans hperm.symm
  -- both lists are in the order of the first numbering
  have hpairs : ks.Pairwise (Before n vs) :=
    (pairwise_of_forall₂ hks.flip (Matcher.pairwise_sort as)).imp .inr
  have hpairs' : ks'.Pairwise (Before n vs) := by
    refine (pairwise_of_forall₂ hks'.flip (Matcher.pairwise_sort as')).imp_of_mem ?_
    rintro m k hm hk ⟨a', b', ha', hb', hle⟩
    refine (hall m (hperm'.subset hm) k (hperm'.subset hk)).imp_right fun hapart => ?_
    obtain ⟨a, -, ha⟩ := exists_of_forall₂ h m (hperm'.subset hm)
    obtain ⟨b, -, hb⟩ := exists_of_forall₂ h k (hperm'.subset hk)
    have hcompare := (ha.merge ha').compare_eq (hb.merge hb') hcount hapart
    exact ⟨a, b, ha, hb, by rwa [Matcher.le, hcompare]⟩
  have heq : ks = ks' := by
    refine List.Perm.eq_of_pairwise (fun m k hm hk hmk hkm => ?_) hpairs hpairs'
      (hsorted.trans hperm'.symm)
    rcases hmk with rfl | ⟨a, b, ha, hb, hle⟩
    · rfl
    rcases hkm with heq | ⟨b₂, a₂, hb₂, ha₂, hle₂⟩
    · exact heq.symm
    rcases hall m (hsorted.subset hm) k (hperm'.subset hk) with rfl | hapart
    · rfl
    have hcompare := (ha.merge ha₂).compare_eq (hb.merge hb₂) hcount hapart
    have hle₁ : Matcher.le a₂ b₂ := by rwa [Matcher.le, ← hcompare]
    obtain rfl : a₂ = b₂ := Std.Antisymm.antisymm a₂ b₂ hle₁ hle₂
    exact ha₂.inj hb₂ hcount
  subst heq
  exact ⟨ks, hks.flip, hks'.flip⟩

/-! ### Writing -/

theorem written_cons_cons (a b : Matcher) (as : List Matcher) :
    Matchers.written (a :: b :: as) = a.text ++ ',' :: Matchers.written (b :: as) := by
  rw [Matchers.written, List.map_cons, List.map_cons, List.intercalate_cons_cons]
  simp [Matchers.written]

/-- Matchers are written with the same variables, with one numbering and with the other. -/
theorem unmask_written {ks : List Matcher} (h : List.Forall₂ (IsForm n vs) ks as)
    (h' : List.Forall₂ (IsForm n vs') ks as') (hcount : vs.length ≤ wordCount)
    (hcount' : vs'.length ≤ wordCount) :
    (Placeholders.mk (stemOf n) vs).unmask (Matchers.written as) =
      (Placeholders.mk (stemOf n) vs').unmask (Matchers.written as') := by
  induction h generalizing as' with
  | nil =>
    cases h'
    have hnil : Matchers.written [] = [] := rfl
    rw [hnil, unmask_nil rfl, unmask_nil rfl]
  | cons hk hks ih =>
    obtain _ | ⟨hk', hks'⟩ := h'
    have hfirst := (hk.merge hk').unmask_text hcount hcount'
    have hrest := ih hks'
    cases hks with
    | nil =>
      cases hks'
      simpa [Matchers.written] using hfirst
    | cons =>
      obtain _ | _ := hks'
      rw [written_cons_cons, written_cons_cons, unmask_append_cons rfl (by decide),
        unmask_append_cons rfl (by decide), hfirst, hrest]

end MatcherForms

end PromQL

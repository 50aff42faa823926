import Mathlib.Data.List.Forall2

/-!
# Computations that do at least as much

A computation refines another one if it has a value wherever that one has, and a related one. What
is not defined refines to anything, so that a step may be left out which could fail.
-/

namespace BossOptimizer

variable {α β γ δ : Type*} {P : α → β → Prop} {Q : γ → δ → Prop}

/-- Where the first computation has a value, the second one has a related value. -/
def Refines (P : α → β → Prop) (o : Option α) (o' : Option β) : Prop :=
  ∀ a, o = some a → ∃ b, o' = some b ∧ P a b

namespace Refines

theorem of_eq_none {o' : Option β} : Refines P none o' := fun _ h => nomatch h

theorem intro {a : α} {b : β} (h : P a b) : Refines P (some a) (some b) := by
  rintro _ ⟨⟩
  exact ⟨b, rfl, h⟩

theorem of_eq {o o' : Option α} (h : o = o') : Refines Eq o o' := by
  rintro a rfl
  exact ⟨a, h.symm, rfl⟩

theorem mono {P' : α → β → Prop} {o : Option α} {o' : Option β} (h : Refines P o o')
    (himp : ∀ a b, P a b → P' a b) : Refines P' o o' := by
  intro a ha
  obtain ⟨b, hb, hP⟩ := h a ha
  exact ⟨b, hb, himp a b hP⟩

/-- Refinement composes along the steps. -/
theorem bind {o : Option α} {o' : Option β} {f : α → Option γ} {f' : β → Option δ}
    (h : Refines P o o') (hf : ∀ a b, P a b → Refines Q (f a) (f' b)) :
    Refines Q (o.bind f) (o'.bind f') := by
  intro c hc
  obtain ⟨a, ha, hfa⟩ := Option.bind_eq_some_iff.1 hc
  obtain ⟨b, hb, hP⟩ := h a ha
  obtain ⟨d, hd, hQ⟩ := hf a b hP c hfa
  exact ⟨d, Option.bind_eq_some_iff.2 ⟨b, hb, hd⟩, hQ⟩

/-- Step by step over two lists. -/
theorem mapM {as : List α} {bs : List β} {f : α → Option γ} {f' : β → Option δ}
    (h : List.Forall₂ P as bs) (hf : ∀ a b, P a b → Refines Q (f a) (f' b)) :
    Refines (List.Forall₂ Q) (as.mapM f) (bs.mapM f') := by
  induction h with
  | nil => exact intro .nil
  | cons hab _ ih =>
    rw [List.mapM_cons, List.mapM_cons]
    refine bind (hf _ _ hab) fun c d hcd => bind ih fun cs ds hcds => ?_
    exact intro (.cons hcd hcds)

end Refines

end BossOptimizer

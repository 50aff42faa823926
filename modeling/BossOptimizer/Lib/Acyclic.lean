import Mathlib.Data.Set.Card

/-!
# Acyclic relations

An acyclic relation with finitely many targets has a rank that every step lowers: the number of
elements that can be reached.
-/

namespace BossOptimizer

variable {α : Type*} {R : α → α → Prop}

theorem exists_rank (hfin : {b | ∃ a, R a b}.Finite) (hac : ∀ a, ¬ Relation.TransGen R a a) :
    ∃ rank : α → ℕ, (∀ a b, R a b → rank b < rank a) ∧ ∀ a, rank a ≤ {b | ∃ a, R a b}.ncard := by
  have hsub : ∀ a, {b | Relation.TransGen R a b} ⊆ {b | ∃ a, R a b} := by
    intro a b hb
    obtain ⟨c, -, hcb⟩ := Relation.TransGen.tail'_iff.mp hb
    exact ⟨c, hcb⟩
  refine ⟨fun a => {b | Relation.TransGen R a b}.ncard, fun a b hab => ?_, fun a =>
    Set.ncard_le_ncard (hsub a) hfin⟩
  refine Set.ncard_lt_ncard ⟨fun c hbc => ?_, fun hall => ?_⟩ (hfin.subset (hsub a))
  · exact Relation.TransGen.head hab hbc
  · exact hac b (hall (show Relation.TransGen R a b from .single hab))

theorem acyclic_of_rank (rank : α → ℕ) (h : ∀ a b, R a b → rank b < rank a) (a : α) :
    ¬ Relation.TransGen R a a := by
  have hlt : ∀ b, Relation.TransGen R a b → rank b < rank a := by
    intro b hb
    induction hb with
    | single hab => exact h a _ hab
    | tail _ hbc ih => exact (h _ _ hbc).trans ih
  exact fun haa => lt_irrefl _ (hlt a haa)

/-- In a finite set that no element leads out of, every element leads to a cycle. -/
theorem exists_cycle {S : Set α} (hS : S.Finite) (hserial : ∀ a ∈ S, ∃ b ∈ S, R a b) {a : α}
    (ha : a ∈ S) : ∃ b, Relation.ReflTransGen R a b ∧ Relation.TransGen R b b := by
  by_contra hno
  push Not at hno
  -- the steps inside `S` from what `a` leads to
  let R' : α → α → Prop := fun x y => Relation.ReflTransGen R a x ∧ R x y ∧ y ∈ S
  have hfin : {y | ∃ x, R' x y}.Finite := hS.subset fun y ⟨_, _, _, hy⟩ => hy
  have hac : ∀ x, ¬ Relation.TransGen R' x x := by
    intro x hx
    obtain ⟨y, ⟨hax, _, _⟩, _⟩ := Relation.TransGen.head'_iff.mp hx
    exact hno x hax (Relation.TransGen.mono (fun _ _ h => h.2.1) _ _ hx)
  obtain ⟨rank, hrank, -⟩ := exists_rank hfin hac
  have hdescend : ∀ n x, rank x = n → x ∈ S → ¬ Relation.ReflTransGen R a x := by
    intro n
    induction n using Nat.strong_induction_on with
    | _ n ih =>
      rintro x rfl hx hax
      obtain ⟨y, hy, hxy⟩ := hserial x hx
      exact ih (rank y) (hrank x y ⟨hax, hxy, hy⟩) y rfl hy (hax.tail hxy)
  exact hdescend (rank a) a rfl ha .refl

end BossOptimizer

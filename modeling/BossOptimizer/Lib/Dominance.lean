import Mathlib.Order.Lattice
import Mathlib.Data.List.Basic

/-!
# Lists that keep what is not dominated

A front stands for everything offered to it: each offer is dominated by something kept. What a
domination cannot raise, such as a cost, has its minimum among the kept.
-/

namespace BossOptimizer.Dominance

variable {α C : Type} {dom : α → α → Prop}

variable (dom) in
/-- `kept` stands for `offered`. -/
structure Front (kept offered : List α) : Prop where
  subset : ∀ x ∈ kept, x ∈ offered
  dominated : ∀ x ∈ offered, ∃ y ∈ kept, dom y x

theorem Front.nil : Front dom [] [] := ⟨fun _ h => h, nofun⟩

/-- A new front that stands for the old one and for one more element. -/
theorem Front.snoc (htrans : ∀ x y z, dom x y → dom y z → dom x z) {kept kept' offered : List α}
    {new : α} (h : Front dom kept offered) (hsub : ∀ x ∈ kept', x ∈ kept ∨ x = new)
    (hdom : ∀ x, x ∈ kept ∨ x = new → ∃ y ∈ kept', dom y x) :
    Front dom kept' (offered ++ [new]) := by
  constructor
  · intro x hx
    rcases hsub x hx with hold | rfl
    · exact List.mem_append_left _ (h.subset x hold)
    · exact List.mem_append_right _ List.mem_cons_self
  · intro x hx
    rcases List.mem_append.1 hx with hold | hnew
    · obtain ⟨y, hy, hyx⟩ := h.dominated x hold
      obtain ⟨z, hz, hzy⟩ := hdom y (.inl hy)
      exact ⟨z, hz, htrans z y x hzy hyx⟩
    · exact hdom x (.inr (List.mem_singleton.1 hnew))

/-- A front is empty before the first offer only. -/
theorem Front.eq_nil_iff {kept offered : List α} (h : Front dom kept offered) :
    kept = [] ↔ offered = [] := by
  constructor
  · rintro rfl
    refine List.eq_nil_iff_forall_not_mem.2 fun x hx => ?_
    obtain ⟨y, hy, -⟩ := h.dominated x hx
    cases hy
  · rintro rfl
    exact List.eq_nil_iff_forall_not_mem.2 fun x hx => nomatch h.subset x hx

end BossOptimizer.Dominance

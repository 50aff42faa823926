import Mathlib.Data.Finset.Card

/-!
# Dense numberings

A list of `n` numbers that is an arrangement of `0 … n - 1`. Such a list can take the number `n` at
its end, and can give up only the number `n - 1`.
-/

namespace Numbering

variable {l : List ℕ} {x : ℕ}

/-- The numbers are pairwise different and below their count. -/
structure Dense (l : List ℕ) : Prop where
  nodup : l.Nodup
  lt : ∀ i ∈ l, i < l.length

theorem dense_nil : Dense [] := ⟨List.nodup_nil, by simp⟩

theorem Dense.concat (h : Dense l) : Dense (l ++ [l.length]) where
  nodup := List.nodup_append.2 ⟨h.nodup, List.nodup_singleton _, by
    rintro i hi j hj rfl
    exact absurd (h.lt i hi) (by simp_all)⟩
  lt i hi := by
    rcases List.mem_append.1 hi with hi | hi
    · exact (h.lt i hi).trans (by simp)
    · simp_all

theorem Dense.perm {l' : List ℕ} (h : Dense l) (hp : l.Perm l') : Dense l' where
  nodup := hp.nodup_iff.1 h.nodup
  lt i hi := hp.length_eq ▸ h.lt i (hp.mem_iff.2 hi)

/-- No number below the count is left out. -/
theorem Dense.mem (h : Dense l) {i : ℕ} (hi : i < l.length) : i ∈ l := by
  have hsub : l.toFinset ⊆ Finset.range l.length := fun j hj =>
    Finset.mem_range.2 (h.lt j (List.mem_toFinset.1 hj))
  have heq : l.toFinset = Finset.range l.length :=
    Finset.eq_of_subset_of_card_le hsub (by
      rw [Finset.card_range, List.toFinset_card_of_nodup h.nodup])
  exact List.mem_toFinset.1 (heq ▸ Finset.mem_range.2 hi)

/-- **Only the highest number can go.** -/
theorem Dense.erase_iff (h : Dense l) (hx : x ∈ l) :
    Dense (l.erase x) ↔ x + 1 = l.length := by
  have hlen : (l.erase x).length = l.length - 1 := List.length_erase_of_mem hx
  have hlt := h.lt x hx
  constructor
  · intro he
    by_contra hne
    have hlast : l.length - 1 ∈ l.erase x :=
      (List.mem_erase_of_ne (by omega)).2 (h.mem (by omega))
    have := he.lt _ hlast
    omega
  · intro hx1
    refine ⟨h.nodup.erase x, fun i hi => ?_⟩
    have hne : i ≠ x := fun hix => absurd (hix ▸ hi) (h.nodup.not_mem_erase)
    have := h.lt i (List.mem_of_mem_erase hi)
    omega

/-- The same of the elements that carry the numbers. -/
theorem Dense.map_erase_iff {α : Type} [DecidableEq α] {as : List α} {f : α → ℕ} {a : α}
    (h : Dense (as.map f)) (ha : a ∈ as) :
    Dense ((as.erase a).map f) ↔ f a + 1 = as.length := by
  have hperm : ((as.erase a).map f).Perm ((as.map f).erase (f a)) :=
    (List.cons_perm_iff_perm_erase.1 ((List.perm_cons_erase ha).symm.map f)).2
  rw [← List.length_map, ← h.erase_iff (List.mem_map_of_mem ha)]
  exact ⟨fun hd => hd.perm hperm, fun hd => hd.perm hperm.symm⟩

end Numbering

import Mathlib.Algebra.BigOperators.Group.Finset.Piecewise

/-!
# Counting

How many of the first `n` numbers have a property, and what a change at one number does to it.
-/

namespace BossOptimizer

/-- The numbers below `n` with property `p`. -/
def tally (n : ℕ) (p : ℕ → Bool) : ℕ := ∑ i ∈ Finset.range n, (p i).toNat

theorem tally_congr {n : ℕ} {p q : ℕ → Bool} (h : ∀ i < n, p i = q i) : tally n p = tally n q :=
  Finset.sum_congr rfl fun i hi => by rw [h i (Finset.mem_range.mp hi)]

@[simp] theorem tally_succ (n : ℕ) (p : ℕ → Bool) :
    tally (n + 1) p = tally n p + (p n).toNat := Finset.sum_range_succ _ n

/-- Two properties that agree except at `k`. -/
theorem tally_change {n k : ℕ} {p q : ℕ → Bool} (hk : k < n) (h : ∀ i < n, i ≠ k → p i = q i) :
    tally n p + (q k).toNat = tally n q + (p k).toNat := by
  have hmem : k ∈ Finset.range n := Finset.mem_range.mpr hk
  have hrest : ∑ i ∈ (Finset.range n).erase k, (p i).toNat =
      ∑ i ∈ (Finset.range n).erase k, (q i).toNat :=
    Finset.sum_congr rfl fun i hi => by
      rw [h i (Finset.mem_range.mp (Finset.mem_of_mem_erase hi)) (Finset.ne_of_mem_erase hi)]
  unfold tally
  rw [← Finset.add_sum_erase _ _ hmem, ← Finset.add_sum_erase _ _ hmem, hrest]
  omega

theorem tally_eq_zero {n : ℕ} {p : ℕ → Bool} : tally n p = 0 ↔ ∀ i < n, p i = false := by
  unfold tally
  rw [Finset.sum_eq_zero_iff]
  exact ⟨fun h i hi => by simpa using h i (Finset.mem_range.mpr hi),
    fun h i hi => by simp [h i (Finset.mem_range.mp hi)]⟩

theorem tally_pos {n : ℕ} {p : ℕ → Bool} : 0 < tally n p ↔ ∃ i < n, p i = true := by
  rw [Nat.pos_iff_ne_zero, Ne, tally_eq_zero]
  push Not
  simp

/-- A property that splits in two. -/
theorem tally_add {n : ℕ} {p q r : ℕ → Bool}
    (h : ∀ i < n, (p i).toNat = (q i).toNat + (r i).toNat) :
    tally n p = tally n q + tally n r := by
  unfold tally
  rw [← Finset.sum_add_distrib]
  exact Finset.sum_congr rfl fun i hi => h i (Finset.mem_range.mp hi)

/-- A list without repetitions counts its members. -/
theorem length_eq_tally {n : ℕ} {p : ℕ → Bool} {l : List ℕ} (hnd : l.Nodup)
    (h : ∀ i, i ∈ l ↔ i < n ∧ p i = true) : l.length = tally n p := by
  have hset : l.toFinset = (Finset.range n).filter fun i => p i = true := by
    ext i
    simp [h]
  rw [← List.toFinset_card_of_nodup hnd, hset, Finset.card_filter]
  exact Finset.sum_congr rfl fun i _ => by cases p i <;> rfl

end BossOptimizer

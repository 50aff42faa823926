import Mathlib.Data.Finset.Card

/-!
# Counting and scanning the bits of a word

`u &&& (u - 1)` clears the lowest set bit. `countLoop` counts by clearing, `skipZeros` looks for
the next set bit by shifting; both take fuel and need no more than the width of the word.
-/

namespace BossOptimizer

namespace Bits

/-- `n &&& (n - 1)` is `n` without its lowest set bit. -/
theorem exists_lowest_bit (n : ℕ) (hn : n ≠ 0) :
    ∃ k, n.testBit k = true ∧ ∀ i, (n &&& (n - 1)).testBit i = (n.testBit i && decide (i ≠ k)) := by
  induction n using Nat.strong_induction_on with
  | _ n ih =>
    obtain ⟨m, rfl | rfl⟩ : ∃ m, n = 2 * m ∨ n = 2 * m + 1 := ⟨n / 2, by omega⟩
    · -- an even word borrows from its upper half
      obtain ⟨k, hk, hclear⟩ := ih m (by omega) (by omega)
      refine ⟨k + 1, by simpa [Nat.testBit_succ] using hk, fun i => ?_⟩
      cases i with
      | zero => simp
      | succ i =>
        have hhalf : (2 * m - 1) / 2 = m - 1 := by omega
        have h := hclear i
        rw [Nat.testBit_and] at h ⊢
        simpa [Nat.testBit_succ, hhalf] using h
    · refine ⟨0, by simp, fun i => ?_⟩
      cases i with
      | zero => simp
      | succ i =>
        have hhalf : (2 * m + 1) / 2 = m := by omega
        rw [Nat.testBit_and]
        simp [Nat.testBit_succ, hhalf]

variable {w : ℕ}

theorem getLsbD_one_shiftLeft {j k : ℕ} (hj : j < w) :
    ((1 : BitVec w) <<< j).getLsbD k = decide (k = j) := by
  have hw : 0 < w := by omega
  rw [BitVec.getLsbD_shiftLeft]
  by_cases hk : k = j
  · simp [hk, hj, hw]
  · by_cases hlt : k < j
    · simp [hk, hlt]
    · have hsub : k - j ≠ 0 := by omega
      simp [hk, hsub]

theorem getLsbD_set (u : BitVec w) {j k : ℕ} (hj : j < w) :
    (u ||| (1 : BitVec w) <<< j).getLsbD k = (decide (k = j) || u.getLsbD k) := by
  rw [BitVec.getLsbD_or, getLsbD_one_shiftLeft hj, Bool.or_comm]

theorem getLsbD_clear (u : BitVec w) {j k : ℕ} (hj : j < w) :
    (u &&& ~~~((1 : BitVec w) <<< j)).getLsbD k = (!decide (k = j) && u.getLsbD k) := by
  rw [BitVec.getLsbD_and, BitVec.getLsbD_not, getLsbD_one_shiftLeft hj]
  by_cases hk : k < w
  · simp [hk, Bool.and_comm]
  · simp [BitVec.getLsbD_of_ge u k (by omega)]

theorem and_shiftLeft_one (u : BitVec w) {j : ℕ} (hj : j < w) :
    (u &&& (1 : BitVec w) <<< j != 0) = u.getLsbD j := by
  have hbit : ∀ k, (u &&& (1 : BitVec w) <<< j).getLsbD k = (u.getLsbD k && decide (k = j)) := by
    intro k
    rw [BitVec.getLsbD_and, getLsbD_one_shiftLeft hj]
  rw [Bool.eq_iff_iff, bne_iff_ne, ne_eq]
  constructor
  · intro h
    by_contra hj0
    apply h
    apply BitVec.eq_of_getLsbD_eq
    intro k _
    rw [hbit]
    by_cases hk : k = j
    · rw [hk, Bool.eq_false_iff.mpr hj0]
      simp
    · simp [hk]
  · intro hj1 h
    have h0 := hbit j
    rw [h] at h0
    simp [hj1] at h0

/-- The positions of the set bits. -/
def ones (u : BitVec w) : Finset ℕ := (Finset.range w).filter fun i => u.getLsbD i = true

theorem mem_ones {u : BitVec w} {i : ℕ} : i ∈ ones u ↔ u.getLsbD i = true := by
  simp only [ones, Finset.mem_filter, Finset.mem_range, and_iff_right_iff_imp]
  exact BitVec.lt_of_getLsbD

theorem ones_eq_empty {u : BitVec w} : ones u = ∅ ↔ u = 0 := by
  constructor
  · intro h
    apply BitVec.eq_of_getLsbD_eq
    intro i _
    have hi : i ∉ ones u := by simp [h]
    simpa [mem_ones] using hi
  · rintro rfl
    simp [ones]

theorem ones_clear_lowest {u : BitVec w} (hu : u ≠ 0) :
    ∃ k ∈ ones u, ones (u &&& (u - 1)) = (ones u).erase k := by
  have hnat : u.toNat ≠ 0 := fun h => hu (BitVec.eq_of_toNat_eq (by simpa using h))
  have hw : w ≠ 0 := by
    rintro rfl
    exact hu (Subsingleton.elim _ _)
  have hpred : (u - 1).toNat = u.toNat - 1 := by
    have hone : (1 : BitVec w).toNat = 1 := by
      simpa using Nat.mod_eq_of_lt (Nat.one_lt_two_pow hw)
    rw [BitVec.toNat_sub_of_le (by rw [BitVec.le_def, hone]; omega), hone]
  obtain ⟨k, hk, hclear⟩ := exists_lowest_bit u.toNat hnat
  refine ⟨k, mem_ones.mpr (by simpa [BitVec.testBit_toNat] using hk), ?_⟩
  ext i
  have h := hclear i
  rw [← hpred, ← BitVec.toNat_and, BitVec.testBit_toNat, BitVec.testBit_toNat] at h
  rw [mem_ones, h, Finset.mem_erase, mem_ones]
  simp [and_comm]

/-- The number of rounds of `u &= u - 1` until `u` is zero. -/
def countLoop : ℕ → BitVec w → ℕ
  | 0, _ => 0
  | fuel + 1, u => if u = 0 then 0 else countLoop fuel (u &&& (u - 1)) + 1

theorem countLoop_eq_card {fuel : ℕ} {u : BitVec w} (hfuel : (ones u).card ≤ fuel) :
    countLoop fuel u = (ones u).card := by
  induction fuel generalizing u with
  | zero => exact (Nat.le_zero.mp hfuel).symm
  | succ fuel ih =>
    by_cases hu : u = 0
    · rw [countLoop, if_pos hu, ones_eq_empty.mpr hu, Finset.card_empty]
    · obtain ⟨k, hk, herase⟩ := ones_clear_lowest hu
      have hcard := Finset.card_erase_of_mem hk
      have hpos := Finset.card_pos.mpr ⟨k, hk⟩
      rw [countLoop, if_neg hu, ih (by rw [herase]; omega), herase]
      omega

theorem card_ones_le (u : BitVec w) : (ones u).card ≤ w :=
  (Finset.card_filter_le _ _).trans (by simp)

/-- Shifts out zeros: the rest of the word from its next set bit, and the bit's position. -/
def skipZeros : ℕ → BitVec w → ℕ → BitVec w × ℕ
  | 0, u, bit => (u, bit)
  | fuel + 1, u, bit =>
    if u ≠ 0 ∧ u &&& 1 = 0 then skipZeros fuel (u >>> 1) (bit + 1) else (u, bit)

/-- What `skipZeros` finds from position `bit` of `u` on. -/
def NextBit (u : BitVec w) (bit : ℕ) (r : BitVec w × ℕ) : Prop :=
  (r.1 = 0 → ∀ i, bit ≤ i → u.getLsbD i = false) ∧
  (r.1 ≠ 0 → bit ≤ r.2 ∧ u.getLsbD r.2 = true ∧ ∀ i, bit ≤ i → i < r.2 → u.getLsbD i = false)

theorem and_one_eq_zero {u : BitVec w} : u &&& 1 = 0 ↔ u.getLsbD 0 = false := by
  constructor
  · intro h
    by_cases hw : 0 < w
    · have h0 : (u &&& 1).getLsbD 0 = false := by rw [h]; simp
      rw [BitVec.getLsbD_and] at h0
      simpa [hw] using h0
    · exact BitVec.getLsbD_of_ge _ _ (by omega)
  · intro h
    apply BitVec.eq_of_getLsbD_eq
    intro i hi
    rcases Nat.eq_zero_or_pos i with rfl | hpos
    · simp [h]
    · have hi0 : i ≠ 0 := by omega
      simp [hi0]

theorem skipZeros_next {fuel bit : ℕ} {u : BitVec w} (hfuel : w ≤ bit + fuel) :
    NextBit u bit (skipZeros fuel (u >>> bit) bit) := by
  have hzero : ∀ {bit}, u >>> bit = 0 → ∀ i, bit ≤ i → u.getLsbD i = false := by
    intro bit h i hi
    have h' : (u >>> bit).getLsbD (i - bit) = false := by simp [h]
    rw [BitVec.getLsbD_ushiftRight] at h'
    rwa [show bit + (i - bit) = i by omega] at h'
  induction fuel generalizing bit with
  | zero =>
    have h0 : u >>> bit = 0 := by
      apply BitVec.eq_of_getLsbD_eq
      intro i hi
      rw [BitVec.getLsbD_ushiftRight, BitVec.getLsbD_of_ge _ _ (by omega)]
      simp
    exact ⟨fun _ => hzero h0, fun h => absurd h0 h⟩
  | succ fuel ih =>
    have hshift : (u >>> bit) >>> 1 = u >>> (bit + 1) := by
      rw [BitVec.shiftRight_add]
    have hlow : (u >>> bit).getLsbD 0 = u.getLsbD bit := by simp
    rw [skipZeros]
    split
    · next h =>
      have hbit : u.getLsbD bit = false := by rw [← hlow]; exact and_one_eq_zero.mp h.2
      obtain ⟨h1, h2⟩ := ih (show w ≤ bit + 1 + fuel by omega)
      rw [← hshift] at h1 h2
      refine ⟨fun hr i hi => ?_, fun hr => ?_⟩
      · rcases Nat.eq_or_lt_of_le hi with rfl | hi
        · exact hbit
        · exact h1 hr i hi
      · obtain ⟨h3, h4, h5⟩ := h2 hr
        refine ⟨by omega, h4, fun i hi hlt => ?_⟩
        rcases Nat.eq_or_lt_of_le hi with rfl | hi
        · exact hbit
        · exact h5 i hi hlt
    · next h =>
      refine ⟨hzero, fun hr => ⟨le_rfl, ?_, fun i hi hlt => absurd hi (by omega)⟩⟩
      by_contra hbit
      refine h ⟨hr, and_one_eq_zero.mpr ?_⟩
      rw [hlow]
      simpa using hbit

end Bits

end BossOptimizer

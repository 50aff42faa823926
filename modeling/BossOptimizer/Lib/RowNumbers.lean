import Mathlib.Data.List.Count
import Mathlib.Data.List.Range
import Mathlib.Data.List.Perm.Basic

/-!
# Numbering the rows of each class

Rows with a key are numbered from 1 within their class, in any order. Matching the numbers of two
such lists pairs the rows of a class one to one: as many pairs as the smaller class has rows.
-/

namespace RowNumbers

variable {α β κ : Type*} [DecidableEq κ]

/-- The numbers within each class are `1 … n` in some order. -/
structure Numbers (key : β → κ) (rows : List β) (numbered : List (β × ℕ)) : Prop where
  perm : (numbered.map Prod.fst).Perm rows
  numbers : ∀ k, ((numbered.filter fun p => key p.1 = k).map Prod.snd).Perm
    (List.range' 1 (rows.countP fun b => key b = k))

namespace Numbers

variable {key : β → κ} {rows : List β} {numbered : List (β × ℕ)} {k : κ}

/-- A class has each number up to its size. -/
theorem exists_iff (h : Numbers key rows numbered) {i : ℕ} :
    (∃ p ∈ numbered, key p.1 = k ∧ p.2 = i) ↔ 1 ≤ i ∧ i ≤ rows.countP fun b => key b = k := by
  have hmem : i ∈ (numbered.filter fun p => key p.1 = k).map Prod.snd ↔
      i ∈ List.range' 1 (rows.countP fun b => key b = k) := (h.numbers k).mem_iff
  rw [List.mem_range'_1] at hmem
  refine Iff.trans ?_ (hmem.trans ⟨fun h => ⟨h.1, by omega⟩, fun h => ⟨h.1, by omega⟩⟩)
  simp only [List.mem_map, List.mem_filter, decide_eq_true_eq, and_assoc]

/-- Counting rows of a class by their numbers is counting numbers. -/
theorem countP_eq (h : Numbers key rows numbered) (q : ℕ → Bool) :
    (numbered.countP fun p => decide (key p.1 = k) && q p.2) =
      (List.range' 1 (rows.countP fun b => key b = k)).countP q := by
  rw [← (h.numbers k).countP_eq q, List.countP_map, List.countP_filter]
  refine List.countP_congr fun p _ => ?_
  simp [and_comm]

end Numbers

theorem countP_range'_le (m n : ℕ) : (List.range' 1 m).countP (· ≤ n) = min m n := by
  induction m with
  | zero => simp
  | succ m ih =>
    rw [List.range'_1_concat, List.countP_append, ih, List.countP_singleton]
    by_cases h : 1 + m ≤ n <;> simp [h] <;> omega

theorem countP_range'_not_le (m n : ℕ) :
    (List.range' 1 m).countP (fun i => !decide (i ≤ n)) = m - n := by
  have hsplit := List.length_eq_countP_add_countP (fun i => decide (i ≤ n)) (l := List.range' 1 m)
  have hle := countP_range'_le m n
  simp only [List.length_range', decide_eq_true_eq, ← decide_not] at hsplit ⊢
  omega

section

variable {keyLeft : α → κ} {keyRight : β → κ} {left : List α} {right : List β}
  {numberedLeft : List (α × ℕ)} {numberedRight : List (β × ℕ)} {k : κ}

/-- A row of a class has a partner exactly when its number is no more than the size of the class on
    the other side. -/
theorem any_partner (hl : Numbers keyLeft left numberedLeft)
    (hr : Numbers keyRight right numberedRight) {p : α × ℕ} (hp : p ∈ numberedLeft) :
    (numberedRight.any fun q => keyLeft p.1 = keyRight q.1 ∧ p.2 = q.2) =
      decide (p.2 ≤ right.countP fun b => keyRight b = keyLeft p.1) := by
  rw [Bool.eq_iff_iff, List.any_eq_true, decide_eq_true_eq]
  have hpos : 1 ≤ p.2 := (hl.exists_iff.1 ⟨p, hp, rfl, rfl⟩).1
  have hiff := hr.exists_iff (k := keyLeft p.1) (i := p.2)
  rw [and_iff_right hpos] at hiff
  rw [← hiff]
  refine exists_congr fun q => and_congr_right fun _ => ?_
  rw [decide_eq_true_eq]
  exact and_congr eq_comm eq_comm

/-- **The rows with a partner**: as many as the smaller class has. -/
theorem countP_partner (hl : Numbers keyLeft left numberedLeft)
    (hr : Numbers keyRight right numberedRight) :
    (numberedLeft.countP fun p => decide (keyLeft p.1 = k) &&
        numberedRight.any fun q => keyLeft p.1 = keyRight q.1 ∧ p.2 = q.2) =
      min (left.countP fun a => keyLeft a = k) (right.countP fun b => keyRight b = k) := by
  rw [← countP_range'_le, ← hl.countP_eq]
  refine List.countP_congr fun p hp => ?_
  rw [any_partner hl hr hp]
  by_cases hk : keyLeft p.1 = k <;> simp [hk]

/-- **The rows without a partner**: those the class has more than on the other side. -/
theorem countP_no_partner (hl : Numbers keyLeft left numberedLeft)
    (hr : Numbers keyRight right numberedRight) :
    (numberedLeft.countP fun p => decide (keyLeft p.1 = k) &&
        !numberedRight.any fun q => keyLeft p.1 = keyRight q.1 ∧ p.2 = q.2) =
      (left.countP fun a => keyLeft a = k) - right.countP fun b => keyRight b = k := by
  rw [← countP_range'_not_le, ← hl.countP_eq fun i => !decide _]
  refine List.countP_congr fun p hp => ?_
  rw [any_partner hl hr hp]
  by_cases hk : keyLeft p.1 = k <;> simp [hk]

end

/-! ## A numbering -/

/-- Rows numbered backwards within their class. -/
def numberRows (key : β → κ) : List β → List (β × ℕ)
  | [] => []
  | b :: rows => (b, rows.countP (fun c => key c = key b) + 1) :: numberRows key rows

theorem numbers_numberRows (key : β → κ) (rows : List β) :
    Numbers key rows (numberRows key rows) := by
  induction rows with
  | nil => exact ⟨List.Perm.nil, fun _ => List.Perm.nil⟩
  | cons b rows ih =>
    refine ⟨ih.perm.cons b, fun k => ?_⟩
    rw [numberRows, List.filter_cons, List.countP_cons]
    by_cases hk : key b = k
    · rw [if_pos (decide_eq_true hk), List.map_cons, if_pos (decide_eq_true hk), hk,
        List.range'_1_concat, Nat.add_comm]
      exact ((ih.numbers k).cons _).trans (List.perm_append_singleton _ _).symm
    · rw [if_neg (by simpa using hk), if_neg (by simpa using hk), Nat.add_zero]
      exact ih.numbers k

end RowNumbers

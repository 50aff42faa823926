import Mathlib.Logic.Equiv.Basic
import Mathlib.Order.Lattice
import Mathlib.Data.List.Basic

/-!
# Binary trees in arrays, ordered by a cost

The children of position `i` are at `2 * i + 1` and `2 * i + 2`. An array is ordered from a
position on when no entry from there on costs more than its children. Sifting an entry down keeps
a weaker order, with a hole at the entry's position, and closes the hole where the entry stops.
-/

namespace BossOptimizer.ArrayHeap

variable {α C : Type} [LinearOrder C] {cost : α → C} {a : Array α} {lo ix c i j : ℕ}

/-- Position `j` is a child of position `i`. -/
def IsChild (i j : ℕ) : Prop := j = 2 * i + 1 ∨ j = 2 * i + 2

theorem IsChild.lt (h : IsChild i j) : i < j := by
  rcases h with rfl | rfl <;> omega

theorem IsChild.unique {i' : ℕ} (h : IsChild i j) (h' : IsChild i' j) : i = i' := by
  rcases h with rfl | rfl <;> rcases h' with h' | h' <;> omega

theorem exists_parent (hj : 0 < j) : ∃ i, IsChild i j := by
  refine ⟨(j - 1) / 2, ?_⟩
  rw [IsChild]
  omega

variable (cost) in
/-- The entry at `i` costs at most as much as the one at `j`, if both are there. -/
def Le (a : Array α) (i j : ℕ) : Prop := ∀ x ∈ a[i]?, ∀ y ∈ a[j]?, cost x ≤ cost y

theorem Le.trans {k : ℕ} (hj : j < a.size) (h : Le cost a i j) (h' : Le cost a j k) :
    Le cost a i k := by
  intro x hx y hy
  have hz : a[j]? = some a[j] := Array.getElem?_eq_getElem hj
  exact (h x hx _ hz).trans (h' _ hz y hy)

theorem Le.refl (a : Array α) (i : ℕ) : Le cost a i i := by
  intro x hx y hy
  rw [Option.mem_def] at hx hy
  cases hx.symm.trans hy
  exact le_rfl

variable (cost) in
/-- From `lo` on no entry costs more than its children. -/
def OrderedFrom (lo : ℕ) (a : Array α) : Prop := ∀ i j, lo ≤ i → IsChild i j → Le cost a i j

variable (cost) in
/-- The order from `lo` on with a hole at `ix`: the entry there may cost more than its children,
    but the entry above it does not. -/
structure OrderedExcept (lo ix : ℕ) (a : Array α) : Prop where
  other : ∀ i j, lo ≤ i → i ≠ ix → IsChild i j → Le cost a i j
  across : ∀ i j, lo ≤ i → IsChild i ix → IsChild ix j → Le cost a i j

/-- The root of an ordered array has the lowest cost. -/
theorem OrderedFrom.root_le (h : OrderedFrom cost 0 a) (hj : j < a.size) : Le cost a 0 j := by
  induction j using Nat.strongRecOn with
  | ind j ih =>
    rcases Nat.eq_zero_or_pos j with rfl | hpos
    · exact Le.refl a 0
    · obtain ⟨i, hchild⟩ := exists_parent hpos
      have hi : i < a.size := hchild.lt.trans hj
      exact (ih i hchild.lt hi).trans hi (h i j (Nat.zero_le i) hchild)

/-- Past the last position there is nothing to order. -/
theorem orderedFrom_of_size_le (h : a.size ≤ 2 * lo + 1) : OrderedFrom cost lo a := by
  intro i j hi hchild x _ y hy
  have hj : a.size ≤ j := by rcases hchild with rfl | rfl <;> omega
  rw [Array.getElem?_eq_none hj] at hy
  cases hy

/-- An order from the next position on has a hole at most at this one. -/
theorem OrderedFrom.except (h : OrderedFrom cost (lo + 1) a) : OrderedExcept cost lo lo a where
  other i j hi hne hchild := h i j (by omega) hchild
  across i _ hi hchild _ := absurd hchild.lt (by omega)

theorem OrderedExcept.ordered (h : OrderedExcept cost lo ix a)
    (hix : ∀ j, IsChild ix j → Le cost a ix j) : OrderedFrom cost lo a := by
  intro i j hi hchild
  rcases eq_or_ne i ix with rfl | hne
  · exact hix j hchild
  · exact h.other i j hi hne hchild

theorem getElem?_swapIfInBounds (hi : i < a.size) (hj : j < a.size) (k : ℕ) :
    (a.swapIfInBounds i j)[k]? = a[Equiv.swap i j k]? := by
  rw [Array.swapIfInBounds_def, dif_pos hi, dif_pos hj, Array.getElem?_swap]
  by_cases hjk : j = k
  · rw [if_pos hjk, ← hjk, Equiv.swap_apply_right, Array.getElem?_eq_getElem hi]
  · by_cases hik : i = k
    · rw [if_neg hjk, if_pos hik, ← hik, Equiv.swap_apply_left, Array.getElem?_eq_getElem hj]
    · rw [if_neg hjk, if_neg hik, Equiv.swap_apply_of_ne_of_ne (Ne.symm hik) (Ne.symm hjk)]

theorem le_swapIfInBounds {k l : ℕ} (hi : i < a.size) (hj : j < a.size) :
    Le cost (a.swapIfInBounds i j) k l ↔ Le cost a (Equiv.swap i j k) (Equiv.swap i j l) := by
  simp only [Le, getElem?_swapIfInBounds hi hj]

/-- **Swapping the entry in the hole with its cheapest child moves the hole to the child.** -/
theorem OrderedExcept.swap (h : OrderedExcept cost lo ix a) (hlo : lo ≤ ix) (hchild : IsChild ix c)
    (hc : c < a.size) (hle : Le cost a c ix) (hmin : ∀ j, IsChild ix j → Le cost a c j) :
    OrderedExcept cost lo c (a.swapIfInBounds ix c) := by
  have hix : ix < a.size := hchild.lt.trans hc
  have hlt := hchild.lt
  constructor
  · intro i j hi hne hij
    have hijlt := hij.lt
    rw [le_swapIfInBounds hix hc]
    rcases eq_or_ne i ix with rfl | hiix
    · rw [Equiv.swap_apply_left]
      rcases eq_or_ne j c with rfl | hjc
      · rwa [Equiv.swap_apply_right]
      · rw [Equiv.swap_apply_of_ne_of_ne (by omega) hjc]
        exact hmin j hij
    · rw [Equiv.swap_apply_of_ne_of_ne hiix hne]
      rcases eq_or_ne j ix with rfl | hjix
      · rw [Equiv.swap_apply_left]
        exact h.across i c hi hij hchild
      · have hjc : j ≠ c := fun heq => hiix ((heq ▸ hij).unique hchild)
        rw [Equiv.swap_apply_of_ne_of_ne hjix hjc]
        exact h.other i j hi hiix hij
  · intro i j hi hic hcj
    obtain rfl := hic.unique hchild
    have hcjlt := hcj.lt
    rw [le_swapIfInBounds hix hc, Equiv.swap_apply_left,
      Equiv.swap_apply_of_ne_of_ne (by omega) (by omega)]
    exact h.other c j (by omega) (by omega) hcj

/-- An ordered array keeps its order below the root when the root is swapped with the last entry
    and taken away. -/
theorem OrderedFrom.pop_swap_root (h : OrderedFrom cost 0 a) :
    OrderedExcept cost 0 0 (a.swapIfInBounds 0 (a.size - 1)).pop := by
  refine ⟨fun i j _ hne hij => ?_, fun i _ _ hchild _ => absurd hchild.lt (Nat.not_lt_zero i)⟩
  intro x hx y hy
  have hijlt := hij.lt
  rw [Option.mem_def, Array.getElem?_pop, Array.size_swapIfInBounds] at hx hy
  split_ifs at hx hy with hi hj
  rw [getElem?_swapIfInBounds (by omega) (by omega),
    Equiv.swap_apply_of_ne_of_ne (by omega) (by omega)] at hx hy
  exact h i j (Nat.zero_le i) hij x hx y hy

theorem swapIfInBounds_perm (a : Array α) (i j : ℕ) :
    (a.swapIfInBounds i j).toList.Perm a.toList := by
  rw [Array.swapIfInBounds_def]
  split_ifs with hi hj
  · exact (Array.swap_perm hi hj).toList
  · exact .refl _
  · exact .refl _

end BossOptimizer.ArrayHeap

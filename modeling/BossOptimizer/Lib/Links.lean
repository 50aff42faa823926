import Mathlib.Order.Basic
import Mathlib.Data.Nat.Basic

/-!
# Ascending links

Nodes are numbers, and a node may hold a link to a greater one below a common bound. Following the
links from a node ends in its master, the node that holds no link.
-/

/-- Links from nodes to greater nodes. -/
structure Links where
  next : ℕ → Option ℕ
  bound : ℕ
  ascending : ∀ g h, next g = some h → g < h ∧ h < bound

namespace Links

variable {d : Links} {g h x : ℕ}

/-- No node holds a link. -/
def empty : Links := ⟨fun _ => none, 0, by simp⟩

@[simp] theorem next_empty : empty.next g = none := rfl

/-- Node `g` now holds a link to `h`. -/
def link (d : Links) (g h : ℕ) (hlt : g < h) : Links where
  next := Function.update d.next g (some h)
  bound := max d.bound (h + 1)
  ascending := by
    intro x y hxy
    by_cases hx : x = g
    · subst hx
      rw [Function.update_self] at hxy
      cases hxy
      exact ⟨hlt, by omega⟩
    · rw [Function.update_of_ne hx] at hxy
      have := d.ascending x y hxy
      omega

/-- Following the links from `g`. -/
def master (d : Links) (g : ℕ) : ℕ :=
  match ht : d.next g with
  | none => g
  | some t =>
    have _ascending := d.ascending g t ht
    d.master t
termination_by d.bound - g

theorem master_of_none (hg : d.next g = none) : d.master g = g := by
  rw [master]
  split <;> simp_all

theorem master_of_some (hg : d.next g = some h) : d.master g = d.master h := by
  rw [master]
  split <;> simp_all

/-- What holds of every node without a link, and of a node when it holds of the linked one, holds
of all nodes. -/
theorem induction {P : ℕ → Prop} (d : Links) (none : ∀ g, d.next g = none → P g)
    (some : ∀ g t, d.next g = some t → P t → P g) (g : ℕ) : P g := by
  cases hg : d.next g with
  | none => exact none g hg
  | some t =>
    have := d.ascending g t hg
    exact some g t hg (induction d none some t)
termination_by d.bound - g

@[simp] theorem next_master (d : Links) (g : ℕ) : d.next (d.master g) = none := by
  induction g using d.induction with
  | none g hg => rwa [master_of_none hg]
  | some g t hg ih => rwa [master_of_some hg]

theorem le_master (d : Links) (g : ℕ) : g ≤ d.master g := by
  induction g using d.induction with
  | none g hg => rw [master_of_none hg]
  | some g t hg ih =>
    rw [master_of_some hg]
    exact (d.ascending g t hg).1.le.trans ih

theorem lt_master (hg : d.next g = some h) : g < d.master g := by
  rw [master_of_some hg]
  exact (d.ascending g h hg).1.trans_le (d.le_master h)

end Links

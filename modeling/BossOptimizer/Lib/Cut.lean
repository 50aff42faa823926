import Mathlib.Order.WithBot
import Mathlib.Data.Prod.Lex
import Mathlib.Order.Interval.Set.Basic

/-!
# Cuts of a linear order

A bound of an interval over `α` (open, closed or infinite, on either side) is a **cut**: a
position strictly between points. `Cut.side a false` is the position just before `a`,
`Cut.side a true` the position just after it, `⊥` and `⊤` are the infinite ends. Cuts are
linearly ordered, and whatever the kinds of its two bounds an interval is the half-open set
`[lo, hi)` of cuts, read back on points by `Cut.before`. Comparing bounds, intersecting and
subtracting intervals is then plain order reasoning on cuts.
-/

namespace BossOptimizer

/-- A position between the points of `α`. -/
abbrev Cut (α : Type*) : Type _ := WithBot (WithTop (α ×ₗ Bool))

namespace Cut

variable {α : Type*}

/-- The cut just before (`false`) or just after (`true`) the point `a`. -/
def side (a : α) (after : Bool) : Cut α :=
  ((toLex (a, after) : α ×ₗ Bool) : WithTop (α ×ₗ Bool))

/-- The cut that stands for the point itself. -/
abbrev before (a : α) : Cut α := side a false

/-- Every cut is one of the infinite ends or a side of a point. -/
theorem cases_cut (c : Cut α) : c = ⊥ ∨ c = ⊤ ∨ ∃ a s, c = side a s := by
  rcases c with _ | _ | p
  · exact .inl rfl
  · exact .inr (.inl rfl)
  · exact .inr (.inr ⟨(ofLex p).1, (ofLex p).2, rfl⟩)

variable [LinearOrder α]

@[simp] theorem side_le_side (a b : α) (s t : Bool) :
    side a s ≤ side b t ↔ a < b ∨ a = b ∧ (s = true → t = true) := by
  simp only [side, WithBot.coe_le_coe, WithTop.coe_le_coe, Prod.Lex.toLex_le_toLex, Bool.le_iff_imp]

@[simp] theorem side_lt_side (a b : α) (s t : Bool) :
    side a s < side b t ↔ a < b ∨ a = b ∧ s = false ∧ t = true := by
  simp only [side, WithBot.coe_lt_coe, WithTop.coe_lt_coe, Prod.Lex.toLex_lt_toLex, Bool.lt_iff]

@[simp] theorem bot_lt_side (a : α) (s : Bool) : (⊥ : Cut α) < side a s :=
  WithBot.bot_lt_coe _

@[simp] theorem side_lt_top (a : α) (s : Bool) : side a s < (⊤ : Cut α) :=
  WithBot.coe_lt_coe.2 (WithTop.coe_lt_top _)

@[simp] theorem side_ne_bot (a : α) (s : Bool) : side a s ≠ (⊥ : Cut α) :=
  (bot_lt_side a s).ne'

@[simp] theorem side_ne_top (a : α) (s : Bool) : side a s ≠ (⊤ : Cut α) :=
  (side_lt_top a s).ne

/-- On a dense order without a first and a last point no two cuts are indistinguishable:
    between `lo` and `hi` lies a point. Over the integers this fails at `lo` just after `1`
    and `hi` just before `2`. -/
theorem exists_before_mem_Ico [DenselyOrdered α] [NoMinOrder α] [NoMaxOrder α] [Nonempty α]
    {lo hi : Cut α} (h : lo < hi) : ∃ a : α, before a ∈ Set.Ico lo hi := by
  simp only [Set.mem_Ico]
  rcases cases_cut lo with rfl | rfl | ⟨a, s, rfl⟩ <;> rcases cases_cut hi with rfl | rfl | ⟨b, t, rfl⟩
  · exact absurd h (lt_irrefl _)
  · obtain ⟨a⟩ := ‹Nonempty α›
    exact ⟨a, by simp⟩
  · obtain ⟨a, ha⟩ := exists_lt b
    exact ⟨a, by simp [ha]⟩
  · exact absurd h (not_lt.2 le_top)
  · exact absurd h (not_lt.2 le_top)
  · exact absurd h (not_lt.2 le_top)
  · exact absurd h (not_lt.2 bot_le)
  · obtain ⟨b, hb⟩ := exists_gt a
    exact ⟨b, by simp [hb]⟩
  · rcases (side_lt_side a b s t).1 h with hab | ⟨rfl, rfl, rfl⟩
    · obtain ⟨c, hac, hcb⟩ := exists_between hab
      exact ⟨c, by simp [hac, hcb]⟩
    · exact ⟨a, by simp⟩

/-- The two sides of a point enclose no other cut. -/
theorem Ico_before_after (a : α) : Set.Ico (side a false) (side a true) = {before a} := by
  ext c
  simp only [Set.mem_Ico, Set.mem_singleton_iff]
  rcases cases_cut c with rfl | rfl | ⟨b, s, rfl⟩
  · simpa using fun h => (side_ne_bot a false h.symm).elim
  · simpa using fun h => (side_ne_top a false h.symm).elim
  · constructor
    · rintro ⟨hab, hba⟩
      simp only [side_le_side, side_lt_side] at hab hba
      cases s <;> grind
    · intro h
      rw [h]
      simp

/-! ## Half-open sets -/

section Ico

variable {β : Type*} [LinearOrder β]

/-- Cutting a set back to where the other one starts loses nothing when the other one
    reaches further. -/
theorem Ico_min_union_Ico {a b d e : β} (_h : b ≤ e) :
    Set.Ico a (min b d) ∪ Set.Ico d e = Set.Ico a b ∪ Set.Ico d e := by
  ext c
  simp only [Set.mem_union, Set.mem_Ico]
  grind

/-- One step of a subtraction that runs left to right: the subtrahend in front reaches beyond
    `[a, b)`, so what is left of `[a, b)` lies before it. -/
theorem diff_step_left {a b d e : β} {F T : Set β} (_h : d < e) (_hb : b ≤ e)
    (hT : ∀ c ∈ T, e ≤ c) :
    Set.Ico a (min b d) ∪ F \ (Set.Ico d e ∪ T) = (Set.Ico a b ∪ F) \ (Set.Ico d e ∪ T) := by
  ext c
  have := hT c
  simp only [Set.mem_union, Set.mem_Ico, Set.mem_sdiff]
  grind

/-- The other step: `[a, b)` reaches beyond the subtrahend in front, which is spent once the
    part of `[a, b)` right of it is kept. -/
theorem diff_step_right {a b d e : β} {F T : Set β} (_h : d < e) (hT : ∀ c ∈ T, e ≤ c)
    (hF : ∀ c ∈ F, e ≤ c) :
    Set.Ico a (min b d) ∪ (Set.Ico (max a e) b ∪ F) \ T =
      (Set.Ico a b ∪ F) \ (Set.Ico d e ∪ T) := by
  ext c
  have hT := hT c
  have hF := hF c
  simp only [Set.mem_union, Set.mem_Ico, Set.mem_sdiff]
  grind

end Ico

end Cut

end BossOptimizer

import Mathlib.Data.List.Basic

/-!
# Total correctness of computations with fuel

`Ensures x P`: the computation does not run out of fuel, and what it returns satisfies `P`.
-/

namespace BossOptimizer

variable {α β : Type*}

/-- The computation returns a value that satisfies `P`. -/
def Ensures (x : Option α) (P : α → Prop) : Prop := ∃ a, x = some a ∧ P a

namespace Ensures

variable {x : Option α} {P Q : α → Prop} {R : β → Prop}

theorem some {a : α} (h : P a) : Ensures (.some a) P := ⟨a, rfl, h⟩

theorem mono (h : Ensures x P) (himp : ∀ a, P a → Q a) : Ensures x Q := by
  obtain ⟨a, ha, hP⟩ := h
  exact ⟨a, ha, himp a hP⟩

theorem map {f : α → β} (h : Ensures x P) (himp : ∀ a, P a → R (f a)) : Ensures (x.map f) R := by
  obtain ⟨a, rfl, hP⟩ := h
  exact ⟨f a, rfl, himp a hP⟩

theorem bind {f : α → Option β} (h : Ensures x P) (himp : ∀ a, P a → Ensures (f a) R) :
    Ensures (x.bind f) R := by
  obtain ⟨a, rfl, hP⟩ := h
  exact himp a hP

/-- The rule for a loop over a list: the invariant knows what has been visited. -/
theorem foldlM {f : β → α → Option β} {I : List α → β → Prop} {l : List α}
    (hstep : ∀ done, ∀ a ∈ l, ∀ acc, I done acc → Ensures (f acc a) (I (done ++ [a]))) :
    ∀ acc : β, I [] acc → Ensures (l.foldlM f acc) (I l) := by
  suffices key : ∀ rest done acc, done ++ rest = l → I done acc →
      Ensures (rest.foldlM f acc) (I l) from fun acc h => key l [] acc rfl h
  intro rest
  induction rest with
  | nil =>
    intro done acc hl h
    rw [List.append_nil] at hl
    exact some (hl ▸ h)
  | cons a rest ih =>
    intro done acc hl h
    rw [List.foldlM_cons]
    refine bind (hstep done a (by simp [← hl]) acc h) fun acc' h' => ?_
    exact ih (done ++ [a]) acc' (by simpa using hl) h'

/-- Loops that do the same wherever the invariant holds are the same. -/
theorem foldlM_congr {f g : β → α → Option β} {inv : β → Prop} {l : List α}
    (hstep : ∀ a ∈ l, ∀ acc, inv acc → f acc a = g acc a ∧ Ensures (f acc a) inv) :
    ∀ acc : β, inv acc → l.foldlM f acc = l.foldlM g acc := by
  induction l with
  | nil => exact fun _ _ => rfl
  | cons a l ih =>
    intro acc h
    obtain ⟨heq, acc', hacc', hinv⟩ := hstep a (by simp) acc h
    rw [List.foldlM_cons, List.foldlM_cons, ← heq, hacc']
    exact ih (fun a' ha' => hstep a' (by simp [ha'])) acc' hinv

end Ensures

end BossOptimizer

import Mathlib.Logic.Basic

/-!
# Computations with a state and exceptions

`Meets x s P E`: from state `s`, the computation returns a value and a state with `P`, or raises
an exception with `E`.
-/

namespace BossOptimizer

universe u

variable {σ ε β γ : Type u}

/-- From `s`, the computation returns with `P` or raises with `E`. -/
def Meets (x : StateT σ (Except ε) β) (s : σ) (P : β → σ → Prop) (E : ε → Prop) : Prop :=
  match x s with
  | .ok r => P r.1 r.2
  | .error e => E e

namespace Meets

variable {x : StateT σ (Except ε) β} {f : β → StateT σ (Except ε) γ} {s : σ}
  {P P' : β → σ → Prop} {Q : γ → σ → Prop} {E : ε → Prop}

theorem pure {b : β} (h : P b s) : Meets (Pure.pure b) s P E := h

theorem of_eq {b : β} {s' : σ} (h : x s = .ok (b, s')) (hP : P b s') : Meets x s P E := by
  unfold Meets
  rw [h]
  exact hP

theorem bind (h : Meets x s P E) (hf : ∀ b s', P b s' → Meets (f b) s' Q E) :
    Meets (x >>= f) s Q E := by
  unfold Meets at h ⊢
  change match (x s >>= fun r => f r.1 r.2 : Except ε (γ × σ)) with
    | .ok r => Q r.1 r.2
    | .error e => E e
  cases hx : x s with
  | error e =>
    rw [hx] at h
    exact h
  | ok r =>
    rw [hx] at h
    exact hf r.1 r.2 h

theorem mono (h : Meets x s P E) (hP : ∀ b s', P b s' → P' b s') : Meets x s P' E := by
  unfold Meets at h ⊢
  cases hx : x s with
  | error e =>
    rw [hx] at h
    exact h
  | ok r =>
    rw [hx] at h
    exact hP _ _ h

/-- A step that leaves the state alone. -/
theorem lift {y : Except ε β} (hok : ∀ b, y = .ok b → P b s) (herr : ∀ e, y = .error e → E e) :
    Meets (liftM y : StateT σ (Except ε) β) s P E := by
  cases y with
  | error e => exact herr e rfl
  | ok b => exact hok b rfl

end Meets

end BossOptimizer

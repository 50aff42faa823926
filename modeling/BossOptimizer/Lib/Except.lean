import Mathlib.Logic.Basic

/-!
# Runs of fallible computations

Peeling a successful run apart: a bind that returned has returned at every step. `FailsWhen` is for
computations with one way to fail and a test that says when: a sequence fails when a part of it
does.
-/

namespace BossOptimizer

variable {ε α β : Type}

@[simp] theorem bind_eq_ok {x : Except ε α} {f : α → Except ε β} {b : β} :
    x >>= f = .ok b ↔ ∃ a, x = .ok a ∧ f a = .ok b := by
  cases x with
  | error e | ok a => simp [bind, Except.bind]

@[simp] theorem map_eq_ok {x : Except ε α} {f : α → β} {b : β} :
    f <$> x = .ok b ↔ ∃ a, x = .ok a ∧ f a = b := by
  cases x with
  | error e | ok a => simp [Functor.map, Except.map]

@[simp] theorem pure_eq_ok {a b : α} : (pure a : Except ε α) = .ok b ↔ a = b := by
  simp [pure, Except.pure]

theorem ok_bind (a : α) (f : α → Except ε β) : (Except.ok a >>= f) = f a := rfl

/-- A list of computations returns and every result passes a comparison, when this holds of each. -/
theorem mapM_all_iff {κ γ : Type} {P : κ → Prop} (f : α → Except ε β) (g : κ → β → γ) (h : κ → α → γ)
    (as : List α) :
    (∃ bs, as.mapM f = .ok bs ∧ ∀ k, P k → bs.map (g k) = as.map (h k)) ↔
      ∀ a ∈ as, ∃ b, f a = .ok b ∧ ∀ k, P k → g k b = h k a := by
  induction as with
  | nil => simp [pure, Except.pure]
  | cons a as ih =>
    rw [List.forall_mem_cons, ← ih]
    simp only [List.mapM_cons, bind_eq_ok, pure_eq_ok]
    constructor
    · rintro ⟨_, ⟨b, hb, bs, hbs, rfl⟩, hsame⟩
      have hparts := fun k hk => List.cons.inj (hsame k hk)
      exact ⟨⟨b, hb, fun k hk => (hparts k hk).1⟩, bs, hbs, fun k hk => (hparts k hk).2⟩
    · rintro ⟨⟨b, hb, hhead⟩, bs, hbs, htail⟩
      refine ⟨_, ⟨b, hb, bs, hbs, rfl⟩, fun k hk => ?_⟩
      rw [List.map_cons, List.map_cons, hhead k hk, htail k hk]

/-! ## Failing on a test -/

/-- The computation fails with `e` if the test is true, and returns if it is false. -/
def FailsWhen (e : ε) (test : Bool) (x : Except ε α) : Prop :=
  if test then x = .error e else ∃ a, x = .ok a

variable {e : ε} {test test' : Bool} {x : Except ε α}

theorem failsWhen_ok (a : α) : FailsWhen e false (.ok a) := ⟨a, rfl⟩

theorem failsWhen_pure (a : α) : FailsWhen e false (pure a : Except ε α) := ⟨a, rfl⟩

theorem FailsWhen.bind {f : α → Except ε β} (hx : FailsWhen e test x)
    (hf : ∀ a, x = .ok a → FailsWhen e test' (f a)) : FailsWhen e (test || test') (x >>= f) := by
  cases test with
  | true =>
    have hx : x = .error e := hx
    exact hx ▸ rfl
  | false =>
    obtain ⟨a, rfl⟩ : ∃ a, x = .ok a := hx
    exact hf a rfl

theorem FailsWhen.map {f : α → β} (hx : FailsWhen e test x) : FailsWhen e test (f <$> x) := by
  cases test with
  | true =>
    have hx : x = .error e := hx
    exact hx ▸ rfl
  | false =>
    obtain ⟨a, rfl⟩ : ∃ a, x = .ok a := hx
    exact ⟨f a, rfl⟩

/-- What is left when the test is false. -/
theorem FailsWhen.returns (hx : FailsWhen e test x) (h : test = false) : ∃ a, x = .ok a := by
  subst h
  exact hx

theorem FailsWhen.error_eq (hx : FailsWhen e test x) {e' : ε} (h : x = .error e') : e' = e := by
  cases test with
  | true =>
    have hx : x = .error e := hx
    exact Except.error.inj (h.symm.trans hx)
  | false =>
    obtain ⟨a, ha⟩ : ∃ a, x = .ok a := hx
    exact absurd (h.symm.trans ha) (by simp)

theorem FailsWhen.returns_iff (hx : FailsWhen e test x) : (∃ a, x = .ok a) ↔ test = false := by
  refine ⟨fun ⟨a, ha⟩ => ?_, hx.returns⟩
  cases test with
  | true => exact absurd (ha.symm.trans hx) (by simp)
  | false => rfl

end BossOptimizer

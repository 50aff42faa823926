import Mathlib.Data.List.Basic

/-!
# Kleene's three-valued logic

A truth value is a Boolean or unknown (`none`). A query keeps a row when its predicate is true;
a constraint accepts a row when its predicate is not false. `Truth.holds` is that reading of a
truth value, with the mode `unknownToo` choosing the second one; under it conjunction and
disjunction are the Boolean ones, and negation swaps the two modes.
-/

namespace BossOptimizer

/-- True, false, or unknown. -/
abbrev Truth := Option Bool

namespace Truth

/-- Negation; unknown stays unknown. -/
def not : Truth → Truth := Option.map (!·)

def and : Truth → Truth → Truth
  | some false, _ => some false
  | _, some false => some false
  | some true, some true => some true
  | _, _ => none

def or : Truth → Truth → Truth
  | some true, _ => some true
  | _, some true => some true
  | some false, some false => some false
  | _, _ => none

def all (ts : List Truth) : Truth := ts.foldr and (some true)

def any (ts : List Truth) : Truth := ts.foldr or (some false)

/-- The value counts as satisfied: it is true or, with `unknownToo`, not false. -/
def holds (unknownToo : Bool) (t : Truth) : Prop :=
  if unknownToo then t ≠ some false else t = some true

instance (m : Bool) (t : Truth) : Decidable (holds m t) := by unfold holds; infer_instance

variable {m : Bool}

@[simp] theorem holds_some (b : Bool) : holds m (some b) ↔ b = true := by
  cases m <;> cases b <;> simp [holds]

@[simp] theorem holds_unknown : holds m none ↔ m = true := by cases m <;> simp [holds]

theorem holds_false_iff (t : Truth) : holds false t ↔ t = some true := Iff.rfl

theorem holds_mono {t : Truth} (h : holds false t) : holds true t := by
  rcases t with _ | _ | _ <;> simp_all [holds]

/-- Negation turns "true" into "not false" and back: the mode flips under it. -/
@[simp] theorem holds_not (t : Truth) : holds m t.not ↔ ¬ holds (!m) t := by
  rcases t with _ | _ | _ <;> cases m <;> simp [not, holds]

@[simp] theorem holds_and (s t : Truth) : holds m (s.and t) ↔ holds m s ∧ holds m t := by
  rcases s with _ | _ | _ <;> rcases t with _ | _ | _ <;> cases m <;> simp [and, holds]

@[simp] theorem holds_or (s t : Truth) : holds m (s.or t) ↔ holds m s ∨ holds m t := by
  rcases s with _ | _ | _ <;> rcases t with _ | _ | _ <;> cases m <;> simp [or, holds]

@[simp] theorem holds_all (ts : List Truth) : holds m (all ts) ↔ ∀ t ∈ ts, holds m t := by
  induction ts with
  | nil => simp [all]
  | cons t ts ih => simpa [all] using fun _ => ih

@[simp] theorem holds_any (ts : List Truth) : holds m (any ts) ↔ ∃ t ∈ ts, holds m t := by
  induction ts with
  | nil => simp [any]
  | cons t ts ih => simpa [any] using or_congr_right ih

/-- A disjunction is true as soon as one member is, and unknown before it is false. -/
theorem any_eq (ts : List Truth) :
    any ts = if some true ∈ ts then some true else if none ∈ ts then none else some false := by
  induction ts with
  | nil => rfl
  | cons t ts ih =>
    have hcons : any (t :: ts) = t.or (any ts) := rfl
    rw [hcons, ih]
    rcases t with _ | _ | _ <;> by_cases htrue : some true ∈ ts <;> by_cases hnone : none ∈ ts <;>
      simp [htrue, hnone, or]

/-- A conjunction is false as soon as one member is, and unknown before it is true. -/
theorem all_eq (ts : List Truth) :
    all ts =
      if some false ∈ ts then some false else if none ∈ ts then none else some true := by
  induction ts with
  | nil => rfl
  | cons t ts ih =>
    have hcons : all (t :: ts) = t.and (all ts) := rfl
    rw [hcons, ih]
    rcases t with _ | _ | _ <;> by_cases hfalse : some false ∈ ts <;> by_cases hnone : none ∈ ts <;>
      simp [hfalse, hnone, and]

/-- De Morgan. -/
theorem all_eq_not_any (ts : List Truth) : all ts = (any (ts.map not)).not := by
  induction ts with
  | nil => rfl
  | cons t ts ih =>
    have hall : all (t :: ts) = t.and (all ts) := rfl
    have hany : any ((t :: ts).map not) = t.not.or (any (ts.map not)) := rfl
    rw [hall, hany, ih]
    rcases t with _ | _ | _ <;> rcases any (ts.map not) with _ | _ | _ <;> rfl

end Truth

end BossOptimizer

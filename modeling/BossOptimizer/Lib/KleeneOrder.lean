import BossOptimizer.Lib.Kleene

/-!
# The order of truth values

False below unknown below true. A truth value is known from its two readings, and under either
reading the connectives are those of propositions; so laws of conjunction, disjunction and negation
carry over from there.
-/

namespace BossOptimizer

namespace Truth

variable {s t : Truth} {l l' : List Truth}

/-- The two readings determine a truth value. -/
theorem eq_of_holds (h : ∀ m, holds m s ↔ holds m t) : s = t := by
  have hfalse := h false
  have htrue := h true
  rcases s with _ | _ | _ <;> rcases t with _ | _ | _ <;> simp_all [holds]

theorem eq_iff_holds : s = t ↔ ∀ m, holds m s ↔ holds m t :=
  ⟨fun h m => by rw [h], eq_of_holds⟩

/-- A truth value implies another one under both readings. -/
def Le (s t : Truth) : Prop := ∀ m, holds m s → holds m t

instance (s t : Truth) : Decidable (Le s t) :=
  decidable_of_iff ((holds false s → holds false t) ∧ (holds true s → holds true t))
    ⟨fun h m => by cases m; exacts [h.1, h.2], fun h => ⟨h false, h true⟩⟩

@[simp] theorem not_not (t : Truth) : t.not.not = t := by
  rcases t with _ | _ | _ <;> rfl

/-! ## Conjunctions and disjunctions -/

@[simp] theorem all_nil : all [] = some true := rfl

@[simp] theorem any_nil : any [] = some false := rfl

@[simp] theorem all_singleton (t : Truth) : all [t] = t := eq_of_holds fun m => by simp

@[simp] theorem any_singleton (t : Truth) : any [t] = t := eq_of_holds fun m => by simp

/-- Conjunction, or disjunction. -/
def joined (fConjunction : Bool) (l : List Truth) : Truth := if fConjunction then all l else any l

@[simp] theorem joined_singleton (fConjunction : Bool) (t : Truth) :
    joined fConjunction [t] = t := by
  cases fConjunction <;> simp [joined]

theorem holds_joined {fConjunction m : Bool} :
    holds m (joined fConjunction l) ↔
      if fConjunction then ∀ t ∈ l, holds m t else ∃ t ∈ l, holds m t := by
  cases fConjunction <;> simp [joined]

/-- Order and repetition do not count. -/
theorem joined_congr (fConjunction : Bool) (h : ∀ t, t ∈ l ↔ t ∈ l') :
    joined fConjunction l = joined fConjunction l' := by
  refine eq_of_holds fun m => ?_
  rw [holds_joined, holds_joined]
  cases fConjunction <;> simp [h]

/-- De Morgan. -/
theorem not_joined (fConjunction : Bool) (l : List Truth) :
    (joined fConjunction l).not = joined (!fConjunction) (l.map not) := by
  refine eq_of_holds fun m => ?_
  rw [holds_not, holds_joined, holds_joined]
  cases fConjunction <;> simp

/-- A joined list in place of a member. -/
theorem joined_flatMap {α : Type} (fConjunction : Bool) (as : List α) (f : α → List Truth) :
    joined fConjunction (as.flatMap f) =
      joined fConjunction (as.map fun a => joined fConjunction (f a)) := by
  refine eq_of_holds fun m => ?_
  simp only [holds_joined, List.mem_flatMap, List.mem_map]
  cases fConjunction <;> simp [holds_joined] <;> grind

/-- The truth value that decides. -/
theorem joined_of_mem {fConjunction : Bool} (h : some (!fConjunction) ∈ l) :
    joined fConjunction l = some (!fConjunction) := by
  refine eq_of_holds fun m => ?_
  rw [holds_joined]
  cases fConjunction
  · exact iff_of_true ⟨_, h, by cases m <;> simp [holds]⟩ (by cases m <;> simp [holds])
  · exact iff_of_false (fun hall => absurd (hall _ h) (by cases m <;> simp [holds]))
      (by cases m <;> simp [holds])

/-- The truth value that does not count. -/
theorem joined_filter {α : Type} {fConjunction : Bool} {as : List α} {p : α → Bool} {f : α → Truth}
    (h : ∀ a ∈ as, p a = false → f a = some fConjunction) :
    joined fConjunction ((as.filter p).map f) = joined fConjunction (as.map f) := by
  refine eq_of_holds fun m => ?_
  have hskip : ∀ a ∈ as, p a = false → (holds m (f a) ↔ fConjunction = true) := fun a ha hp => by
    rw [h a ha hp]
    cases m <;> cases fConjunction <;> simp [holds]
  simp only [holds_joined, List.mem_map, List.mem_filter]
  cases fConjunction <;> simp only [Bool.false_eq_true, iff_false, iff_true, if_true, if_false]
    at hskip ⊢ <;> grind

end Truth

end BossOptimizer

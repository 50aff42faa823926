import Mathlib.Data.List.Dedup

/-!
# Unions of lists, with and without duplicates

`distinct false` keeps all elements and `distinct true` one of each. Two lists are the same in a
union if they may replace each other in front of any others; a list without its duplicates is the
same, seen through any function.
-/

namespace BossOptimizer

namespace Unions

variable {α β : Type} [DecidableEq α] [DecidableEq β]

def distinct (removes : Bool) (l : List α) : List α := if removes then l.dedup else l

/-- Two lists that may replace each other in a union. -/
def Same (removes : Bool) (s t : List α) : Prop :=
  ∀ m, distinct removes (s ++ m) = distinct removes (t ++ m)

variable {removes : Bool}

theorem Same.refl (s : List α) : Same removes s s := fun _ => rfl

theorem Same.distinct_eq {s t : List α} (h : Same removes s t) :
    distinct removes s = distinct removes t := by
  simpa using h []

theorem Same.append {s s' t t' : List α} (h : Same removes s s') (h' : Same removes t t') :
    Same removes (s ++ t) (s' ++ t') := by
  intro m
  rw [List.append_assoc, List.append_assoc, h (t ++ m)]
  cases removes with
  | false => exact congrArg (s' ++ ·) (h' m)
  | true =>
    have htail : (t ++ m).dedup = (t' ++ m).dedup := h' m
    show (s' ++ (t ++ m)).dedup = (s' ++ (t' ++ m)).dedup
    rw [List.dedup_append, htail, ← List.dedup_append]

/-- Duplicates are duplicates through any function. -/
theorem dedup_map_dedup_append (f : α → β) (l : List α) (m : List β) :
    (l.dedup.map f ++ m).dedup = (l.map f ++ m).dedup := by
  induction l with
  | nil => rfl
  | cons x l ih =>
    by_cases hx : x ∈ l
    · have hmem : f x ∈ l.map f ++ m := List.mem_append_left _ (List.mem_map_of_mem hx)
      rw [List.dedup_cons_of_mem hx, ih, List.map_cons, List.cons_append,
        List.dedup_cons_of_mem hmem]
    · have hmem : f x ∈ l.dedup.map f ++ m ↔ f x ∈ l.map f ++ m := by
        simp only [List.mem_append, List.mem_map, List.mem_dedup]
      rw [List.dedup_cons_of_notMem hx, List.map_cons, List.map_cons, List.cons_append,
        List.cons_append, List.dedup_cons, List.dedup_cons, ih]
      simp only [hmem]

theorem same_map_distinct (f : α → β) (l : List α) :
    Same removes ((distinct removes l).map f) (l.map f) := by
  intro m
  cases removes with
  | false => rfl
  | true => exact dedup_map_dedup_append f l m

end Unions

end BossOptimizer

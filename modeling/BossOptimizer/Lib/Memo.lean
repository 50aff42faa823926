import Mathlib.Logic.Basic

/-!
# Tables under an equality function

A table finds an entry by any key that its equality function identifies with the stored one. An
entry that is there stays: inserting under a key that is found already changes nothing.
-/

namespace BossOptimizer

variable {K V : Type*} {eqFn : K → K → Bool} {table table' table'' : K → Option V} {key : K} {v : V}

/-- Insertion, found by the keys that are equal to this one and were not found before. -/
def insertNew (eqFn : K → K → Bool) (table : K → Option V) (key : K) (v : V) : K → Option V :=
  fun query => (table query).or (if eqFn key query then some v else none)

/-- What is found stays what it is. -/
def TableExtends (table table' : K → Option V) : Prop :=
  ∀ key v, table key = some v → table' key = some v

/-- Equal keys find the same entry. -/
def Respects (eqFn : K → K → Bool) (table : K → Option V) : Prop :=
  ∀ key key', eqFn key key' = true → table key = table key'

theorem TableExtends.refl (table : K → Option V) : TableExtends table table := fun _ _ h => h

theorem TableExtends.trans (h : TableExtends table table') (h' : TableExtends table' table'') :
    TableExtends table table'' := fun key v hv => h' key v (h key v hv)

theorem TableExtends.insertNew (eqFn : K → K → Bool) (table : K → Option V) (key : K) (v : V) :
    TableExtends table (insertNew eqFn table key v) := by
  intro query w hw
  rw [BossOptimizer.insertNew, hw, Option.some_or]

/-- A new entry is found under its own key. -/
theorem insertNew_self (hrefl : eqFn key key = true) (hnew : table key = none) :
    insertNew eqFn table key v key = some v := by
  rw [insertNew, hnew, if_pos hrefl, Option.none_or]

theorem insertNew_of_ne {query : K} (hne : eqFn key query = false) :
    insertNew eqFn table key v query = table query := by
  rw [insertNew, hne, if_neg Bool.false_ne_true, Option.or_none]

/-- What is found after an insertion is the new entry or was found before. -/
theorem insertNew_cases {query : K} {w : V} (h : insertNew eqFn table key v query = some w) :
    table query = some w ∨ w = v := by
  rw [insertNew] at h
  cases hquery : table query with
  | some w' =>
    rw [hquery, Option.some_or] at h
    exact .inl h
  | none =>
    rw [hquery, Option.none_or] at h
    split at h
    · exact .inr (Option.some.inj h).symm
    · cases h

/-- Inserting under equal keys is the same. -/
theorem insertNew_congr (hequiv : Equivalence fun k k' => eqFn k k' = true) {key' : K}
    (h : eqFn key key' = true) : insertNew eqFn table key v = insertNew eqFn table key' v := by
  funext query
  have heq : eqFn key query = eqFn key' query := by
    rw [Bool.eq_iff_iff]
    exact ⟨fun hk => hequiv.trans (hequiv.symm h) hk, fun hk => hequiv.trans h hk⟩
  rw [insertNew, insertNew, heq]

theorem Respects.insertNew (hequiv : Equivalence fun k k' => eqFn k k' = true)
    (h : Respects eqFn table) : Respects eqFn (insertNew eqFn table key v) := by
  intro q q' hqq
  have heq : eqFn key q = eqFn key q' := by
    rw [Bool.eq_iff_iff]
    exact ⟨fun hq => hequiv.trans hq hqq, fun hq => hequiv.trans hq (hequiv.symm hqq)⟩
  rw [BossOptimizer.insertNew, BossOptimizer.insertNew, h q q' hqq, heq]

end BossOptimizer

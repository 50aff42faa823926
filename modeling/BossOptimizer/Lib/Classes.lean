import Mathlib.Data.Set.Card

/-!
# Lists up to an equivalence

A list with at most one element of each class, over any setoid: the classes it meets are as many as
its elements, an element is found by its class, and one element can be taken out by moving the last
one into its place.
-/

namespace Classes

variable {α κ : Type*}

/-- The classes of the elements differ. -/
def Distinct (cls : α → κ) (l : List α) : Prop := l.Pairwise fun a b => cls a ≠ cls b

variable {cls : α → κ} {l l' : List α}

theorem distinct_iff_nodup : Distinct cls l ↔ (l.map cls).Nodup := List.pairwise_map.symm

theorem Distinct.perm (h : Distinct cls l) (hp : l'.Perm l) : Distinct cls l' :=
  distinct_iff_nodup.2 ((hp.map cls).nodup_iff.2 (distinct_iff_nodup.1 h))

theorem distinct_concat {a : α} :
    Distinct cls (l ++ [a]) ↔ Distinct cls l ∧ ∀ b ∈ l, cls b ≠ cls a := by
  simp [Distinct, List.pairwise_append]

/-- An element is the only one of its class. -/
theorem Distinct.eq_of_cls_eq (h : Distinct cls l) {a b : α} (ha : a ∈ l) (hb : b ∈ l)
    (hab : cls a = cls b) : a = b := List.inj_on_of_nodup_map (distinct_iff_nodup.1 h) ha hb hab

/-- There are as many classes as elements. -/
theorem Distinct.ncard_eq (h : Distinct cls l) : {c | ∃ a ∈ l, cls a = c}.ncard = l.length := by
  classical
  have hset : {c | ∃ a ∈ l, cls a = c} = ((l.map cls).toFinset : Set κ) := by
    ext c
    simp
  rw [hset, Set.ncard_coe_finset, List.toFinset_card_of_nodup (distinct_iff_nodup.1 h),
    List.length_map]

/-- A search for a class finds the element of that class. -/
theorem Distinct.find?_eq_some_iff (h : Distinct cls l) {c : κ} {p : α → Bool}
    (hp : ∀ a, p a = true ↔ cls a = c) {a : α} : l.find? p = some a ↔ a ∈ l ∧ cls a = c := by
  constructor
  · intro hfind
    exact ⟨List.mem_of_find?_eq_some hfind, (hp a).1 (List.find?_some hfind)⟩
  · rintro ⟨ha, hc⟩
    cases hfind : l.find? p with
    | none => exact absurd ((hp a).2 hc) (List.find?_eq_none.1 hfind a ha)
    | some b =>
      have hb := (hp b).1 (List.find?_some hfind)
      rw [h.eq_of_cls_eq ha (List.mem_of_find?_eq_some hfind) (hc.trans hb.symm)]

/-- The element at a position is replaced by the last one, and the list shortened. -/
def swapRemove (l : List α) (i : ℕ) : List α :=
  match l.getLast? with
  | none => []
  | some last => (l.set i last).dropLast

theorem swapRemove_concat (init : List α) (last : α) (i : ℕ) :
    swapRemove (init ++ [last]) i = init.set i last := by
  rw [swapRemove, List.getLast?_concat]
  dsimp only
  rcases Nat.lt_or_ge i init.length with hlt | hge
  · rw [List.set_append_left _ _ hlt, List.dropLast_concat]
  · rw [List.set_append_right _ _ hge, List.set_eq_of_length_le hge]
    cases i - init.length <;> simp

theorem swapRemove_perm {i : ℕ} (hi : i < l.length) : (l[i] :: swapRemove l i).Perm l := by
  rcases List.eq_nil_or_concat' l with rfl | ⟨init, last, rfl⟩
  · simp at hi
  rw [swapRemove_concat]
  rcases Nat.lt_or_ge i init.length with hlt | hge
  · rw [List.getElem_append_left hlt]
    calc (init[i] :: init.set i last).Perm (init[i] :: last :: init.eraseIdx i) :=
        .cons _ (List.set_perm_cons_eraseIdx hlt last)
      _ |>.Perm (last :: init[i] :: init.eraseIdx i) := .swap _ _ _
      _ |>.Perm (last :: init) := .cons _ (List.getElem_cons_eraseIdx_perm hlt)
      _ |>.Perm (init ++ [last]) := (List.perm_append_singleton last init).symm
  · -- the last element itself
    obtain rfl : i = init.length := by simp at hi; omega
    rw [List.set_eq_of_length_le le_rfl]
    simpa using (List.perm_append_singleton last init).symm

end Classes

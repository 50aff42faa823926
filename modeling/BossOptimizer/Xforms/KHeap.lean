import BossOptimizer.Lib.ArrayHeap
import Mathlib.Data.List.ReduceOption

/-!
# The k lowest-cost entries: `KHeap`

Entries are appended to an array, which the first removal turns into a min-heap. Removals take the
root away, the last entry takes its place and is pushed down. `RemoveBestElement` stops after `k`
entries, `RemoveNextElement` does not. Costs are exact and do not change between the first removal
and the last; positions are natural numbers.
-/

namespace BossOptimizer

open ArrayHeap

/-- `CJoinOrderDPv2::KHeap` (CJoinOrderDPv2.h:55). -/
structure KHeap (E : Type) where
  m_topk : Array E
  m_k : ℕ
  m_is_heapified : Bool
  m_num_returned : ℕ
  deriving Repr

namespace KHeap

variable {E C : Type} [LinearOrder C]

/-- The constructor (CJoinOrderDPv2.h:162). -/
def new (k : ℕ) : KHeap E := ⟨#[], k, false, 0⟩

/-- `parent`; the root's is the size, which no entry has. -/
def parent (a : Array E) (ix : ℕ) : ℕ := if 0 < ix then (ix - 1) / 2 else a.size

def left_child (ix : ℕ) : ℕ := 2 * ix + 1
def right_child (ix : ℕ) : ℕ := 2 * ix + 2

variable (GetCostForHeap : E → C)

/-- `exists(i) && cost(i) < cost(j)`. -/
def lower (a : Array E) (i j : ℕ) : Bool :=
  match a[i]?, a[j]? with
  | some x, some y => GetCostForHeap x < GetCostForHeap y
  | _, _ => false

/-- `min_element_ix` of `HeapifyDown`: the node or its cheaper child. -/
def min_element_ix (a : Array E) (ix : ℕ) : ℕ :=
  let min_element_ix :=
    if lower GetCostForHeap a (left_child ix) ix then left_child ix else ix
  if lower GetCostForHeap a (right_child ix) min_element_ix then right_child ix
  else min_element_ix

section Lower

variable {GetCostForHeap} {a : Array E} {i j ix : ℕ}

theorem lower_eq_true_iff : lower GetCostForHeap a i j = true ↔
    ∃ x y, a[i]? = some x ∧ a[j]? = some y ∧ GetCostForHeap x < GetCostForHeap y := by
  rw [lower]
  split
  · next x y hx hy => simp [hx, hy]
  · next hnone =>
    simp only [Bool.false_eq_true, false_iff, not_exists]
    rintro x y ⟨hx, hy, -⟩
    exact hnone x y hx hy

theorem lt_size_of_lower (h : lower GetCostForHeap a i j = true) : i < a.size := by
  obtain ⟨x, -, hx, -, -⟩ := lower_eq_true_iff.1 h
  exact (Array.getElem?_eq_some_iff.1 hx).1

theorem le_of_lower (h : lower GetCostForHeap a i j = true) : Le GetCostForHeap a i j := by
  obtain ⟨x, y, hx, hy, hlt⟩ := lower_eq_true_iff.1 h
  intro x' hx' y' hy'
  cases hx.symm.trans hx'
  cases hy.symm.trans hy'
  exact hlt.le

theorem le_of_not_lower (h : ¬lower GetCostForHeap a j i = true) : Le GetCostForHeap a i j := by
  intro x hx y hy
  by_contra hlt
  exact h (lower_eq_true_iff.2 ⟨y, x, hy, hx, not_le.1 hlt⟩)

variable (GetCostForHeap a ix) in
/-- The cheapest of the node and its children is one of them, there and no dearer than the
    others. -/
theorem min_element_ix_spec :
    (min_element_ix GetCostForHeap a ix = ix ∨
      IsChild ix (min_element_ix GetCostForHeap a ix) ∧
        min_element_ix GetCostForHeap a ix < a.size ∧
        Le GetCostForHeap a (min_element_ix GetCostForHeap a ix) ix) ∧
      ∀ j, IsChild ix j → Le GetCostForHeap a (min_element_ix GetCostForHeap a ix) j := by
  rw [min_element_ix]
  by_cases hleft : lower GetCostForHeap a (left_child ix) ix = true
  · simp only [hleft, if_true]
    have hsize := lt_size_of_lower hleft
    by_cases hright : lower GetCostForHeap a (right_child ix) (left_child ix) = true
    · simp only [hright, if_true]
      refine ⟨.inr ⟨.inr rfl, lt_size_of_lower hright,
        (le_of_lower hright).trans hsize (le_of_lower hleft)⟩, ?_⟩
      rintro j (rfl | rfl)
      · exact le_of_lower hright
      · exact Le.refl a _
    · simp only [hright, Bool.false_eq_true, if_false]
      refine ⟨.inr ⟨.inl rfl, hsize, le_of_lower hleft⟩, ?_⟩
      rintro j (rfl | rfl)
      · exact Le.refl a _
      · exact le_of_not_lower hright
  · simp only [hleft, Bool.false_eq_true, if_false]
    by_cases hright : lower GetCostForHeap a (right_child ix) ix = true
    · simp only [hright, if_true]
      refine ⟨.inr ⟨.inr rfl, lt_size_of_lower hright, le_of_lower hright⟩, ?_⟩
      rintro j (rfl | rfl)
      · obtain ⟨-, y, -, hy, -⟩ := lower_eq_true_iff.1 hright
        exact (le_of_lower hright).trans (Array.getElem?_eq_some_iff.1 hy).1
          (le_of_not_lower hleft)
      · exact Le.refl a _
    · simp only [hright, Bool.false_eq_true, if_false]
      refine ⟨.inl trivial, ?_⟩
      rintro j (rfl | rfl)
      · exact le_of_not_lower hleft
      · exact le_of_not_lower hright

theorem sub_min_element_ix_lt (h : min_element_ix GetCostForHeap a ix ≠ ix) :
    a.size - min_element_ix GetCostForHeap a ix < a.size - ix := by
  rcases (min_element_ix_spec GetCostForHeap a ix).1 with heq | ⟨hchild, hsize, -⟩
  · exact absurd heq h
  · have := hchild.lt
    omega

end Lower

/-- `HeapifyDown` (CJoinOrderDPv2.h:107): push the node down as far as needed. -/
def HeapifyDown (a : Array E) (ix : ℕ) : Array E :=
  if min_element_ix GetCostForHeap a ix ≠ ix then
    HeapifyDown (a.swapIfInBounds ix (min_element_ix GetCostForHeap a ix))
      (min_element_ix GetCostForHeap a ix)
  else a
termination_by a.size - ix
decreasing_by
  rw [Array.size_swapIfInBounds]
  exact sub_min_element_ix_lt ‹_›

/-- `HeapifyUp` (CJoinOrderDPv2.h:130): pull the node up as far as needed. -/
def HeapifyUp (a : Array E) : ℕ → Array E
  | 0 => a
  | ix + 1 =>
    if lower GetCostForHeap a (ix + 1) (ix / 2) then
      HeapifyUp (a.swapIfInBounds (ix + 1) (ix / 2)) (ix / 2)
    else a
decreasing_by omega

/-- The loop of `Heapify` from a position down to the root; one below the root is no position. -/
def heapifyFrom (a : Array E) : ℕ → Array E
  | 0 => HeapifyDown GetCostForHeap a 0
  | ix + 1 => heapifyFrom (HeapifyDown GetCostForHeap a (ix + 1)) ix

/-- `Heapify` (CJoinOrderDPv2.h:147) on the array. -/
def heapified (a : Array E) : Array E :=
  let start_ix := parent a (a.size - 1)
  if start_ix < a.size then heapifyFrom GetCostForHeap a start_ix else a

/-- `Heapify`. -/
def Heapify (heap : KHeap E) : KHeap E :=
  { heap with m_topk := heapified GetCostForHeap heap.m_topk, m_is_heapified := true }

/-- `Insert` (CJoinOrderDPv2.h:174). -/
def Insert (heap : KHeap E) (elem : E) : KHeap E :=
  let m_topk := heap.m_topk.push elem
  { heap with
    m_topk := if heap.m_is_heapified then HeapifyUp GetCostForHeap m_topk (m_topk.size - 1)
      else m_topk }

/-- The root goes to the end and is taken away, the entry that took its place is pushed down. -/
def removeRoot (a : Array E) : Option E × Array E :=
  let swapped := a.swapIfInBounds 0 (a.size - 1)
  (swapped.back?, HeapifyDown GetCostForHeap swapped.pop 0)

/-- `RemoveNextElement` (CJoinOrderDPv2.h:206). -/
def RemoveNextElement (heap : KHeap E) : Option E × KHeap E :=
  if heap.m_topk.size = 0 then (none, heap)
  else
    let heap := if heap.m_is_heapified then heap else Heapify GetCostForHeap heap
    let removed := removeRoot GetCostForHeap heap.m_topk
    (removed.1, { heap with m_topk := removed.2 })

/-- `RemoveBestElement` (CJoinOrderDPv2.h:192). -/
def RemoveBestElement (heap : KHeap E) : Option E × KHeap E :=
  if heap.m_topk.size = 0 ∨ heap.m_k ≤ heap.m_num_returned then (none, heap)
  else RemoveNextElement GetCostForHeap { heap with m_num_returned := heap.m_num_returned + 1 }

/-- The two ways to take an entry out. -/
inductive Removal where
  | best
  | next
  deriving DecidableEq, Repr

/-- One removal. -/
def Removal.run : Removal → KHeap E → Option E × KHeap E
  | .best => RemoveBestElement GetCostForHeap
  | .next => RemoveNextElement GetCostForHeap

/-- The results of a sequence of removals, and the heap after it. -/
def removals : List Removal → KHeap E → List (Option E) × KHeap E
  | [], heap => ([], heap)
  | call :: calls, heap =>
    let result := call.run GetCostForHeap heap
    let rest := removals calls result.2
    (result.1 :: rest.1, rest.2)

/-- `IsLimitExceeded`. -/
def IsLimitExceeded (heap : KHeap E) : Bool := heap.m_k < heap.m_topk.size + heap.m_num_returned

/-- The loop of a caller that removes until the result is NULL. -/
def removeAll (call : Removal) : ℕ → KHeap E → List E × KHeap E
  | 0, heap => ([], heap)
  | fuel + 1, heap =>
    match call.run GetCostForHeap heap with
    | (some x, heap) =>
      let rest := removeAll call fuel heap
      (x :: rest.1, rest.2)
    | (none, heap) => ([], heap)

/-- Each removal makes the array smaller, so that its size bounds the number of removals. -/
def removeWhile (heap : KHeap E) (call : Removal) : List E × KHeap E :=
  removeAll GetCostForHeap call heap.m_topk.size heap

/-- A new heap after a sequence of insertions. -/
def inserted (k : ℕ) (elems : List E) : KHeap E := elems.foldl (Insert GetCostForHeap) (new k)

/-! ## The order of the array -/

section Order

variable {GetCostForHeap} {a : Array E} {lo ix : ℕ}

variable (GetCostForHeap) in
theorem heapifyDown_perm (a : Array E) (ix : ℕ) :
    (HeapifyDown GetCostForHeap a ix).toList.Perm a.toList := by
  induction a, ix using HeapifyDown.induct GetCostForHeap with
  | case1 a ix hne ih =>
    rw [HeapifyDown, if_pos hne]
    exact ih.trans (swapIfInBounds_perm _ _ _)
  | case2 a ix heq => rw [HeapifyDown, if_neg heq]

variable (GetCostForHeap) in
@[simp] theorem size_heapifyDown (a : Array E) (ix : ℕ) :
    (HeapifyDown GetCostForHeap a ix).size = a.size := by
  simpa using (heapifyDown_perm GetCostForHeap a ix).length_eq

/-- **Pushing the entry in the hole down restores the order.** -/
theorem orderedFrom_heapifyDown (hlo : lo ≤ ix) (h : OrderedExcept GetCostForHeap lo ix a) :
    OrderedFrom GetCostForHeap lo (HeapifyDown GetCostForHeap a ix) := by
  induction a, ix using HeapifyDown.induct GetCostForHeap with
  | case1 a ix hne ih =>
    rw [HeapifyDown, if_pos hne]
    obtain ⟨heq | ⟨hchild, hsize, hle⟩, hmin⟩ := min_element_ix_spec GetCostForHeap a ix
    · exact absurd heq hne
    · exact ih (hlo.trans hchild.lt.le) (h.swap hlo hchild hsize hle hmin)
  | case2 a ix heq =>
    rw [HeapifyDown, if_neg heq]
    have hmin := (min_element_ix_spec GetCostForHeap a ix).2
    rw [not_not.1 heq] at hmin
    exact h.ordered hmin

variable (GetCostForHeap) in
theorem heapifyFrom_perm (a : Array E) (ix : ℕ) :
    (heapifyFrom GetCostForHeap a ix).toList.Perm a.toList := by
  induction ix generalizing a with
  | zero => exact heapifyDown_perm GetCostForHeap a 0
  | succ ix ih => exact (ih _).trans (heapifyDown_perm GetCostForHeap a (ix + 1))

/-- The loop extends the order down to the root. -/
theorem orderedFrom_heapifyFrom (h : OrderedFrom GetCostForHeap (ix + 1) a) :
    OrderedFrom GetCostForHeap 0 (heapifyFrom GetCostForHeap a ix) := by
  induction ix generalizing a with
  | zero => exact orderedFrom_heapifyDown le_rfl h.except
  | succ ix ih => exact ih (orderedFrom_heapifyDown le_rfl h.except)

variable (GetCostForHeap) in
theorem heapified_perm (a : Array E) : (heapified GetCostForHeap a).toList.Perm a.toList := by
  rw [heapified]
  split_ifs
  · exact heapifyFrom_perm GetCostForHeap a _
  · exact .refl _

variable (GetCostForHeap) in
/-- **`Heapify` orders the array**: entries behind the parent of the last one have no children. -/
theorem orderedFrom_heapified (a : Array E) :
    OrderedFrom GetCostForHeap 0 (heapified GetCostForHeap a) := by
  rw [heapified]
  split_ifs with hstart
  · refine orderedFrom_heapifyFrom (orderedFrom_of_size_le ?_)
    rw [parent]
    split_ifs <;> omega
  · refine orderedFrom_of_size_le ?_
    rw [parent] at hstart
    split_ifs at hstart <;> omega

theorem removeRoot_eq_none_iff : (removeRoot GetCostForHeap a).1 = none ↔ a.size = 0 := by
  rw [removeRoot, Array.back?, Array.getElem?_eq_none_iff, Array.size_swapIfInBounds]
  omega

theorem size_pos_of_removeRoot {x : E} (hx : (removeRoot GetCostForHeap a).1 = some x) :
    0 < a.size := by
  refine Nat.pos_of_ne_zero fun hzero => ?_
  rw [removeRoot_eq_none_iff.2 hzero] at hx
  cases hx

theorem removeRoot_perm {x : E} (hx : (removeRoot GetCostForHeap a).1 = some x) :
    a.toList.Perm (x :: (removeRoot GetCostForHeap a).2.toList) := by
  rw [removeRoot] at hx ⊢
  obtain ⟨rest, hrest⟩ := Array.back?_eq_some_iff.1 hx
  have hlast := swapIfInBounds_perm a 0 (a.size - 1)
  rw [hrest, Array.toList_push] at hlast
  rw [hrest, Array.pop_push]
  exact hlast.symm.trans ((List.perm_append_singleton x rest.toList).trans
    ((heapifyDown_perm GetCostForHeap rest 0).symm.cons x))

/-- **The entry removed from an ordered array is the cheapest, and the others stay ordered.** -/
theorem removeRoot_spec (h : OrderedFrom GetCostForHeap 0 a) {x : E}
    (hx : (removeRoot GetCostForHeap a).1 = some x) :
    (∀ y ∈ a.toList, GetCostForHeap x ≤ GetCostForHeap y) ∧
      OrderedFrom GetCostForHeap 0 (removeRoot GetCostForHeap a).2 := by
  have hsize := size_pos_of_removeRoot hx
  have hroot : a[0]? = some x := by
    rwa [removeRoot, Array.back?, Array.size_swapIfInBounds,
      getElem?_swapIfInBounds hsize (by omega), Equiv.swap_apply_right] at hx
  refine ⟨fun y hy => ?_, orderedFrom_heapifyDown le_rfl h.pop_swap_root⟩
  obtain ⟨j, hj, rfl⟩ := List.mem_iff_getElem.1 hy
  rw [Array.length_toList] at hj
  exact h.root_le hj x hroot _ (Array.getElem?_eq_getElem hj)

end Order

/-! ## Insertions -/

section Insert

variable {GetCostForHeap}

variable (GetCostForHeap) in
theorem heapifyUp_perm (a : Array E) (ix : ℕ) :
    (HeapifyUp GetCostForHeap a ix).toList.Perm a.toList := by
  induction a, ix using HeapifyUp.induct GetCostForHeap with
  | case1 a => rw [HeapifyUp]
  | case2 a ix hlower ih =>
    rw [HeapifyUp, if_pos hlower]
    exact ih.trans (swapIfInBounds_perm _ _ _)
  | case3 a ix hlower => rw [HeapifyUp, if_neg hlower]

/-- An insertion adds the entry and nothing else. -/
theorem mem_insert {heap : KHeap E} {x y : E} :
    x ∈ (Insert GetCostForHeap heap y).m_topk.toList ↔ x ∈ heap.m_topk.toList ∨ x = y := by
  have hpush : x ∈ (heap.m_topk.push y).toList ↔ x ∈ heap.m_topk.toList ∨ x = y := by simp
  rw [Insert]
  dsimp only
  split_ifs
  · exact (heapifyUp_perm GetCostForHeap _ _).mem_iff.trans hpush
  · exact hpush

end Insert

/-! ## A queue with a limit -/

/-- What the heap stands for: its entries in the order of their removal, and how many of them
    `RemoveBestElement` may still return. -/
structure Queue (E : Type) where
  left : ℕ
  entries : List E

/-- One removal from the queue. -/
def Removal.serve : Removal → Queue E → Option E × Queue E
  | _, ⟨left, []⟩ => (none, ⟨left, []⟩)
  | .next, ⟨left, x :: entries⟩ => (some x, ⟨left, entries⟩)
  | .best, ⟨0, x :: entries⟩ => (none, ⟨0, x :: entries⟩)
  | .best, ⟨left + 1, x :: entries⟩ => (some x, ⟨left, entries⟩)

/-- The results of a sequence of removals, and the queue after it. -/
def serves : List Removal → Queue E → List (Option E) × Queue E
  | [], queue => ([], queue)
  | call :: calls, queue =>
    let result := call.serve queue
    let rest := serves calls result.2
    (result.1 :: rest.1, rest.2)

/-- Nothing is lost and nothing is returned twice. -/
theorem serve_conserved (call : Removal) (queue : Queue E) :
    (call.serve queue).1.toList ++ (call.serve queue).2.entries = queue.entries := by
  obtain ⟨left, _ | ⟨x, entries⟩⟩ := queue
  · cases call <;> rfl
  · cases call with
    | next => rfl
    | best => cases left <;> rfl

/-- The entries in the order of their removal. -/
def drained (a : Array E) : List E :=
  if a.size = 0 then []
  else
    match (removeRoot GetCostForHeap a).1 with
    | some x => x :: drained (removeRoot GetCostForHeap a).2
    | none => []
termination_by a.size
decreasing_by
  simp only [removeRoot, size_heapifyDown, Array.size_pop, Array.size_swapIfInBounds]
  omega

/-- The array that the next removal works on. -/
def view (heap : KHeap E) : Array E :=
  if heap.m_is_heapified then heap.m_topk else heapified GetCostForHeap heap.m_topk

/-- The queue of a heap. -/
def queue (heap : KHeap E) : Queue E :=
  ⟨heap.m_k - heap.m_num_returned, drained GetCostForHeap (view GetCostForHeap heap)⟩

section Refinement

variable {GetCostForHeap} {a : Array E} {heap : KHeap E}

theorem drained_of_some {x : E} (hx : (removeRoot GetCostForHeap a).1 = some x) :
    drained GetCostForHeap a = x :: drained GetCostForHeap (removeRoot GetCostForHeap a).2 := by
  rw [drained, if_neg (size_pos_of_removeRoot hx).ne', hx]

theorem drained_of_none (h : a.size = 0) : drained GetCostForHeap a = [] := by
  rw [drained, if_pos h]

variable (GetCostForHeap) in
theorem drained_perm (a : Array E) : (drained GetCostForHeap a).Perm a.toList := by
  induction a using drained.induct GetCostForHeap with
  | case1 a hzero => rw [drained_of_none hzero, Array.eq_empty_of_size_eq_zero hzero]
  | case2 a hsize x hx ih =>
    rw [drained_of_some hx]
    exact (ih.cons x).trans (removeRoot_perm hx).symm
  | case3 a hsize hnone => exact absurd (removeRoot_eq_none_iff.1 hnone) hsize

/-- **An ordered array is drained in the order of the costs.** -/
theorem pairwise_drained (h : OrderedFrom GetCostForHeap 0 a) :
    (drained GetCostForHeap a).Pairwise fun x y => GetCostForHeap x ≤ GetCostForHeap y := by
  induction a using drained.induct GetCostForHeap with
  | case1 a hzero =>
    rw [drained_of_none hzero]
    exact .nil
  | case2 a hsize x hx ih =>
    obtain ⟨hmin, hordered⟩ := removeRoot_spec h hx
    rw [drained_of_some hx]
    refine .cons (fun y hy => hmin y ?_) (ih hordered)
    have hrest := (drained_perm GetCostForHeap (removeRoot GetCostForHeap a).2).mem_iff.1 hy
    exact (removeRoot_perm hx).mem_iff.2 (List.mem_cons_of_mem x hrest)
  | case3 a hsize hnone => exact absurd (removeRoot_eq_none_iff.1 hnone) hsize

variable (GetCostForHeap heap) in
theorem view_perm : (view GetCostForHeap heap).toList.Perm heap.m_topk.toList := by
  rw [view]
  split_ifs
  · exact .refl _
  · exact heapified_perm GetCostForHeap heap.m_topk

theorem size_view : (view GetCostForHeap heap).size = heap.m_topk.size := by
  simpa using (view_perm GetCostForHeap heap).length_eq

theorem drained_view_of_empty (h : heap.m_topk.size = 0) :
    drained GetCostForHeap (view GetCostForHeap heap) = [] :=
  drained_of_none (size_view.trans h)

variable (GetCostForHeap) in
theorem exists_root (h : heap.m_topk.size ≠ 0) :
    ∃ x, (removeRoot GetCostForHeap (view GetCostForHeap heap)).1 = some x := by
  refine Option.ne_none_iff_exists'.1 fun hnone => h ?_
  exact size_view.symm.trans (removeRoot_eq_none_iff.1 hnone)

/-- A removal that finds an entry takes the root of the ordered array. -/
theorem removeNextElement_of_ne (h : heap.m_topk.size ≠ 0) :
    RemoveNextElement GetCostForHeap heap =
      ((removeRoot GetCostForHeap (view GetCostForHeap heap)).1,
        { heap with
          m_topk := (removeRoot GetCostForHeap (view GetCostForHeap heap)).2
          m_is_heapified := true }) := by
  rw [RemoveNextElement, if_neg h, view]
  cases hheap : heap.m_is_heapified
  · rfl
  · simp only [if_true, hheap]

/-- **`RemoveNextElement` serves the queue without its limit.** -/
theorem removeNextElement_refines :
    ((RemoveNextElement GetCostForHeap heap).1,
      queue GetCostForHeap (RemoveNextElement GetCostForHeap heap).2) =
    Removal.next.serve (queue GetCostForHeap heap) := by
  by_cases hsize : heap.m_topk.size = 0
  · rw [RemoveNextElement, if_pos hsize, queue, drained_view_of_empty hsize]
    rfl
  · obtain ⟨x, hx⟩ := exists_root GetCostForHeap hsize
    rw [removeNextElement_of_ne hsize, queue, queue, drained_of_some hx, hx]
    rfl

/-- **`RemoveBestElement` serves the queue within its limit.** -/
theorem removeBestElement_refines :
    ((RemoveBestElement GetCostForHeap heap).1,
      queue GetCostForHeap (RemoveBestElement GetCostForHeap heap).2) =
    Removal.best.serve (queue GetCostForHeap heap) := by
  by_cases hsize : heap.m_topk.size = 0
  · rw [RemoveBestElement, if_pos (.inl hsize), queue, drained_view_of_empty hsize]
    rfl
  · obtain ⟨x, hx⟩ := exists_root GetCostForHeap hsize
    by_cases hlimit : heap.m_k ≤ heap.m_num_returned
    · rw [RemoveBestElement, if_pos (.inr hlimit), queue, drained_of_some hx,
        Nat.sub_eq_zero_of_le hlimit]
      rfl
    · obtain ⟨left, hleft⟩ : ∃ left, heap.m_k - heap.m_num_returned = left + 1 :=
        ⟨heap.m_k - heap.m_num_returned - 1, by omega⟩
      have hqueue : queue GetCostForHeap { heap with m_num_returned := heap.m_num_returned + 1 } =
          ⟨left, drained GetCostForHeap (view GetCostForHeap heap)⟩ :=
        congrArg (fun left => (⟨left, drained GetCostForHeap (view GetCostForHeap heap)⟩ : Queue E))
          (show heap.m_k - (heap.m_num_returned + 1) = left by omega)
      rw [RemoveBestElement, if_neg (by omega), removeNextElement_refines, hqueue, queue,
        drained_of_some hx, hleft]
      rfl

variable (GetCostForHeap heap) in
theorem run_refines (call : Removal) :
    ((call.run GetCostForHeap heap).1, queue GetCostForHeap (call.run GetCostForHeap heap).2) =
      call.serve (queue GetCostForHeap heap) := by
  cases call with
  | best => exact removeBestElement_refines
  | next => exact removeNextElement_refines

/-- **Every sequence of removals serves the queue.** -/
theorem removals_refines (GetCostForHeap : E → C) (calls : List Removal) (heap : KHeap E) :
    ((removals GetCostForHeap calls heap).1,
      queue GetCostForHeap (removals GetCostForHeap calls heap).2) =
    serves calls (queue GetCostForHeap heap) := by
  induction calls generalizing heap with
  | nil => rfl
  | cons call calls ih =>
    rw [removals, serves, ← run_refines GetCostForHeap, ← ih]

variable (GetCostForHeap heap) in
theorem queue_perm : (queue GetCostForHeap heap).entries.Perm heap.m_topk.toList :=
  (drained_perm GetCostForHeap _).trans (view_perm GetCostForHeap heap)

variable (GetCostForHeap) in
/-- What a removal takes out and what it leaves make up the heap. -/
theorem run_perm (call : Removal) (heap : KHeap E) :
    ((call.run GetCostForHeap heap).1.toList ++
      (call.run GetCostForHeap heap).2.m_topk.toList).Perm heap.m_topk.toList := by
  have hconserved := serve_conserved call (queue GetCostForHeap heap)
  rw [← run_refines] at hconserved
  exact ((queue_perm GetCostForHeap _).symm.append_left _).trans
    ((List.Perm.of_eq hconserved).trans (queue_perm GetCostForHeap heap))

variable (GetCostForHeap) in
/-- What a loop of removals takes out and what it leaves make up the heap. -/
theorem removeAll_perm (call : Removal) (fuel : ℕ) (heap : KHeap E) :
    ((removeAll GetCostForHeap call fuel heap).1 ++
      (removeAll GetCostForHeap call fuel heap).2.m_topk.toList).Perm heap.m_topk.toList := by
  induction fuel generalizing heap with
  | zero => exact .refl _
  | succ fuel ih =>
    have hrun := run_perm GetCostForHeap call heap
    rw [removeAll]
    generalize call.run GetCostForHeap heap = outcome at hrun
    obtain ⟨_ | x, after⟩ := outcome
    · exact hrun
    · exact ((ih after).cons x).trans hrun

/-- `RemoveNextElement` in a loop empties the heap. -/
theorem removeAll_next_eq_nil {fuel : ℕ} (h : heap.m_topk.size ≤ fuel) :
    (removeAll GetCostForHeap .next fuel heap).2.m_topk.toList = [] := by
  induction fuel generalizing heap with
  | zero => exact Array.toList_eq_nil_iff.2 (Array.eq_empty_of_size_eq_zero (Nat.le_zero.1 h))
  | succ fuel ih =>
    have hrun := (run_perm GetCostForHeap .next heap).length_eq
    have hnext : heap.m_topk.size ≠ 0 → (Removal.next.run GetCostForHeap heap).1 ≠ none := by
      intro hsize
      obtain ⟨x, hx⟩ := exists_root GetCostForHeap hsize
      rw [Removal.run, removeNextElement_of_ne hsize, hx]
      exact Option.some_ne_none x
    rw [removeAll]
    generalize Removal.next.run GetCostForHeap heap = outcome at hrun hnext
    obtain ⟨_ | x, after⟩ := outcome
    · have hsize : heap.m_topk.size = 0 := by
        by_contra hsize
        exact hnext hsize rfl
      exact List.eq_nil_of_length_eq_zero
        (hrun.trans (Array.length_toList.trans hsize))
    · refine ih ?_
      simp only [Option.toList_some, List.length_append, List.length_singleton,
        Array.length_toList] at hrun
      omega

/-- A heap with an entry and a limit above zero has a best entry. -/
theorem removeWhile_best_ne_nil {heap : KHeap E} (hk : heap.m_num_returned < heap.m_k)
    (hsize : heap.m_topk.toList ≠ []) : (removeWhile GetCostForHeap heap .best).1 ≠ [] := by
  have hne : heap.m_topk.size ≠ 0 := by
    rwa [← Array.length_toList, Ne, List.length_eq_zero_iff]
  obtain ⟨fuel, hfuel⟩ := Nat.exists_eq_succ_of_ne_zero hne
  obtain ⟨x, hx⟩ := exists_root GetCostForHeap hne
  obtain ⟨left, hleft⟩ : ∃ left, heap.m_k - heap.m_num_returned = left + 1 :=
    ⟨heap.m_k - heap.m_num_returned - 1, by omega⟩
  have hrun := run_refines GetCostForHeap heap .best
  have hqueue : queue GetCostForHeap heap = ⟨left + 1, x :: drained GetCostForHeap
      (removeRoot GetCostForHeap (view GetCostForHeap heap)).2⟩ := by
    rw [queue, drained_of_some hx, hleft]
  rw [hqueue] at hrun
  rw [removeWhile, hfuel, removeAll]
  generalize Removal.best.run GetCostForHeap heap = outcome at hrun
  obtain ⟨result, after⟩ := outcome
  obtain rfl : result = some x := congrArg Prod.fst hrun
  exact List.cons_ne_nil _ _

end Refinement

/-! ## What the removals return -/

/-- How many of the calls of `RemoveBestElement` returned an entry. -/
def bestReturned (calls : List Removal) (results : List (Option E)) : ℕ :=
  (calls.zip results).countP fun p => p.1 = .best && p.2.isSome

section Serves

variable {q : Queue E} {calls : List Removal} {call : Removal} {i : ℕ}

theorem serves_conserved (calls : List Removal) (q : Queue E) :
    (serves calls q).1.reduceOption ++ (serves calls q).2.entries = q.entries := by
  induction calls generalizing q with
  | nil => rfl
  | cons call calls ih =>
    have hstep := serve_conserved call q
    rw [← ih (call.serve q).2] at hstep
    rw [serves]
    cases hresult : (call.serve q).1 with
    | none => simpa [hresult] using hstep
    | some x => simpa [hresult] using hstep

/-- **A removal returns nothing when all entries are gone, and `RemoveBestElement` also when it has
    returned as many as it may.** -/
theorem serves_eq_none_iff (hi : calls[i]? = some call) :
    (serves calls q).1[i]? = some none ↔
      q.entries.length ≤ ((serves calls q).1.take i).reduceOption.length ∨
        call = .best ∧ q.left ≤ bestReturned (calls.take i) ((serves calls q).1.take i) := by
  induction calls generalizing q i with
  | nil => cases hi
  | cons first calls ih =>
    cases i with
    | zero =>
      obtain rfl : first = call := Option.some.inj hi
      obtain ⟨left, _ | ⟨x, entries⟩⟩ := q
      · cases first <;> simp [serves, Removal.serve]
      · cases first with
        | next => simp [serves, Removal.serve]
        | best => cases left <;> simp [serves, Removal.serve, bestReturned]
    | succ i =>
      have hrest := fun q => ih (q := q) (i := i) hi
      obtain ⟨left, _ | ⟨x, entries⟩⟩ := q
      · have := hrest ⟨left, []⟩
        cases first <;> simpa [serves, Removal.serve, bestReturned] using this
      · cases first with
        | next =>
          have := hrest ⟨left, entries⟩
          simpa [serves, Removal.serve, bestReturned] using this
        | best =>
          cases left with
          | zero =>
            have := hrest ⟨0, x :: entries⟩
            simpa [serves, Removal.serve, bestReturned] using this
          | succ left =>
            have := hrest ⟨left, entries⟩
            simpa [serves, Removal.serve, bestReturned] using this

/-- `RemoveBestElement` alone returns the first entries of the queue, as many as it may. -/
theorem serves_best (hbest : ∀ call ∈ calls, call = .best) (hi : i < calls.length) :
    (serves calls q).1[i]? = some (q.entries.take q.left)[i]? := by
  induction calls generalizing q i with
  | nil => cases hi
  | cons first calls ih =>
    obtain rfl := hbest first List.mem_cons_self
    have hrest := fun q i => ih (q := q) (i := i)
      (fun call hcall => hbest call (List.mem_cons_of_mem _ hcall))
    obtain ⟨left, _ | ⟨x, entries⟩⟩ := q
    · cases i with
      | zero => simp [serves, Removal.serve]
      | succ i =>
        have := hrest ⟨left, []⟩ i (Nat.lt_of_succ_lt_succ hi)
        simpa [serves, Removal.serve] using this
    · cases left with
      | zero =>
        cases i with
        | zero => simp [serves, Removal.serve]
        | succ i =>
          have := hrest ⟨0, x :: entries⟩ i (Nat.lt_of_succ_lt_succ hi)
          simpa [serves, Removal.serve] using this
      | succ left =>
        cases i with
        | zero => simp [serves, Removal.serve]
        | succ i =>
          have := hrest ⟨left, entries⟩ i (Nat.lt_of_succ_lt_succ hi)
          simpa [serves, Removal.serve] using this

end Serves

/-- What a heap of limit `k` is for: the results of the removals and the entries left over. -/
structure TopK (k : ℕ) (elems : List E) (calls : List Removal) (results : List (Option E))
    (rest : List E) : Prop where
  conserved : (results.reduceOption ++ rest).Perm elems
  sorted : results.reduceOption.Pairwise fun x y => GetCostForHeap x ≤ GetCostForHeap y
  smallest : ∀ x ∈ results.reduceOption, ∀ y ∈ rest, GetCostForHeap x ≤ GetCostForHeap y
  null : ∀ (i : ℕ) (call : Removal), calls[i]? = some call → (results[i]? = some none ↔
    elems.length ≤ (results.take i).reduceOption.length ∨
      call = .best ∧ k ≤ bestReturned (calls.take i) (results.take i))
  best : (∀ call ∈ calls, call = .best) → ∀ i < calls.length,
    ((∃ x, results[i]? = some (some x)) ↔ i < min k elems.length)

section TopK

variable {GetCostForHeap}

variable (GetCostForHeap) in
theorem inserted_eq (k : ℕ) (elems : List E) :
    inserted GetCostForHeap k elems = ⟨elems.toArray, k, false, 0⟩ := by
  have hfold : ∀ (a : Array E), elems.foldl (Insert GetCostForHeap) ⟨a, k, false, 0⟩ =
      ⟨a ++ elems.toArray, k, false, 0⟩ := by
    induction elems with
    | nil => simp
    | cons x elems ih =>
      intro a
      rw [List.foldl_cons, Insert]
      simpa using ih (a.push x)
  simpa [inserted, new] using hfold #[]

variable (GetCostForHeap) in
/-- **After any insertions, the removals return the entries in the order of their costs, those of
`RemoveBestElement` within the limit.** -/
theorem removals_topK (k : ℕ) (elems : List E) (calls : List Removal) :
    TopK GetCostForHeap k elems calls
      (removals GetCostForHeap calls (inserted GetCostForHeap k elems)).1
      (removals GetCostForHeap calls (inserted GetCostForHeap k elems)).2.m_topk.toList := by
  obtain ⟨q, hq⟩ : ∃ q, queue GetCostForHeap (inserted GetCostForHeap k elems) = q := ⟨_, rfl⟩
  have hinserted := inserted_eq GetCostForHeap k elems
  have hleft : q.left = k := by rw [← hq, hinserted, queue, Nat.sub_zero]
  have hperm : q.entries.Perm elems := by
    rw [← hq, hinserted]
    exact (drained_perm GetCostForHeap _).trans (heapified_perm GetCostForHeap elems.toArray)
  have hsorted : q.entries.Pairwise fun x y => GetCostForHeap x ≤ GetCostForHeap y := by
    rw [← hq, hinserted]
    exact pairwise_drained (orderedFrom_heapified GetCostForHeap elems.toArray)
  have hrun := removals_refines GetCostForHeap calls
    (inserted GetCostForHeap k elems)
  rw [hq] at hrun
  generalize removals GetCostForHeap calls (inserted GetCostForHeap k elems) = run at hrun
  obtain ⟨results, heap⟩ := run
  obtain rfl : results = (serves calls q).1 := congrArg Prod.fst hrun
  have hrest : (serves calls q).2.entries.Perm heap.m_topk.toList := by
    rw [← hrun]
    exact queue_perm GetCostForHeap heap
  have hconserved := serves_conserved calls q
  rw [← hconserved, List.pairwise_append] at hsorted
  refine ⟨?_, hsorted.1, fun x hx y hy => hsorted.2.2 x hx y (hrest.mem_iff.2 hy), ?_, ?_⟩
  · exact (hrest.symm.append_left _).trans (hconserved ▸ hperm)
  · intro i call hi
    rw [serves_eq_none_iff hi, hleft, hperm.length_eq]
  · intro hbest i hi
    have hlength : (q.entries.take q.left).length = min k elems.length := by
      rw [List.length_take, hleft, hperm.length_eq]
    rw [serves_best hbest hi, ← hlength]
    simp only [Option.some.injEq, List.getElem?_eq_some_iff, exists_comm, exists_eq', exists_prop,
      and_true]

/-- `RemoveNextElement` goes on where the limit has stopped `RemoveBestElement`. -/
theorem removals_beyond_limit : ¬∀ (k : ℕ) (elems : List ℕ) (calls : List Removal),
    (removals id calls (inserted id k elems)).1.reduceOption.length ≤ min k elems.length := by
  intro h
  have hlength := h 1 [2, 1] [.best, .best, .next]
  revert hlength
  decide +kernel

end TopK

end KHeap

end BossOptimizer

import BossOptimizer.Common.CBitSetMerge

/-!
# The elements of a bit set in order

`elements` lists the positions of a set in increasing order. `RecomputeSize` counts them, and
`CBitSetIter` visits exactly them.
-/

namespace BossOptimizer

namespace CBitSet

variable {vs : VectorSize} {links : List (CBitSetLink vs)} {p : ℕ}

/-- The set bits of a vector from `start` on. -/
def bitsFrom (v : CBitVector vs.bits) (start : ℕ) : List ℕ :=
  (List.range vs.bits).filter fun k => start ≤ k && v.Get k

/-- The positions of a link. -/
def linkBits (l : CBitSetLink vs) (start : ℕ) : List ℕ :=
  (bitsFrom l.m_vec start).map (l.m_offset + ·)

/-- The positions of all links. -/
def elements (links : List (CBitSetLink vs)) : List ℕ := links.flatMap (linkBits · 0)

theorem mem_bitsFrom {v : CBitVector vs.bits} {start k : ℕ} :
    k ∈ bitsFrom v start ↔ start ≤ k ∧ v.Get k = true := by
  simp only [bitsFrom, List.mem_filter, List.mem_range, Bool.and_eq_true, decide_eq_true_eq,
    and_iff_right_iff_imp, and_imp]
  exact fun _ hk => CBitVector.lt_of_Get hk

theorem bitsFrom_sorted (v : CBitVector vs.bits) (start : ℕ) :
    (bitsFrom v start).Pairwise (· < ·) := List.pairwise_lt_range.filter _

theorem mem_linkBits {l : CBitSetLink vs} :
    p ∈ linkBits l 0 ↔ ∃ k, l.m_vec.Get k = true ∧ l.m_offset + k = p := by
  simp [linkBits, mem_bitsFrom]

theorem mem_elements (h : LinksOk links) : p ∈ elements links ↔ Holds links p := by
  rw [elements, List.mem_flatMap]
  constructor
  · rintro ⟨l, hl, hp⟩
    obtain ⟨k, hk, rfl⟩ := mem_linkBits.mp hp
    exact holds_add h hl hk
  · rintro ⟨l, hl, hoff, hget⟩
    have hle : l.m_offset ≤ p := hoff ▸ ComputeOffset_le p
    exact ⟨l, hl, mem_linkBits.mpr ⟨_, hget, Nat.add_sub_cancel' hle⟩⟩

theorem elements_sorted (h : LinksOk links) : (elements links).Pairwise (· < ·) := by
  rw [elements, List.pairwise_flatMap]
  refine ⟨fun l _ => ?_, ?_⟩
  · exact List.pairwise_map.mpr ((bitsFrom_sorted _ _).imp fun hlt => Nat.add_lt_add_left hlt _)
  · refine List.Pairwise.imp_of_mem ?_ h.sorted
    intro l l' hl hl' hlt p hp q hq
    obtain ⟨k, hk, rfl⟩ := mem_linkBits.mp hp
    obtain ⟨j, -, rfl⟩ := mem_linkBits.mp hq
    -- aligned offsets lie a vector apart
    obtain ⟨a, ha⟩ := h.aligned l hl
    obtain ⟨b, hb⟩ := h.aligned l' hl'
    have hkn := CBitVector.lt_of_Get hk
    have hab : a + 1 ≤ b := Nat.lt_of_mul_lt_mul_left (ha ▸ hb ▸ hlt)
    have hstep : vs.bits * (a + 1) ≤ vs.bits * b := Nat.mul_le_mul_left _ hab
    rw [Nat.mul_succ] at hstep
    omega

theorem length_linkBits (l : CBitSetLink vs) : (linkBits l 0).length = l.m_vec.CountSetBits := by
  rw [CBitVector.CountSetBits_eq, linkBits, List.length_map, bitsFrom,
    ← List.countP_eq_length_filter, Nat.count]
  simp

/-- **`RecomputeSize` counts the elements.** -/
theorem RecomputeSize_size (links : List (CBitSetLink vs)) :
    (RecomputeSize links).m_size = (elements links).length % 2 ^ 32 := by
  rw [elements, List.length_flatMap]
  simp only [RecomputeSize, length_linkBits]

theorem length_elements_le (links : List (CBitSetLink vs)) :
    (elements links).length ≤ links.length * vs.bits := by
  induction links with
  | nil => simp [elements]
  | cons l links ih =>
    have hl : (linkBits l 0).length ≤ vs.bits := by
      rw [linkBits, List.length_map]
      exact (List.length_filter_le _ _).trans List.length_range.le
    rw [elements, List.flatMap_cons, List.length_append, List.length_cons, Nat.succ_mul]
    rw [elements] at ih
    omega

theorem bitsFrom_none {v : CBitVector vs.bits} {start : ℕ}
    (h : CBitVector.IsNext v.Get start none) : bitsFrom v start = [] := by
  refine List.filter_eq_nil_iff.mpr fun k _ => ?_
  simp only [Bool.and_eq_true, decide_eq_true_eq, not_and, Bool.not_eq_true]
  exact h k

theorem bitsFrom_some {v : CBitVector vs.bits} {start k : ℕ}
    (h : CBitVector.IsNext v.Get start (some k)) :
    bitsFrom v start = k :: bitsFrom v (k + 1) := by
  obtain ⟨hle, hget, hskip⟩ := h
  have hcons : (k :: bitsFrom v (k + 1)).Pairwise (· < ·) :=
    List.pairwise_cons.mpr ⟨fun j hj => (mem_bitsFrom.mp hj).1, bitsFrom_sorted v (k + 1)⟩
  have hsorted : SortedList.Sorted id (bitsFrom v start) := bitsFrom_sorted v start
  refine SortedList.sorted_ext hsorted hcons fun j => ?_
  rw [List.mem_cons, mem_bitsFrom, mem_bitsFrom]
  constructor
  · rintro ⟨hj, hgetj⟩
    rcases Nat.lt_trichotomy j k with hlt | rfl | hlt
    · rw [hskip j hj hlt] at hgetj
      exact Bool.noConfusion hgetj
    · exact .inl rfl
    · exact .inr ⟨hlt, hgetj⟩
  · rintro (rfl | ⟨hj, hgetj⟩)
    · exact ⟨hle, hget⟩
    · exact ⟨by omega, hgetj⟩

theorem isNext_end (v : CBitVector vs.bits) {start : ℕ} (h : vs.bits < start) :
    CBitVector.IsNext v.Get start none := by
  intro q hq
  by_contra hget
  have hlt := CBitVector.lt_of_Get (Bool.not_eq_false _ ▸ hget)
  omega

end CBitSet

namespace CBitSetIter

open CBitSet

variable {vs : VectorSize}

/-- What remains to be visited from a position in the first of the links on. -/
def pending : List (CBitSetLink vs) → ℕ → List ℕ
  | [], _ => []
  | l :: links, start => linkBits l start ++ elements links

/-- The bit after the cursor. -/
def nextPos (m_cursor : ℕ) : ℕ := (m_cursor + 1) % 2 ^ 32

theorem pending_zero (links : List (CBitSetLink vs)) : pending links 0 = elements links := by
  cases links <;> rfl

/-- **One `Advance`** stops at the first pending position, or ends when there is none. -/
theorem advanceLoop_spec (links : List (CBitSetLink vs)) (m_cursor : ℕ) :
    match pending links (nextPos m_cursor) with
    | [] => (advanceLoop links m_cursor).m_active = false
    | p :: rest => (advanceLoop links m_cursor).m_active = true ∧
        (advanceLoop links m_cursor).m_bsl ≠ [] ∧ (advanceLoop links m_cursor).Bit = p % 2 ^ 32 ∧
        pending (advanceLoop links m_cursor).m_bsl
          (nextPos (advanceLoop links m_cursor).m_cursor) = rest := by
  induction links generalizing m_cursor with
  | nil => rfl
  | cons l links ih =>
    have hnext : CBitVector.IsNext l.m_vec.Get (nextPos m_cursor)
        (if nextPos m_cursor ≤ vs.bits then l.m_vec.GetNextSetBit (nextPos m_cursor) else none) := by
      split
      · exact l.m_vec.GetNextSetBit_isNext _
      · exact isNext_end _ (by omega)
    have hloop : ∀ r, (if nextPos m_cursor ≤ vs.bits then l.m_vec.GetNextSetBit (nextPos m_cursor)
        else none) = r → advanceLoop (l :: links) m_cursor =
          r.elim (advanceLoop links (2 ^ 32 - 1)) (⟨·, l :: links, true⟩) := by
      intro r hr
      rw [nextPos] at hr
      cases r <;> simp only [advanceLoop, hr, Option.elim]
    rw [pending, linkBits]
    cases hr : (if nextPos m_cursor ≤ vs.bits then l.m_vec.GetNextSetBit (nextPos m_cursor)
      else none) with
    | none =>
      have hzero : nextPos (2 ^ 32 - 1) = 0 := rfl
      rw [hr] at hnext
      rw [hloop none hr, bitsFrom_none hnext, List.map_nil, List.nil_append, ← pending_zero, ← hzero]
      exact ih _
    | some k =>
      rw [hr] at hnext
      have hk := CBitVector.lt_of_Get hnext.2.1
      have hk' : nextPos k = k + 1 := Nat.mod_eq_of_lt (by have := vs.lt; omega)
      rw [hloop (some k) hr, Option.elim_some, bitsFrom_some hnext, List.map_cons, List.cons_append]
      exact ⟨rfl, List.cons_ne_nil l links, rfl, by rw [hk', pending, linkBits]⟩

/-- The positions that an iterator has not visited. -/
def rest (m_bs : CBitSet vs) (it : CBitSetIter vs) : List ℕ :=
  pending (if it.m_bsl.isEmpty then m_bs.m_bsllist else it.m_bsl) (nextPos it.m_cursor)

/-- **The iterator** visits the pending positions in order and ends. -/
theorem drain_spec {m_bs : CBitSet vs} {fuel : ℕ} {it : CBitSetIter vs}
    (hfuel : (rest m_bs it).length < fuel) (hbound : ∀ p ∈ rest m_bs it, p < 2 ^ 32) :
    drain m_bs fuel it = some (rest m_bs it) := by
  induction fuel generalizing it with
  | zero => omega
  | succ fuel ih =>
    have hstep := advanceLoop_spec
      (if it.m_bsl.isEmpty then m_bs.m_bsllist else it.m_bsl) it.m_cursor
    rw [← rest] at hstep
    rw [drain]
    cases hrest : rest m_bs it with
    | nil =>
      rw [hrest] at hstep
      have hend : (it.Advance m_bs).m_active = false := hstep
      simp [hend]
    | cons p tail =>
      rw [hrest] at hstep hfuel hbound
      obtain ⟨hactive, hbsl, hbit, htail⟩ := hstep
      have hrest' : rest m_bs (it.Advance m_bs) = tail := by
        rw [rest, Advance, if_neg (by simpa using hbsl)]
        exact htail
      have hp : (it.Advance m_bs).Bit = p := by
        rw [Advance, hbit, Nat.mod_eq_of_lt (hbound p List.mem_cons_self)]
      have hlt : (rest m_bs (it.Advance m_bs)).length < fuel := by
        rw [hrest']
        simpa using hfuel
      have htailBound : ∀ q ∈ rest m_bs (it.Advance m_bs), q < 2 ^ 32 := fun q hq =>
        hbound q (List.mem_cons_of_mem p (hrest' ▸ hq))
      rw [if_pos (by rw [Advance, hactive]), ih hlt htailBound, hp, hrest']
      rfl

end CBitSetIter

namespace CBitSet

variable {vs : VectorSize}

/-- **A fresh iterator visits the elements in increasing order.** -/
theorem iterate_eq {s : CBitSet vs} (hbound : ∀ p ∈ elements s.m_bsllist, p < 2 ^ 32) :
    s.iterate = some (elements s.m_bsllist) := by
  have hzero : CBitSetIter.nextPos (2 ^ 32 - 1) = 0 := rfl
  have hrest : CBitSetIter.rest s .new = elements s.m_bsllist := by
    rw [CBitSetIter.rest, CBitSetIter.new, hzero]
    exact CBitSetIter.pending_zero s.m_bsllist
  rw [iterate, CBitSetIter.drain_spec, hrest]
  · have := length_elements_le s.m_bsllist
    rw [hrest]
    omega
  · rwa [hrest]

end CBitSet

end BossOptimizer

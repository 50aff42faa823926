import BossOptimizer.Base.Interval
import Mathlib.Algebra.Order.Field.Basic
import Mathlib.Tactic.NormNum

/-!
# The interval operations as set operations

What an interval stands for is a set of column values: the datums of its ranges, and NULL when
its flag is set. This module states the four operations and the containment test at that level.
The operations are exact over every linear order. The containment test subtracts the ranges and
asks for an empty result, so it answers yes only when containment holds; it answers yes
whenever containment holds once the order has a datum between any two cuts, with one more
exception, the early exit on an unbounded argument.
-/

namespace BossOptimizer

namespace CConstraintInterval

variable {α : Type} [LinearOrder α]

/-- The range array is sorted and disjoint, and no range is empty as written. -/
def WellFormed (this : CConstraintInterval α) : Prop := Ordered this.pdrgprng

/-- The column values of an interval; `none` is NULL. -/
def members (this : CConstraintInterval α) : Set (Option α)
  | none => this.fIncludesNull = true
  | some a => ∃ r ∈ this.pdrgprng, a ∈ r.members

@[simp] theorem none_mem_members (this : CConstraintInterval α) :
    none ∈ this.members ↔ this.fIncludesNull = true := Iff.rfl

theorem some_mem_members (this : CConstraintInterval α) (a : α) :
    some a ∈ this.members ↔ Cut.before a ∈ cover this.pdrgprng := Iff.rfl

/-- The call returns a well-formed interval on `colref` with the given cuts and null flag. -/
def ReturnsCover (o : Except Fault (CConstraintInterval α)) (colref : CColRef)
    (cuts : Set (Cut α)) (includesNull : Bool) : Prop :=
  ∃ K, o = .ok K ∧ K.WellFormed ∧ K.pcr = colref ∧ cover K.pdrgprng = cuts ∧
    K.fIncludesNull = includesNull

/-- The call returns a well-formed interval on `colref` with exactly the given members. -/
def Returns (o : Except Fault (CConstraintInterval α)) (colref : CColRef)
    (values : Set (Option α)) : Prop :=
  ∃ K, o = .ok K ∧ K.WellFormed ∧ K.pcr = colref ∧ K.members = values

theorem ReturnsCover.returns {o : Except Fault (CConstraintInterval α)} {colref : CColRef}
    {cuts : Set (Cut α)} {includesNull : Bool} {values : Set (Option α)}
    (h : ReturnsCover o colref cuts includesNull)
    (hnull : none ∈ values ↔ includesNull = true)
    (hsome : ∀ a, some a ∈ values ↔ Cut.before a ∈ cuts) : Returns o colref values := by
  obtain ⟨K, ho, hwf, hcol, hcov, hn⟩ := h
  refine ⟨K, ho, hwf, hcol, Set.ext fun v => ?_⟩
  cases v with
  | none => rw [none_mem_members, hn, hnull]
  | some a => rw [some_mem_members, hcov, hsome]

variable {I J : CConstraintInterval α}

theorem pciIntersect_cover (hI : I.WellFormed) (hJ : J.WellFormed) :
    ReturnsCover (I.pciIntersect J) I.pcr (cover I.pdrgprng ∩ cover J.pdrgprng)
      (I.fIncludesNull && J.fIncludesNull) := by
  obtain ⟨out, hout, hord, hcov⟩ := intersectLoop_spec _ _ [] hI hJ ordered_nil (by simp)
  exact ⟨⟨I.pcr, out, _⟩, by rw [pciIntersect, hout]; rfl, hord, rfl, by simpa using hcov, rfl⟩

theorem pciUnion_cover (hI : I.WellFormed) (hJ : J.WellFormed) :
    ReturnsCover (I.pciUnion J) I.pcr (cover I.pdrgprng ∪ cover J.pdrgprng)
      (I.fIncludesNull || J.fIncludesNull) := by
  obtain ⟨out, hout, hord, hcov⟩ := unionLoop_spec _ _ [] hI hJ ordered_nil (by simp) (by simp)
  exact ⟨⟨I.pcr, out, _⟩, by rw [pciUnion, hout]; rfl, hord, rfl, by simpa using hcov, rfl⟩

theorem pciDifference_cover (hI : I.WellFormed) (hJ : J.WellFormed) :
    ReturnsCover (I.pciDifference J) I.pcr (cover I.pdrgprng \ cover J.pdrgprng)
      (I.fIncludesNull && !J.fIncludesNull) := by
  obtain ⟨out, hout, hord, hcov⟩ := differenceLoop_spec none _ _ [] (by simp) hI hJ ordered_nil
    (by simp) (by simp)
  exact ⟨⟨I.pcr, out, _⟩, by rw [pciDifference, hout]; rfl, hord, rfl,
    by simpa [pending] using hcov, rfl⟩

theorem pciUnbounded_wellFormed {colref : CColRef} {n : Bool} {U : CConstraintInterval α}
    (h : pciUnbounded colref n = some U) :
    U.WellFormed ∧ U.pcr = colref ∧ cover U.pdrgprng = Set.Iio ⊤ ∧ U.fIncludesNull = n := by
  unfold pciUnbounded at h
  split at h
  · cases h
    refine ⟨?_, rfl, ?_, rfl⟩
    · simp [WellFormed, ordered_cons, CRange.WellFormed, CRange.lo, CRange.hi]
    · ext c; simp [CRange.lo, CRange.hi]
  · cases h

/-- Every datum is a member of an unbounded interval. -/
theorem mem_pciUnbounded {colref : CColRef} {n : Bool} {U : CConstraintInterval α}
    (h : pciUnbounded colref n = some U) (a : α) : some a ∈ U.members := by
  rw [some_mem_members, (pciUnbounded_wellFormed h).2.2.1]
  exact Cut.side_lt_top a false

theorem pciComplement_cover {I : CConstraintInterval α} (hI : I.WellFormed)
    (hcol : I.pcr.fConstrainable = true) :
    ReturnsCover I.pciComplement I.pcr (Set.Iio ⊤ \ cover I.pdrgprng) (!I.fIncludesNull) := by
  have hU : pciUnbounded I.pcr true =
      some (⟨I.pcr, [⟨none, .excluded, none, .excluded⟩], true⟩ : CConstraintInterval α) := by
    rw [pciUnbounded, if_pos hcol]
  obtain ⟨hwf, -, hcov, -⟩ := pciUnbounded_wellFormed hU
  have h := pciDifference_cover hwf hI
  rw [hcov] at h
  rw [pciComplement, hU]
  exact h

theorem pciIntersect_returns (hI : I.WellFormed)
    (hJ : J.WellFormed) : Returns (I.pciIntersect J) I.pcr (I.members ∩ J.members) :=
  (pciIntersect_cover hI hJ).returns (by simp) (by simp [some_mem_members])

theorem pciUnion_returns (hI : I.WellFormed)
    (hJ : J.WellFormed) : Returns (I.pciUnion J) I.pcr (I.members ∪ J.members) :=
  (pciUnion_cover hI hJ).returns (by simp) (by simp [some_mem_members])

theorem pciDifference_returns (hI : I.WellFormed)
    (hJ : J.WellFormed) : Returns (I.pciDifference J) I.pcr (I.members \ J.members) :=
  (pciDifference_cover hI hJ).returns (by simp) (by simp [some_mem_members])

theorem pciComplement_returns {I : CConstraintInterval α} (hI : I.WellFormed)
    (hcol : I.pcr.fConstrainable = true) : Returns I.pciComplement I.pcr I.membersᶜ :=
  (pciComplement_cover hI hcol).returns (by simp) (by simp [some_mem_members])

/-- An interval that passes the test covers every cut below the top. -/
theorem cover_of_isConstraintUnbounded {I : CConstraintInterval α}
    (h : I.isConstraintUnbounded = true) :
    I.fIncludesNull = true ∧ cover I.pdrgprng = Set.Iio ⊤ := by
  obtain ⟨col, rs, n⟩ := I
  rcases rs with _ | ⟨⟨_ | a, eL, _ | b, eR⟩, _ | ⟨s, rs⟩⟩ <;>
    simp [isConstraintUnbounded] at h
  refine ⟨h, ?_⟩
  ext c; simp [CRange.lo, CRange.hi]

theorem cover_subset_Iio_top (rs : List (CRange α)) : cover rs ⊆ Set.Iio ⊤ := by
  rintro c ⟨r, -, -, hc⟩
  exact hc.trans_le le_top

/-- `FContainsInterval` decides containment of the cuts, except that an interval that is not
    unbounded as written is never said to contain one that is. -/
theorem fContainsInterval_iff_cover (hI : I.WellFormed)
    (hJ : J.WellFormed) : ∃ b, I.fContainsInterval J = .ok b ∧
      (b = true ↔ (J.fIncludesNull = true → I.fIncludesNull = true) ∧
        cover J.pdrgprng ⊆ cover I.pdrgprng ∧
        (J.isConstraintUnbounded = true → I.isConstraintUnbounded = true)) := by
  unfold fContainsInterval
  by_cases hu : I.isConstraintUnbounded = true
  · obtain ⟨hn, hcov⟩ := cover_of_isConstraintUnbounded hu
    exact ⟨true, if_pos hu, by simp [hu, hn, hcov, cover_subset_Iio_top]⟩
  rw [if_neg hu]
  by_cases hj : J.isConstraintUnbounded = true
  · exact ⟨false, by simp [hj], by simp [hu, hj]⟩
  by_cases hn : J.fIncludesNull = true → I.fIncludesNull = true
  · obtain ⟨K, hK, hwf, -, hcov, hnull⟩ := pciDifference_cover hJ hI
    refine ⟨K.fContradiction, ?_, ?_⟩
    · rw [if_neg (by simp [hj]; grind), hK]
      rfl
    · have hempty : K.pdrgprng = [] ↔ cover K.pdrgprng = ∅ := by
        refine ⟨fun h => by simp [h], fun h => ?_⟩
        refine List.eq_nil_iff_forall_not_mem.2 fun r hr => ?_
        have : r.lo ∈ cover K.pdrgprng := ⟨r, hr, le_rfl, hwf.1 r hr⟩
        simp [h] at this
      have hnullK : K.fIncludesNull = false := by rw [hnull]; grind
      simpa [fContradiction, hnullK, hempty, hcov, Set.sdiff_eq_empty, hj] using fun _ => hn
  · exact ⟨false, by simp at hn; simp [hj, hn], by simp [hn]⟩

/-- Between any two cuts of a dense order without ends lies a datum, so there the cuts of a
    well-formed interval are contained as soon as the datums are. -/
theorem cover_subset_of_members_subset [DenselyOrdered α] [NoMinOrder α] [NoMaxOrder α]
    [Nonempty α] (hI : I.WellFormed) (hJ : J.WellFormed)
    (h : J.members ⊆ I.members) : cover J.pdrgprng ⊆ cover I.pdrgprng := by
  obtain ⟨K, -, hwf, -, hcov, -⟩ := pciDifference_cover hJ hI
  by_contra hne
  obtain ⟨c, hcJ, hcI⟩ := Set.not_subset.1 hne
  have hc : c ∈ cover K.pdrgprng := hcov ▸ ⟨hcJ, hcI⟩
  -- the difference has a range, the range has a datum, and the datum refutes containment
  obtain ⟨r, hr, -⟩ := hc
  obtain ⟨a, ha⟩ := Cut.exists_before_mem_Ico (hwf.1 r hr)
  have haK : Cut.before a ∈ cover K.pdrgprng := ⟨r, hr, ha⟩
  rw [hcov] at haK
  exact haK.2 (h (show some a ∈ J.members from haK.1))

/-- **The interval operations are exact** over every linear order, and `FContainsInterval` is
    sound there; on a dense order without ends it is exact up to its early exit. -/
theorem interval_algebra {α : Type} [LinearOrder α] (I J : CConstraintInterval α)
    (hI : I.WellFormed) (hJ : J.WellFormed) :
    Returns (I.pciIntersect J) I.pcr (I.members ∩ J.members) ∧
    Returns (I.pciUnion J) I.pcr (I.members ∪ J.members) ∧
    Returns (I.pciDifference J) I.pcr (I.members \ J.members) ∧
    (I.pcr.fConstrainable = true → Returns I.pciComplement I.pcr I.membersᶜ) ∧
    ∃ b, I.fContainsInterval J = .ok b ∧ (b = true → J.members ⊆ I.members) ∧
      (DenselyOrdered α → NoMinOrder α → NoMaxOrder α → Nonempty α →
        (b = true ↔ J.members ⊆ I.members ∧
          (J.isConstraintUnbounded = true → I.isConstraintUnbounded = true))) := by
  obtain ⟨b, hb, hiff⟩ := fContainsInterval_iff_cover hI hJ
  have hsub : (J.fIncludesNull = true → I.fIncludesNull = true) ∧
      cover J.pdrgprng ⊆ cover I.pdrgprng → J.members ⊆ I.members := by
    rintro ⟨hn, hc⟩ v hv
    cases v with
    | none => exact hn hv
    | some a => exact hc hv
  refine ⟨pciIntersect_returns hI hJ, pciUnion_returns hI hJ, pciDifference_returns hI hJ,
    pciComplement_returns hI, b, hb, fun h => ?_, fun _ _ _ _ => ?_⟩
  · obtain ⟨hn, hc, -⟩ := hiff.1 h
    exact hsub ⟨hn, hc⟩
  · rw [hiff]
    refine ⟨fun ⟨hn, hc, hu⟩ => ⟨hsub ⟨hn, hc⟩, hu⟩, fun ⟨hm, hu⟩ => ⟨?_, ?_, hu⟩⟩
    · exact fun hn => hm (show none ∈ J.members from hn)
    · exact cover_subset_of_members_subset hI hJ hm

/-- The half-open range `[1, 3)` and the closed range `[2, 4]` with NULL, over the rationals. -/
theorem interval_algebra_rat :
    let col : CColRef := ⟨1, true, true, true⟩
    let I : CConstraintInterval ℚ := ⟨col, [⟨some 1, .included, some 3, .excluded⟩], false⟩
    let J : CConstraintInterval ℚ := ⟨col, [⟨some 2, .included, some 4, .included⟩], true⟩
    Returns (I.pciUnion J) col (I.members ∪ J.members) ∧
      Returns (I.pciDifference J) col (I.members \ J.members) ∧
      ∃ b, I.fContainsInterval J = .ok b ∧ (b = true ↔ J.members ⊆ I.members ∧
        (J.isConstraintUnbounded = true → I.isConstraintUnbounded = true)) := by
  intro col I J
  have hI : I.WellFormed := by
    norm_num [I, WellFormed, ordered_cons, CRange.wellFormed_iff]
  have hJ : J.WellFormed := by
    norm_num [J, WellFormed, ordered_cons, CRange.wellFormed_iff]
  obtain ⟨-, hunion, hdiff, -, b, hb, -, hiff⟩ := interval_algebra I J hI hJ
  exact ⟨hunion, hdiff, b, hb, hiff inferInstance inferInstance inferInstance inferInstance⟩

/-- Over the integers `[2, 2]` contains every member of `(1, 3)`, but the difference leaves the
    ranges `(1, 2)` and `(2, 3)`, so the answer is no. -/
theorem fContainsInterval_integer_gap :
    let col : CColRef := ⟨1, true, true, true⟩
    let I : CConstraintInterval ℤ := ⟨col, [⟨some 2, .included, some 2, .included⟩], false⟩
    let J : CConstraintInterval ℤ := ⟨col, [⟨some 1, .excluded, some 3, .excluded⟩], false⟩
    I.WellFormed ∧ J.WellFormed ∧ J.members ⊆ I.members ∧ I.fContainsInterval J = .ok false := by
  intro col I J
  refine ⟨?_, ?_, fun v hv => ?_, by decide +kernel⟩
  · simp [I, WellFormed, ordered_cons, CRange.wellFormed_iff]
  · simp [J, WellFormed, ordered_cons, CRange.wellFormed_iff]
  · cases v with
    | none => cases hv
    | some a =>
      obtain ⟨r, hr, ha⟩ := hv
      refine ⟨_, List.mem_singleton.2 rfl, (CRange.mem_members _ _).2 ?_⟩
      rw [List.mem_singleton.1 hr, CRange.mem_members] at ha
      simp at ha ⊢
      omega

end CConstraintInterval

end BossOptimizer

import BossOptimizer.Statistics.BucketValues
import Mathlib.Tactic.LinearCombination
import Mathlib.Tactic.Ring
import Mathlib.Algebra.Order.BigOperators.Group.List

/-!
# Complementary filters

A constant cuts at most one bucket of a histogram. Before it and after it, `<` and `>=` keep
different buckets, and together all of them. The bucket with the constant is cut evenly save at its
ends: `<` keeps the whole frequency up to a closed upper bound, which `>=` still counts as one of
the distinct values, and `>=` cuts down even a single point. How much of a bucket is covered is not
monotone either, since a closed lower bound counts as one wide.
-/

namespace BossOptimizer.CBucket

variable {P : Type} [StatsMappable P] {bucket : CBucket P} {point point' : P}

/-! ## The bucket with the constant -/

/-- The frequency below a point of the bucket. -/
def lowerFrequency (bucket : CBucket P) (point : P) : ℚ :=
  ((bucket.MakeBucketScaleUpper point false).toList.map m_frequency).sum

theorem lowerFrequency_eq (bucket : CBucket P) (point : P) : bucket.lowerFrequency point =
    if bucket.m_bucket_lower_bound = point then 0
    else bucket.m_frequency * if bucket.m_bucket_upper_bound = point then 1
      else bucket.GetOverlapPercentage point := by
  rw [lowerFrequency, MakeBucketScaleUpper, if_neg Bool.false_ne_true]
  split_ifs <;> simp

theorem frequency_makeBucketScaleLower (bucket : CBucket P) (point : P) :
    (bucket.MakeBucketScaleLower point true).m_frequency =
      if bucket.m_bucket_upper_bound = point then min 1 (bucket.m_frequency * (1 / bucket.m_distinct))
      else bucket.m_frequency * if bucket.m_bucket_lower_bound = point then 1
        else 1 - bucket.GetOverlapPercentage point := by
  rw [MakeBucketScaleLower]
  split_ifs <;> rfl

/-- **Both parts have the frequency of the bucket, except at its upper bound**, where the upper part
is one distinct value: it must have the whole frequency of a single point, and none otherwise. -/
theorem cut_eq_iff (bucket : CBucket P) (point : P) :
    bucket.lowerFrequency point + (bucket.MakeBucketScaleLower point true).m_frequency =
        bucket.m_frequency ↔
      (point = bucket.m_bucket_upper_bound →
        min 1 (bucket.m_frequency * (1 / bucket.m_distinct)) =
          if bucket.IsSingleton then bucket.m_frequency else 0) := by
  rw [lowerFrequency_eq, frequency_makeBucketScaleLower]
  by_cases hupper : point = bucket.m_bucket_upper_bound
  · subst hupper
    rw [if_pos rfl, if_pos rfl, forall_prop_of_true rfl, IsSingleton]
    simp only [decide_eq_true_iff]
    split_ifs
    · rw [zero_add]
    · rw [mul_one, add_eq_left]
  · rw [if_neg (Ne.symm hupper), if_neg (Ne.symm hupper), iff_true_right fun h => absurd h hupper]
    split_ifs
    · rw [zero_add, mul_one]
    · rw [← mul_add, add_sub_cancel, mul_one]

theorem lowerFrequency_nonneg (h : bucket.WellFormed) (point : P) :
    0 ≤ bucket.lowerFrequency point := by
  rw [lowerFrequency_eq]
  split_ifs
  · exact le_rfl
  · exact mul_nonneg h.frequency_nonneg zero_le_one
  · exact mul_nonneg h.frequency_nonneg (overlap_nonneg h.le point)

theorem lowerFrequency_le (h : bucket.WellFormed) (point : P) :
    bucket.lowerFrequency point ≤ bucket.m_frequency := by
  rw [lowerFrequency_eq]
  split_ifs
  · exact h.frequency_nonneg
  · rw [mul_one]
  · exact mul_le_of_le_one_right h.frequency_nonneg (overlap_le_one point)

/-- **The frequency below a point grows with the point.** -/
theorem lowerFrequency_mono (h : bucket.WellFormed) (hpoint : bucket.Contains point = true)
    (hpoint' : bucket.Contains point' = true) (hle : point ≤ point') :
    bucket.lowerFrequency point ≤ bucket.lowerFrequency point' := by
  have hlower : bucket.m_bucket_lower_bound ≤ point :=
    (h.contains_iff.1 hpoint).1.elim le_of_lt fun h => h.1.le
  have hupper' : point' ≤ bucket.m_bucket_upper_bound :=
    (h.contains_iff.1 hpoint').2.elim le_of_lt fun h => h.1.le
  have hnonneg := lowerFrequency_nonneg h point'
  rcases hlower.eq_or_lt with heq | hlt
  · rwa [lowerFrequency_eq bucket point, if_pos heq]
  rw [lowerFrequency_eq, lowerFrequency_eq, if_neg hlt.ne, if_neg (hlt.trans_le hle).ne]
  refine mul_le_mul_of_nonneg_left ?_ h.frequency_nonneg
  split_ifs with hupper hupper'' hupper''
  · exact le_rfl
  · exact absurd (hupper'.antisymm (hupper ▸ hle)).symm hupper''
  · exact overlap_le_one point
  · exact overlap_mono hlt hle

/-! ## How much is covered -/

/-- A closed lower bound does not count for more than the points after it. -/
def LowerBoundFits (bucket : CBucket P) : Prop :=
  bucket.IsSingleton = false → bucket.m_is_lower_closed = true →
    ∀ point, bucket.m_bucket_lower_bound < point → point < bucket.m_bucket_upper_bound →
      1 ≤ CPoint.Distance point bucket.m_bucket_lower_bound

/-- At the lower bound, a bucket is covered as one wide. -/
theorem overlap_lower (h : bucket.WellFormed) (hsingleton : bucket.IsSingleton = false) :
    bucket.GetOverlapPercentage bucket.m_bucket_lower_bound =
      if bucket.m_is_lower_closed then
        min (1 / CPoint.Distance bucket.m_bucket_upper_bound bucket.m_bucket_lower_bound) 1
      else 0 := by
  have hne : ¬bucket.m_bucket_lower_bound = bucket.m_bucket_upper_bound := fun heq =>
    Bool.eq_false_iff.1 hsingleton (isSingleton_iff.2 heq)
  have hlt := h.le.lt_of_ne hne
  have hcontains : bucket.Contains bucket.m_bucket_lower_bound = bucket.m_is_lower_closed := by
    rw [Bool.eq_iff_iff, h.contains_iff, AboveLower, BelowUpper]
    grind
  have hzero : ¬0 < CPoint.Distance bucket.m_bucket_lower_bound bucket.m_bucket_lower_bound := by
    rw [CPoint.Distance, sub_self]
    exact lt_irrefl 0
  rw [GetOverlapPercentage, if_neg (not_le.2 hlt), hcontains, hsingleton,
    if_neg Bool.false_ne_true]
  dsimp only
  rw [if_neg hzero]
  cases bucket.m_is_lower_closed <;> rfl

/-- Outside of a bucket, nothing or everything of it is covered. -/
theorem overlap_eq_zero (h : bucket.WellFormed) (hbefore : ¬bucket.AboveLower point)
    (hupper : point < bucket.m_bucket_upper_bound) : bucket.GetOverlapPercentage point = 0 := by
  have hcontains : ¬bucket.Contains point = true := fun hcontains =>
    hbefore (h.contains_iff.1 hcontains).1
  rw [GetOverlapPercentage, if_neg (not_le.2 hupper), if_pos hcontains]

/-- **What is covered of a bucket is monotone exactly if its lower bound does not count for too
much.** -/
theorem monotone_overlap_iff (h : bucket.WellFormed) :
    Monotone bucket.GetOverlapPercentage ↔ bucket.LowerBoundFits := by
  constructor
  · intro hmono hsingleton hclosed point hlower hupper
    have hle := hmono hlower.le
    have hwidth := distance_pos (hlower.trans hupper)
    have hpoint := distance_pos hlower
    rw [overlap_lower h hsingleton, if_pos hclosed, overlap_eq hlower hupper] at hle
    -- The point is not as far from the upper bound, so that the minimum is the share of width one.
    rcases min_le_iff.1 hle with hle | hle
    · exact (div_le_div_iff_of_pos_right hwidth).1 hle
    · have hlt : CPoint.Distance point bucket.m_bucket_lower_bound <
          CPoint.Distance bucket.m_bucket_upper_bound bucket.m_bucket_lower_bound :=
        sub_lt_sub_right (StatsMappable.mapping_strictMono hupper) _
      exact absurd ((one_le_div hwidth).1 hle) (not_le.2 hlt)
  · intro hfits point point' hle
    have hnonneg := overlap_nonneg h.le point'
    rcases le_or_gt bucket.m_bucket_upper_bound point' with hupper | hupper
    · refine (overlap_le_one point).trans_eq ?_
      rw [GetOverlapPercentage, if_pos hupper]
    by_cases habove : bucket.AboveLower point
    · rcases habove with hlower | ⟨rfl, hclosed⟩
      · exact overlap_mono hlower hle
      · rcases hle.eq_or_lt with rfl | hlower
        · exact le_rfl
        -- The lower bound counts as one wide, and the point is that far from it.
        have hwidth := distance_pos (hlower.trans hupper)
        have hsingleton : bucket.IsSingleton = false := decide_eq_false (hlower.trans hupper).ne
        rw [overlap_lower h hsingleton, if_pos hclosed, overlap_eq hlower hupper]
        exact (min_le_left _ _).trans
          (div_le_div_of_nonneg_right (hfits hsingleton hclosed point' hlower hupper) hwidth.le)
    · rwa [overlap_eq_zero h habove (hle.trans_lt hupper)]

end BossOptimizer.CBucket

namespace BossOptimizer.CHistogram

open CBucket

variable {P : Type} [StatsMappable P] {point : P}

/-! ## The histogram -/

theorem bucketsFrequency_cons (bucket : CBucket P) (buckets : List (CBucket P)) :
    bucketsFrequency (bucket :: buckets) = bucket.m_frequency + bucketsFrequency buckets := by
  rw [bucketsFrequency, List.map_cons, List.sum_cons]
  rfl

/-- The upper part of the bucket with the point. -/
def cutGreater (point : P) (bucket : CBucket P) : Option (CBucket P) :=
  some (bucket.MakeBucketScaleLower point true)

variable {bucket : CBucket P} {buckets : List (CBucket P)}

/-- The constant is before the first bucket. -/
theorem filters_before (habove : ¬bucket.AboveLower point) :
    lessThanBuckets point false (bucket :: buckets) = [] ∧
      greaterThanBuckets point (cutGreater point) (bucket :: buckets) = bucket :: buckets := by
  have hbefore := isBeforePoint_iff.2 habove
  exact ⟨if_pos hbefore, if_pos hbefore⟩

/-- The constant is after the first bucket. -/
theorem filters_after (h : bucket.WellFormed) (hbelow : ¬bucket.BelowUpper point) :
    lessThanBuckets point false (bucket :: buckets) =
        bucket :: lessThanBuckets point false buckets ∧
      greaterThanBuckets point (cutGreater point) (bucket :: buckets) =
        greaterThanBuckets point (cutGreater point) buckets := by
  have hbefore : ¬bucket.IsBeforePoint point = true := fun hbefore =>
    (h.aboveLower_or_belowUpper point).elim (isBeforePoint_iff.1 hbefore) hbelow
  have hcontains : ¬bucket.Contains point = true := fun hcontains =>
    hbelow (h.contains_iff.1 hcontains).2
  rw [lessThanBuckets, greaterThanBuckets, if_neg hbefore, if_neg hbefore, if_neg hcontains,
    if_pos (isAfterPoint_iff.2 hbelow)]
  exact ⟨rfl, rfl⟩

/-- The constant is in the first bucket. -/
theorem filters_contains (h : bucket.WellFormed) (hpoint : bucket.Contains point = true) :
    lessThanBuckets point false (bucket :: buckets) =
        (bucket.MakeBucketScaleUpper point false).toList ∧
      greaterThanBuckets point (cutGreater point) (bucket :: buckets) =
        bucket.MakeBucketScaleLower point true :: buckets := by
  obtain ⟨habove, hbelow⟩ := h.contains_iff.1 hpoint
  have hbefore : ¬bucket.IsBeforePoint point = true := fun hbefore =>
    isBeforePoint_iff.1 hbefore habove
  have hafter : ¬bucket.IsAfterPoint point = true := fun hafter => isAfterPoint_iff.1 hafter hbelow
  rw [lessThanBuckets, greaterThanBuckets, if_neg hbefore, if_neg hbefore, if_neg hafter,
    if_pos hpoint]
  exact ⟨rfl, rfl⟩

/-- A constant that is in no bucket. -/
theorem frequency_not_contained (h : WellFormed buckets)
    (hpoint : ∀ bucket ∈ buckets, ¬bucket.Contains point = true) :
    bucketsFrequency (lessThanBuckets point false buckets) +
      bucketsFrequency (greaterThanBuckets point (cutGreater point) buckets) =
        bucketsFrequency buckets := by
  induction buckets with
  | nil => exact add_zero _
  | cons bucket buckets ih =>
    have hcontains := hpoint bucket List.mem_cons_self
    by_cases habove : bucket.AboveLower point
    · obtain ⟨hless, hgreater⟩ := @filters_after _ _ _ _ buckets h.head fun hbelow =>
        hcontains (h.head.contains_iff.2 ⟨habove, hbelow⟩)
      rw [hless, hgreater, bucketsFrequency_cons, bucketsFrequency_cons, add_assoc,
        ih h.tail fun b hb => hpoint b (List.mem_cons_of_mem _ hb)]
    · obtain ⟨hless, hgreater⟩ := @filters_before _ _ _ _ buckets habove
      rw [hless, hgreater]
      exact zero_add _

/-- A constant in a bucket: what is kept of the bucket and of the others. -/
theorem frequency_contained (h : WellFormed buckets) (hmem : bucket ∈ buckets)
    (hpoint : bucket.Contains point = true) :
    bucketsFrequency (lessThanBuckets point false buckets) +
        bucketsFrequency (greaterThanBuckets point (cutGreater point) buckets) +
        bucket.m_frequency =
      bucketsFrequency buckets + (bucket.lowerFrequency point +
        (bucket.MakeBucketScaleLower point true).m_frequency) := by
  induction buckets with
  | nil => cases hmem
  | cons head buckets ih =>
    rcases List.mem_cons.1 hmem with rfl | hmem
    · obtain ⟨hless, hgreater⟩ := @filters_contains _ _ _ _ buckets h.head hpoint
      have hlower : bucketsFrequency (bucket.MakeBucketScaleUpper point false).toList =
          bucket.lowerFrequency point := rfl
      rw [hless, hgreater, hlower, bucketsFrequency_cons, bucketsFrequency_cons]
      ring
    · -- The buckets before the one with the constant end before it.
      have hnot : ¬head.BelowUpper point := fun hbelow => h.not_covered hbelow ⟨bucket, hmem, hpoint⟩
      obtain ⟨hless, hgreater⟩ := @filters_after _ _ _ _ buckets h.head hnot
      rw [hless, hgreater, bucketsFrequency_cons, bucketsFrequency_cons]
      linear_combination ih h.tail hmem

theorem frequency_lessThanBuckets_nonneg (h : WellFormed buckets) (point : P) :
    0 ≤ bucketsFrequency (lessThanBuckets point false buckets) := by
  induction buckets with
  | nil => exact le_rfl
  | cons bucket buckets ih =>
    by_cases habove : bucket.AboveLower point
    · by_cases hbelow : bucket.BelowUpper point
      · rw [(filters_contains h.head (h.head.contains_iff.2 ⟨habove, hbelow⟩)).1]
        exact lowerFrequency_nonneg h.head point
      · rw [(filters_after h.head hbelow).1, bucketsFrequency_cons]
        exact add_nonneg h.head.frequency_nonneg (ih h.tail)
    · rw [(filters_before habove).1]
      exact le_rfl

/-- **The frequency below a constant grows with the constant.** -/
theorem monotone_frequency_lessThanBuckets (h : WellFormed buckets) :
    Monotone fun point => bucketsFrequency (lessThanBuckets point false buckets) := by
  intro point point' hle
  dsimp only
  induction buckets with
  | nil => exact le_rfl
  | cons bucket buckets ih =>
    have hnonneg := frequency_lessThanBuckets_nonneg h.tail point'
    have hnonneg' := frequency_lessThanBuckets_nonneg h point'
    by_cases habove : bucket.AboveLower point
    · have habove' : bucket.AboveLower point' := by
        rw [AboveLower] at habove ⊢
        grind
      by_cases hbelow' : bucket.BelowUpper point'
      · have hbelow : bucket.BelowUpper point := by
          rw [BelowUpper] at hbelow' ⊢
          grind
        have hcontains := h.head.contains_iff.2 ⟨habove, hbelow⟩
        have hcontains' := h.head.contains_iff.2 ⟨habove', hbelow'⟩
        rw [(filters_contains h.head hcontains).1, (filters_contains h.head hcontains').1]
        exact lowerFrequency_mono h.head hcontains hcontains' hle
      · rw [(filters_after h.head hbelow').1, bucketsFrequency_cons]
        by_cases hbelow : bucket.BelowUpper point
        · rw [(filters_contains h.head (h.head.contains_iff.2 ⟨habove, hbelow⟩)).1]
          exact (lowerFrequency_le h.head point).trans (le_add_of_nonneg_right hnonneg)
        · rw [(filters_after h.head hbelow).1, bucketsFrequency_cons]
          exact add_le_add_right (ih h.tail) _
    · rw [(filters_before habove).1]
      exact hnonneg'

/-- The bucket is cut evenly wherever the constant is, and its lower bound does not count for too
    much. -/
def CutsEvenly (bucket : CBucket P) : Prop :=
  if bucket.IsSingleton then
    bucket.m_frequency = 0 ∨ bucket.m_distinct = 1 ∨
      bucket.m_frequency = 1 ∧ bucket.m_distinct ≤ 1
  else (bucket.m_is_upper_closed = true → bucket.m_frequency = 0) ∧ bucket.LowerBoundFits

/-- The frequency of a distinct value is that of the bucket. -/
theorem min_one_frequency_eq_iff {frequency distinct : ℚ} (hfrequency : 0 ≤ frequency)
    (hone : frequency ≤ 1) (hdistinct : 0 < distinct) :
    min 1 (frequency * (1 / distinct)) = frequency ↔
      frequency = 0 ∨ distinct = 1 ∨ frequency = 1 ∧ distinct ≤ 1 := by
  rw [mul_one_div]
  constructor
  · intro heq
    rcases min_choice 1 (frequency / distinct) with hmin | hmin
    · -- All rows of the bucket, and at most one value.
      have hall : frequency = 1 := heq.symm.trans hmin
      have hle := min_eq_left_iff.1 hmin
      rw [hall, one_le_div hdistinct] at hle
      exact .inr (.inr ⟨hall, hle⟩)
    · rw [hmin, div_eq_iff hdistinct.ne'] at heq
      rcases hfrequency.eq_or_lt with hzero | hpos
      · exact .inl hzero.symm
      · exact .inr (.inl ((left_eq_mul₀ hpos.ne').1 heq))
  · rintro (rfl | rfl | ⟨rfl, hle⟩)
    · rw [zero_div]
      exact min_eq_right zero_le_one
    · rw [div_one]
      exact min_eq_right hone
    · exact min_eq_left ((one_le_div hdistinct).2 hle)

theorem min_one_frequency_eq_zero_iff {frequency distinct : ℚ} (hdistinct : 0 < distinct) :
    min 1 (frequency * (1 / distinct)) = 0 ↔ frequency = 0 := by
  rw [mul_one_div]
  constructor
  · intro heq
    rcases min_choice 1 (frequency / distinct) with hmin | hmin
    · exact absurd (hmin.symm.trans heq) one_ne_zero
    · exact (div_eq_zero_iff.1 (hmin.symm.trans heq)).resolve_right hdistinct.ne'
  · rintro rfl
    rw [zero_div]
    exact min_eq_right zero_le_one

/-- Where the bucket is cut evenly, by its end points. -/
theorem cutsEvenly_iff {bucket : CBucket P} (h : bucket.WellFormed) (hone : bucket.m_frequency ≤ 1)
    (hdistinct : 0 < bucket.m_distinct) :
    CutsEvenly bucket ↔ (∀ point, bucket.Contains point = true →
      bucket.lowerFrequency point + (bucket.MakeBucketScaleLower point true).m_frequency =
        bucket.m_frequency) ∧ Monotone bucket.GetOverlapPercentage := by
  have hupper : bucket.Contains bucket.m_bucket_upper_bound = true ↔
      bucket.m_is_upper_closed = true := by
    rw [h.contains_iff, AboveLower, BelowUpper]
    have := h.le
    have := h.closed
    grind
  have hcuts : (∀ point, bucket.Contains point = true →
      bucket.lowerFrequency point + (bucket.MakeBucketScaleLower point true).m_frequency =
        bucket.m_frequency) ↔ (bucket.m_is_upper_closed = true →
      min 1 (bucket.m_frequency * (1 / bucket.m_distinct)) =
        if bucket.IsSingleton then bucket.m_frequency else 0) := by
    simp only [cut_eq_iff]
    constructor
    · exact fun hall hclosed => hall _ (hupper.2 hclosed) rfl
    · rintro hclosed point hpoint rfl
      exact hclosed (hupper.1 hpoint)
  rw [hcuts, monotone_overlap_iff h, CutsEvenly]
  by_cases hsingleton : bucket.IsSingleton = true
  · have hclosed := (h.closed (isSingleton_iff.1 hsingleton)).2
    have hfits : bucket.LowerBoundFits := fun hfalse =>
      absurd hsingleton (Bool.eq_false_iff.1 hfalse)
    rw [if_pos hsingleton, if_pos hsingleton, and_iff_left hfits, forall_prop_of_true hclosed,
      min_one_frequency_eq_iff h.frequency_nonneg hone hdistinct]
  · rw [if_neg hsingleton, if_neg hsingleton, min_one_frequency_eq_zero_iff hdistinct]

/-- The frequency of the buckets of a filter. -/
def filterFrequency (NextPoint : P → Option P) (histogram : CHistogram P)
    (stats_cmp_type : EStatsCmpType) (point : P) : ℚ :=
  match histogram.MakeHistogramFilter NextPoint stats_cmp_type point with
  | some result_histogram => bucketsFrequency result_histogram.m_histogram_buckets
  | none => 0

/-- The filters `<` and `>=` partition the frequency of the buckets, `<` is monotone, and so is what
    is covered of a bucket. -/
structure IsComplementary (NextPoint : P → Option P) (histogram : CHistogram P) : Prop where
  adds : ∀ point, histogram.filterFrequency NextPoint .EstatscmptL point +
    histogram.filterFrequency NextPoint .EstatscmptGEq point =
      bucketsFrequency histogram.m_histogram_buckets
  monotone : Monotone (histogram.filterFrequency NextPoint .EstatscmptL)
  monotone_overlap : ∀ bucket ∈ histogram.m_histogram_buckets, Monotone bucket.GetOverlapPercentage

/-- **Complementary filters partition a histogram exactly if its buckets are cut evenly.** -/
theorem isComplementary_iff (NextPoint : P → Option P) (histogram : CHistogram P)
    (h : WellFormed histogram.m_histogram_buckets)
    (hbuckets : ∀ bucket ∈ histogram.m_histogram_buckets,
      bucket.m_frequency ≤ 1 ∧ 0 < bucket.m_distinct) :
    IsComplementary NextPoint histogram ↔
      ∀ bucket ∈ histogram.m_histogram_buckets, CutsEvenly bucket := by
  have hless : histogram.filterFrequency NextPoint .EstatscmptL = fun point =>
    bucketsFrequency (lessThanBuckets point false histogram.m_histogram_buckets) := rfl
  have hgreater : histogram.filterFrequency NextPoint .EstatscmptGEq = fun point =>
    bucketsFrequency (greaterThanBuckets point (cutGreater point) histogram.m_histogram_buckets) :=
    rfl
  constructor
  · rintro ⟨hadds, -, hmono⟩ bucket hmem
    refine (cutsEvenly_iff (h.bucket bucket hmem) (hbuckets bucket hmem).1 (hbuckets bucket hmem).2).2
      ⟨fun point hpoint => ?_, hmono bucket hmem⟩
    have hall := hadds point
    rw [hless, hgreater] at hall
    have hcut := frequency_contained h hmem hpoint
    rw [hall] at hcut
    exact (add_left_cancel hcut).symm
  · intro hevenly
    have hcuts := fun bucket hmem => (cutsEvenly_iff (h.bucket bucket hmem) (hbuckets bucket hmem).1
      (hbuckets bucket hmem).2).1 (hevenly bucket hmem)
    refine ⟨fun point => ?_, hless ▸ monotone_frequency_lessThanBuckets h,
      fun bucket hmem => (hcuts bucket hmem).2⟩
    rw [hless, hgreater]
    by_cases hpoint : ∃ bucket ∈ histogram.m_histogram_buckets, bucket.Contains point = true
    · obtain ⟨bucket, hmem, hpoint⟩ := hpoint
      have hcut := frequency_contained h hmem hpoint
      rw [(hcuts bucket hmem).1 point hpoint] at hcut
      exact add_right_cancel hcut
    · exact frequency_not_contained h fun bucket hmem hcontains =>
        hpoint ⟨bucket, hmem, hcontains⟩

/-- A bucket of integers without its upper bound. -/
theorem isComplementary_halfOpen :
    IsComplementary (fun point : ℤ => some (point + 1)) ⟨[⟨1, 10, true, false, 1 / 10, 5⟩], 0, 0, 0⟩ := by
  have hwf : WellFormed [(⟨1, 10, true, false, 1 / 10, 5⟩ : CBucket ℤ)] :=
    ⟨List.forall_mem_singleton.2 ⟨by decide, by decide, by decide +kernel, by decide +kernel⟩,
      List.pairwise_singleton _ _⟩
  refine (isComplementary_iff _ _ hwf (List.forall_mem_singleton.2
    ⟨by decide +kernel, by decide +kernel⟩)).2 (List.forall_mem_singleton.2 ?_)
  refine ⟨nofun, fun _ _ point hlower _ => ?_⟩
  have hle : (1 : ℤ) ≤ point - 1 := Int.le_sub_right_of_add_le hlower
  have hcast : ((1 : ℤ) : ℚ) ≤ ((point - 1 : ℤ) : ℚ) := Int.cast_le.2 hle
  rwa [Int.cast_one, Int.cast_sub] at hcast

/-- At its closed upper bound, the bucket counts twice. -/
theorem makeHistogramFilter_counts_twice :
    WellFormed (closedHistogram [(1, 10)]).m_histogram_buckets ∧
      (∀ bucket ∈ (closedHistogram [(1, 10)]).m_histogram_buckets,
        bucket.m_frequency ≤ 1 ∧ 0 < bucket.m_distinct) ∧
      ¬IsComplementary (fun point => some (point + 1)) (closedHistogram [(1, 10)]) := by
  refine ⟨wellFormed_closedBucket (by decide), List.forall_mem_singleton.2 ⟨?_, ?_⟩, fun h => ?_⟩
  · decide +kernel
  · decide +kernel
  · exact absurd (h.adds 10) (by decide +kernel)

end BossOptimizer.CHistogram

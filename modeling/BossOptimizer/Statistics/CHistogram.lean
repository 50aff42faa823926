import BossOptimizer.Statistics.CBucket

/-!
# Histograms

The operations on histograms sweep over their buckets from left to right. A position in the array
of buckets is the list of buckets that are left.
-/

namespace BossOptimizer

/-- `EStatsCmpType` (CStatsPred.h:45). -/
inductive EStatsCmpType where
  | EstatscmptEq
  | EstatscmptNEq
  | EstatscmptL
  | EstatscmptLEq
  | EstatscmptG
  | EstatscmptGEq
  | EstatscmptIDF
  | EstatscmptINDF
  | EstatscmptLike
  | EstatscmptNotLike
  | EstatscmptEqNDV
  | EstatscmptOther
deriving DecidableEq

/-- `CHistogram`. -/
structure CHistogram (P : Type) where
  m_histogram_buckets : List (CBucket P)
  m_null_freq : ℚ
  m_distinct_remaining : ℚ
  m_freq_remaining : ℚ

namespace CHistogram

variable {P : Type} [StatsMappable P]

/-- `CStatistics::Epsilon`. -/
def Epsilon : ℚ := 1 / 100000

/-- `DefaultSelectivity`. -/
def DefaultSelectivity : ℚ := 2 / 5

/-! ## Filters -/

/-- The buckets of `MakeHistogramLessThanOrLessThanEqualFilter`. -/
def lessThanBuckets (point : P) (include_upper : Bool) : List (CBucket P) → List (CBucket P)
  | [] => []
  | bucket :: buckets =>
    if bucket.IsBeforePoint point then []
    else if bucket.IsAfterPoint point then bucket :: lessThanBuckets point include_upper buckets
    else (bucket.MakeBucketScaleUpper point include_upper).toList

/-- The buckets of `MakeHistogramGreaterThanOrGreaterThanEqualFilter`, which cuts the bucket with
    the point. -/
def greaterThanBuckets (point : P) (cut : CBucket P → Option (CBucket P)) :
    List (CBucket P) → List (CBucket P)
  | [] => []
  | bucket :: buckets =>
    if bucket.IsBeforePoint point then bucket :: buckets
    else if bucket.Contains point then (cut bucket).toList ++ buckets
    else greaterThanBuckets point cut buckets

/-- The histogram of an order comparison, which keeps a part of the values without buckets. -/
def orderFilter (histogram : CHistogram P) (new_buckets : List (CBucket P)) : CHistogram P :=
  let remain := Epsilon < histogram.m_distinct_remaining * DefaultSelectivity
  { m_histogram_buckets := new_buckets
    m_null_freq := 0
    m_distinct_remaining :=
      if remain then histogram.m_distinct_remaining * DefaultSelectivity else 0
    m_freq_remaining := if remain then histogram.m_freq_remaining * DefaultSelectivity else 0 }

/-- `MakeHistogramLessThanOrLessThanEqualFilter` (CHistogram.cpp:176). -/
def MakeHistogramLessThanOrLessThanEqualFilter (histogram : CHistogram P)
    (stats_cmp_type : EStatsCmpType) (point : P) : CHistogram P :=
  histogram.orderFilter
    (lessThanBuckets point (stats_cmp_type = .EstatscmptLEq) histogram.m_histogram_buckets)

/-- `MakeHistogramGreaterThanOrGreaterThanEqualFilter` (CHistogram.cpp:401). -/
def MakeHistogramGreaterThanOrGreaterThanEqualFilter (NextPoint : P → Option P)
    (histogram : CHistogram P) (stats_cmp_type : EStatsCmpType) (point : P) : CHistogram P :=
  let cut (bucket : CBucket P) : Option (CBucket P) :=
    if stats_cmp_type = .EstatscmptGEq then some (bucket.MakeBucketScaleLower point true)
    else bucket.MakeBucketGreaterThan NextPoint point
  histogram.orderFilter (greaterThanBuckets point cut histogram.m_histogram_buckets)

/-- `MakeBucketsWithInequalityFilter` (CHistogram.cpp:226), of a point that is not NULL. -/
def MakeBucketsWithInequalityFilter (NextPoint : P → Option P) (histogram : CHistogram P)
    (point : P) : List (CBucket P) :=
  histogram.m_histogram_buckets.flatMap fun bucket =>
    if bucket.Contains point then
      (bucket.MakeBucketScaleUpper point false).toList ++
        (bucket.MakeBucketGreaterThan NextPoint point).toList
    else [bucket]

/-- `MakeBucketsWithEqualityFilter` (CHistogram.cpp:294), of a point that is not NULL. -/
def MakeBucketsWithEqualityFilter (histogram : CHistogram P) (point : P) : List (CBucket P) :=
  ((histogram.m_histogram_buckets.find? fun bucket => bucket.Contains point).map fun bucket =>
    if bucket.IsSingleton then bucket else bucket.MakeBucketSingleton point).toList

/-- `MakeHistogramEqualFilter` (CHistogram.cpp:334) and `MakeHistogramINDFFilter`
    (CHistogram.cpp:365), which are the same of a point that is not NULL. -/
def MakeHistogramEqualFilter (histogram : CHistogram P) (point : P) : CHistogram P :=
  let histogram_buckets := histogram.MakeBucketsWithEqualityFilter point
  if Epsilon < histogram.m_distinct_remaining ∧ histogram_buckets = [] then
    ⟨[], 0, 1, min 1 (histogram.m_freq_remaining / histogram.m_distinct_remaining)⟩
  else ⟨histogram_buckets, 0, 0, 0⟩

/-- `MakeHistogramFilter` (CHistogram.cpp:795), of a point that is not NULL; no other comparison is
    supported. -/
def MakeHistogramFilter (NextPoint : P → Option P) (histogram : CHistogram P)
    (stats_cmp_type : EStatsCmpType) (point : P) : Option (CHistogram P) :=
  match stats_cmp_type with
  | .EstatscmptEq | .EstatscmptINDF => some (histogram.MakeHistogramEqualFilter point)
  | .EstatscmptL | .EstatscmptLEq =>
    some (histogram.MakeHistogramLessThanOrLessThanEqualFilter stats_cmp_type point)
  | .EstatscmptG | .EstatscmptGEq =>
    some (histogram.MakeHistogramGreaterThanOrGreaterThanEqualFilter NextPoint stats_cmp_type point)
  | .EstatscmptNEq =>
    -- `MakeHistogramInequalityFilter`
    some { histogram with
      m_histogram_buckets := histogram.MakeBucketsWithInequalityFilter NextPoint point
      m_null_freq := 0 }
  | .EstatscmptIDF =>
    -- `MakeHistogramIDFFilter`, for which a NULL passes
    some { histogram with
      m_histogram_buckets := histogram.MakeBucketsWithInequalityFilter NextPoint point }
  | _ => none

/-! ## Anti-semi joins -/

/-- The sweep of `MakeLASJHistogram`, from an upper split: every round takes the next bucket of the
    other histogram. -/
def lasjBuckets (upper_split_bucket : Option (CBucket P)) :
    List (CBucket P) → List (CBucket P) → List (CBucket P)
  | buckets1, [] => upper_split_bucket.toList ++ buckets1
  | [], _ :: _ => []
  | bucket1 :: buckets1, bucket2 :: buckets2 =>
    match upper_split_bucket with
    | some candidate_bucket =>
      (candidate_bucket.Difference bucket2).1.toList ++
        lasjBuckets (candidate_bucket.Difference bucket2).2 (bucket1 :: buckets1) buckets2
    | none =>
      (bucket1.Difference bucket2).1.toList ++
        lasjBuckets (bucket1.Difference bucket2).2 buckets1 buckets2

/-- `NullFreqLASJ` (CLeftAntiSemiJoinStatsProcessor.cpp:99). -/
def NullFreqLASJ (stats_cmp_type : EStatsCmpType) (outer_histogram inner_histogram : CHistogram P) :
    ℚ :=
  if stats_cmp_type ≠ .EstatscmptINDF then outer_histogram.m_null_freq
  else if Epsilon < inner_histogram.m_null_freq then 0
  else outer_histogram.m_null_freq

/-- `MakeLASJHistogram` (CHistogram.cpp:869). -/
def MakeLASJHistogram (stats_cmp_type : EStatsCmpType) (histogram other : CHistogram P) :
    CHistogram P :=
  if stats_cmp_type ≠ .EstatscmptEq ∧ stats_cmp_type ≠ .EstatscmptINDF then histogram
  else
    { m_histogram_buckets :=
        lasjBuckets none histogram.m_histogram_buckets other.m_histogram_buckets
      m_null_freq := NullFreqLASJ stats_cmp_type histogram other
      m_distinct_remaining := histogram.m_distinct_remaining
      m_freq_remaining := histogram.m_freq_remaining }

/-! ## Equality joins -/

/-- `GetFrequency` (CStatisticsUtils.cpp:1741) of buckets. -/
def bucketsFrequency (histogram_buckets : List (CBucket P)) : ℚ :=
  (histogram_buckets.map CBucket.m_frequency).sum

/-- `GetNumDistinct` (CStatisticsUtils.cpp:1716) of buckets. -/
def bucketsNumDistinct (histogram_buckets : List (CBucket P)) : ℚ :=
  (histogram_buckets.map CBucket.m_distinct).sum

/-- `GetFrequency` (CHistogram.cpp:464). -/
def GetFrequency (histogram : CHistogram P) : ℚ :=
  bucketsFrequency histogram.m_histogram_buckets +
    (if Epsilon < histogram.m_null_freq then histogram.m_null_freq else 0) +
    histogram.m_freq_remaining

/-- `GetNumDistinct` (CHistogram.cpp:484). -/
def GetNumDistinct (histogram : CHistogram P) : ℚ :=
  bucketsNumDistinct histogram.m_histogram_buckets +
    (if Epsilon < histogram.m_null_freq then 1 else 0) + histogram.m_distinct_remaining

/-- `DoNDVBasedCardEstimation` (CHistogram.cpp:1963), of points that are mapped to numbers. -/
def DoNDVBasedCardEstimation (histogram : CHistogram P) : Bool :=
  histogram.m_histogram_buckets.isEmpty

/-- The number of distinct values and the frequency without NULL, as in
    `MakeNDVBasedJoinHistogramEqualityFilter`. -/
def nonNullNDVs (histogram : CHistogram P) : ℚ × ℚ :=
  if Epsilon < histogram.m_null_freq then
    (max 0 (histogram.GetNumDistinct - 1), histogram.GetFrequency - histogram.m_null_freq)
  else (histogram.GetNumDistinct, histogram.GetFrequency)

/-- `MakeNDVBasedJoinHistogramEqualityFilter` (CHistogram.cpp:1148). -/
def MakeNDVBasedJoinHistogramEqualityFilter (histogram1 histogram2 : CHistogram P) :
    CHistogram P :=
  let NDVs1 := histogram1.nonNullNDVs
  let NDVs2 := histogram2.nonNullNDVs
  let distinct_remaining := min NDVs1.1 NDVs2.1
  { m_histogram_buckets := []
    m_null_freq := 0
    m_distinct_remaining := distinct_remaining
    m_freq_remaining :=
      if Epsilon < distinct_remaining then NDVs1.2 * NDVs2.2 / max NDVs1.1 NDVs2.1 else 0 }

/-- `CanComputeJoinNDVRemain` (CHistogram.cpp:1214). -/
def CanComputeJoinNDVRemain (histogram1 histogram2 : CHistogram P) : Bool :=
  let has_buckets1 := !histogram1.m_histogram_buckets.isEmpty
  let has_buckets2 := !histogram2.m_histogram_buckets.isEmpty
  let has_distinct_remain1 : Bool := Epsilon < histogram1.m_distinct_remaining
  let has_distinct_remain2 : Bool := Epsilon < histogram2.m_distinct_remaining
  (has_distinct_remain1 || has_distinct_remain2) &&
    ((has_distinct_remain1 || has_buckets1) && (has_distinct_remain2 || has_buckets2))

/-- `ComputeJoinNDVRemainInfo` (CHistogram.cpp:1248): distinct values and frequency of what the
    buckets of the join do not capture. -/
def ComputeJoinNDVRemainInfo (histogram1 histogram2 : CHistogram P)
    (join_buckets : List (CBucket P)) (hist1_buckets_freq hist2_buckets_freq : ℚ) : ℚ × ℚ :=
  let join_NDVs := bucketsNumDistinct join_buckets
  if ¬CanComputeJoinNDVRemain histogram1 histogram2 then (0, 0)
  else if 1 - bucketsFrequency join_buckets ≤ Epsilon then (0, 0)
  else
    let num_distinct_non_null1 := histogram1.GetNumDistinct -
      if Epsilon < histogram1.m_null_freq then 1 else 0
    let num_distinct_non_null2 := histogram2.GetNumDistinct -
      if Epsilon < histogram2.m_null_freq then 1 else 0
    let final_join_NDVs := min num_distinct_non_null1 num_distinct_non_null2
    let freq_non_join_buckets1 :=
      max 0 (bucketsFrequency histogram1.m_histogram_buckets - hist1_buckets_freq)
    let freq_non_join_buckets2 :=
      max 0 (bucketsFrequency histogram2.m_histogram_buckets - hist2_buckets_freq)
    let NDVs_non_join_buckets1 := bucketsNumDistinct histogram1.m_histogram_buckets - join_NDVs
    let NDVs_non_join_buckets2 := bucketsNumDistinct histogram2.m_histogram_buckets - join_NDVs
    let freq_remain1 := histogram1.m_freq_remaining
    let freq_remain2 := histogram2.m_freq_remaining
    (max (final_join_NDVs - join_NDVs) 0,
      freq_remain1 * freq_remain2 /
          max histogram1.m_distinct_remaining histogram2.m_distinct_remaining +
        freq_remain1 * freq_non_join_buckets2 /
          max num_distinct_non_null1 NDVs_non_join_buckets2 +
        freq_remain2 * freq_non_join_buckets1 /
          max num_distinct_non_null2 NDVs_non_join_buckets1)

/-- The loop of `MakeJoinHistogramEqualityFilter`: the buckets it appends, each with the frequencies
    of both sides that it adds up. -/
def joinSweep : List (CBucket P) → List (CBucket P) → List (CBucket P × ℚ × ℚ)
  | [], _ => []
  | _ :: _, [] => []
  | bucket1 :: buckets1, bucket2 :: buckets2 =>
    if bucket1.Intersects bucket2 then
      bucket1.MakeBucketIntersect bucket2 ::
        if CBucket.CompareUpperBounds bucket1 bucket2 = 0 then joinSweep buckets1 buckets2
        else if CBucket.CompareUpperBounds bucket1 bucket2 < 1 then
          joinSweep buckets1 (bucket2 :: buckets2)
        else joinSweep (bucket1 :: buckets1) buckets2
    else if bucket1.IsBefore bucket2 then joinSweep buckets1 (bucket2 :: buckets2)
    else joinSweep (bucket1 :: buckets1) buckets2
termination_by buckets1 buckets2 => buckets1.length + buckets2.length

/-- `MakeJoinHistogramEqualityFilter` (CHistogram.cpp:1068). -/
def MakeJoinHistogramEqualityFilter (histogram1 histogram2 : CHistogram P) : CHistogram P :=
  if histogram1.DoNDVBasedCardEstimation || histogram2.DoNDVBasedCardEstimation then
    MakeNDVBasedJoinHistogramEqualityFilter histogram1 histogram2
  else
    let sweep := joinSweep histogram1.m_histogram_buckets histogram2.m_histogram_buckets
    let join_buckets := sweep.map (·.1)
    let remain := ComputeJoinNDVRemainInfo histogram1 histogram2 join_buckets
      (sweep.map (·.2.1)).sum (sweep.map (·.2.2)).sum
    { m_histogram_buckets := join_buckets
      m_null_freq := 0
      m_distinct_remaining := remain.1
      m_freq_remaining := remain.2 }

end CHistogram

end BossOptimizer

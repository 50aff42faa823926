import BossOptimizer.Statistics.BucketValues
import Mathlib.Tactic.Ring
import Mathlib.Algebra.BigOperators.Ring.List
import Mathlib.Algebra.Order.BigOperators.Group.List

/-!
# Equality joins of histograms

The sweep intersects every two buckets that overlap on the number line, once and in order: it
leaves a bucket only if nothing that comes later reaches into it. The frequencies that it charges
to the intersections are right as long as they have a length. A single point counts as one wide,
and a bucket with many of them is charged more than it has.
-/

namespace BossOptimizer.CBucket

/-- `IDatumDouble::GetDoubleMapping`, of numbers. -/
instance : StatsMappable ℚ where
  mapping := id
  mapping_strictMono := strictMono_id

variable {P : Type} [StatsMappable P] {bucket bucket1 bucket2 : CBucket P} {v : P}

/-! ## Buckets on the number line -/

/-- The bucket of the numbers between the bounds. -/
def onLine (bucket : CBucket P) : CBucket ℚ where
  m_bucket_lower_bound := StatsMappable.mapping bucket.m_bucket_lower_bound
  m_bucket_upper_bound := StatsMappable.mapping bucket.m_bucket_upper_bound
  m_is_lower_closed := bucket.m_is_lower_closed
  m_is_upper_closed := bucket.m_is_upper_closed
  m_frequency := bucket.m_frequency
  m_distinct := bucket.m_distinct

/-- The number is in the bucket. -/
def Spans (bucket : CBucket P) (x : ℚ) : Prop := bucket.onLine.Contains x = true

theorem mapping_lt_iff {point other : P} :
    StatsMappable.mapping point < StatsMappable.mapping other ↔ point < other :=
  StatsMappable.mapping_strictMono.lt_iff_lt

theorem mapping_inj {point other : P} :
    StatsMappable.mapping point = StatsMappable.mapping other ↔ point = other :=
  StatsMappable.mapping_strictMono.injective.eq_iff

theorem WellFormed.onLine (h : bucket.WellFormed) : bucket.onLine.WellFormed :=
  ⟨StatsMappable.mapping_strictMono.monotone h.le, fun heq => h.closed (mapping_inj.1 heq),
    h.frequency_nonneg, h.distinct_nonneg⟩

theorem begins_onLine : bucket1.onLine.Begins bucket2.onLine ↔ bucket1.Begins bucket2 := by
  simp only [Begins, CBucket.onLine, mapping_lt_iff, mapping_inj]

/-! ## The common bucket -/

theorem minPoint_eq (point1 point2 : P) : CPoint.MinPoint point1 point2 = min point1 point2 :=
  (min_def point1 point2).symm

theorem maxPoint_eq (point1 point2 : P) : CPoint.MaxPoint point1 point2 = max point1 point2 := by
  rw [CPoint.MaxPoint, max_comm, max_def]

theorem WellFormed.intersects_comm (h1 : bucket1.WellFormed) (h2 : bucket2.WellFormed) :
    bucket1.Intersects bucket2 = bucket2.Intersects bucket1 := by
  rw [Bool.eq_iff_iff, h1.intersects_iff h2, h2.intersects_iff h1, and_comm]

/-- The width that the source takes for the common part of two buckets. -/
def distanceNew (bucket1 bucket2 : CBucket P) : ℚ :=
  let lower_new := CPoint.MaxPoint bucket1.m_bucket_lower_bound bucket2.m_bucket_lower_bound
  let upper_new := CPoint.MinPoint bucket1.m_bucket_upper_bound bucket2.m_bucket_upper_bound
  if lower_new = upper_new then 1 else CPoint.Distance upper_new lower_new

theorem distanceNew_comm (bucket1 bucket2 : CBucket P) :
    distanceNew bucket1 bucket2 = distanceNew bucket2 bucket1 := by
  simp only [distanceNew, minPoint_eq, maxPoint_eq, min_comm, max_comm]

/-- The share of a bucket in the common part. -/
theorem freq_intersect1_eq : (bucket1.MakeBucketIntersect bucket2).2.1 =
    (if bucket1.IsSingleton && bucket2.IsSingleton then 1
      else distanceNew bucket1 bucket2 / bucket1.Width) * bucket1.m_frequency := rfl

/-- The two shares are the same function of the two buckets. -/
theorem freq_intersect2_eq : (bucket1.MakeBucketIntersect bucket2).2.2 =
    (bucket2.MakeBucketIntersect bucket1).2.1 := by
  rw [freq_intersect1_eq, distanceNew_comm, Bool.and_comm]
  rfl

theorem distanceNew_nonneg (h : bucket1.Begins bucket2 ∧ bucket2.Begins bucket1)
    (h1 : bucket1.WellFormed) (h2 : bucket2.WellFormed) : 0 ≤ distanceNew bucket1 bucket2 := by
  have hle : max bucket1.m_bucket_lower_bound bucket2.m_bucket_lower_bound ≤
      min bucket1.m_bucket_upper_bound bucket2.m_bucket_upper_bound := by
    have := h1.le
    have := h2.le
    simp only [Begins] at h
    grind
  rw [distanceNew]
  simp only [minPoint_eq, maxPoint_eq]
  split_ifs
  · exact zero_le_one
  · exact sub_nonneg.2 (StatsMappable.mapping_strictMono.monotone hle)

theorem WellFormed.width_pos (h : bucket.WellFormed) : 0 < bucket.Width := by
  rw [Width]
  split_ifs with hsingleton
  · exact zero_lt_one
  · exact distance_pos (h.le.lt_of_ne fun heq => hsingleton (isSingleton_iff.2 heq))

theorem WellFormed.freq_intersect_nonneg (h1 : bucket1.WellFormed) (h2 : bucket2.WellFormed)
    (h : bucket1.Intersects bucket2 = true) : 0 ≤ (bucket1.MakeBucketIntersect bucket2).2.1 := by
  rw [freq_intersect1_eq]
  refine mul_nonneg ?_ h1.frequency_nonneg
  split_ifs
  · exact zero_le_one
  · exact div_nonneg (distanceNew_nonneg ((h1.intersects_iff h2).1 h) h1 h2) h1.width_pos.le

/-- The common bucket is well formed. -/
theorem WellFormed.intersect (h1 : bucket1.WellFormed) (h2 : bucket2.WellFormed)
    (h : bucket1.Intersects bucket2 = true) :
    (bucket1.MakeBucketIntersect bucket2).1.WellFormed := by
  have hshare1 := h1.freq_intersect_nonneg h2 h
  have hshare2 := h2.freq_intersect_nonneg h1 ((h1.intersects_comm h2).symm.trans h)
  have hbegins := (h1.intersects_iff h2).1 h
  have hratio : ∀ bucket bucket' : CBucket P, 0 ≤ distanceNew bucket1 bucket2 →
      bucket.WellFormed → 0 ≤ if bucket.IsSingleton && bucket'.IsSingleton then 1
        else distanceNew bucket1 bucket2 / bucket.Width := by
    intro bucket bucket' hdistance hwf
    split_ifs
    · exact zero_le_one
    · exact div_nonneg hdistance hwf.width_pos.le
  have hdistance := distanceNew_nonneg hbegins h1 h2
  have hdistinct1 := mul_nonneg (hratio _ bucket2 hdistance h1) h1.distinct_nonneg
  have hdistinct2 := mul_nonneg (hratio _ bucket1 hdistance h2) h2.distinct_nonneg
  rw [Bool.and_comm] at hdistinct2
  rw [← freq_intersect2_eq] at hshare2
  refine ⟨?_, ?_, ?_, ?_⟩
  · have := h1.le
    have := h2.le
    simp only [MakeBucketIntersect, minPoint_eq, maxPoint_eq]
    simp only [Begins] at hbegins
    grind
  · intro heq
    exact ⟨if_pos heq, if_pos heq⟩
  · exact div_nonneg (mul_nonneg hshare1 hshare2) (le_max_of_le_left hdistinct1)
  · exact le_min hdistinct1 hdistinct2

theorem WellFormed.aboveLower_intersect (h1 : bucket1.WellFormed) (h2 : bucket2.WellFormed)
    (h : bucket1.Intersects bucket2 = true) :
    (bucket1.MakeBucketIntersect bucket2).1.AboveLower v ↔
      bucket1.AboveLower v ∧ bucket2.AboveLower v := by
  have hbegins := (h1.intersects_iff h2).1 h
  have hclosed1 := h1.closed
  have hclosed2 := h2.closed
  simp only [Begins] at hbegins
  simp only [MakeBucketIntersect, minPoint_eq, maxPoint_eq, AboveLower]
  grind

theorem WellFormed.belowUpper_intersect (h1 : bucket1.WellFormed) (h2 : bucket2.WellFormed)
    (h : bucket1.Intersects bucket2 = true) :
    (bucket1.MakeBucketIntersect bucket2).1.BelowUpper v ↔
      bucket1.BelowUpper v ∧ bucket2.BelowUpper v := by
  have hbegins := (h1.intersects_iff h2).1 h
  have hclosed1 := h1.closed
  have hclosed2 := h2.closed
  simp only [Begins] at hbegins
  simp only [MakeBucketIntersect, minPoint_eq, maxPoint_eq, BelowUpper]
  grind

/-- **The common bucket has what both buckets have.** -/
theorem WellFormed.contains_intersect (h1 : bucket1.WellFormed) (h2 : bucket2.WellFormed)
    (h : bucket1.Intersects bucket2 = true) :
    (bucket1.MakeBucketIntersect bucket2).1.Contains v = true ↔
      bucket1.Contains v = true ∧ bucket2.Contains v = true := by
  rw [(h1.intersect h2 h).contains_iff, h1.contains_iff, h2.contains_iff,
    h1.aboveLower_intersect h2 h, h1.belowUpper_intersect h2 h, and_and_and_comm]

/-- The common bucket begins after both buckets do. -/
theorem WellFormed.intersect_begins {other : CBucket P} (h1 : bucket1.WellFormed)
    (h2 : bucket2.WellFormed) (h : bucket1.Intersects bucket2 = true)
    (hother : (bucket1.MakeBucketIntersect bucket2).1.Begins other) :
    bucket1.Begins other ∧ bucket2.Begins other := by
  have hbegins := (h1.intersects_iff h2).1 h
  have := h1.closed
  have := h2.closed
  simp only [MakeBucketIntersect, minPoint_eq, maxPoint_eq, Begins] at *
  grind

/-- The common bucket ends before both buckets do. -/
theorem WellFormed.begins_intersect {other : CBucket P} (h1 : bucket1.WellFormed)
    (h2 : bucket2.WellFormed) (h : bucket1.Intersects bucket2 = true)
    (hother : other.Begins (bucket1.MakeBucketIntersect bucket2).1) :
    other.Begins bucket1 ∧ other.Begins bucket2 := by
  have hbegins := (h1.intersects_iff h2).1 h
  have := h1.closed
  have := h2.closed
  simp only [MakeBucketIntersect, minPoint_eq, maxPoint_eq, Begins] at *
  grind

theorem onLine_intersect : (bucket1.MakeBucketIntersect bucket2).1.onLine.Contains =
    (bucket1.onLine.MakeBucketIntersect bucket2.onLine).1.Contains := by
  have hmax : ∀ point1 point2 : P, StatsMappable.mapping (max point1 point2) =
      max (StatsMappable.mapping point1) (StatsMappable.mapping point2) :=
    fun _ _ => StatsMappable.mapping_strictMono.monotone.map_max
  have hmin : ∀ point1 point2 : P, StatsMappable.mapping (min point1 point2) =
      min (StatsMappable.mapping point1) (StatsMappable.mapping point2) :=
    fun _ _ => StatsMappable.mapping_strictMono.monotone.map_min
  funext x
  simp only [Contains, IsSingleton, MakeBucketIntersect, onLine, minPoint_eq, maxPoint_eq,
    ← hmax, ← hmin, mapping_inj]

/-- A well-formed bucket of a dense order is not empty. -/
theorem WellFormed.exists_contains [DenselyOrdered P] (h : bucket.WellFormed) :
    ∃ v, bucket.Contains v = true := by
  simp only [h.contains_iff, AboveLower, BelowUpper]
  rcases h.le.eq_or_lt with heq | hlt
  · exact ⟨_, .inr ⟨rfl, (h.closed heq).1⟩, .inr ⟨heq, (h.closed heq).2⟩⟩
  · obtain ⟨v, hlower, hupper⟩ := exists_between hlt
    exact ⟨v, .inl hlower, .inl hupper⟩

theorem WellFormed.begins_of_contains (h1 : bucket1.WellFormed) (h2 : bucket2.WellFormed)
    (hv1 : bucket1.Contains v = true) (hv2 : bucket2.Contains v = true) :
    bucket1.Begins bucket2 := by
  rw [h1.contains_iff] at hv1
  rw [h2.contains_iff] at hv2
  simp only [AboveLower, BelowUpper, Begins] at *
  grind

/-- **Two buckets intersect if they overlap on the number line.** -/
theorem WellFormed.intersects_iff_spans (h1 : bucket1.WellFormed) (h2 : bucket2.WellFormed) :
    bucket1.Intersects bucket2 = true ↔ ∃ x, bucket1.Spans x ∧ bucket2.Spans x := by
  have hline : bucket1.Intersects bucket2 = true ↔
      bucket1.onLine.Intersects bucket2.onLine = true := by
    rw [h1.intersects_iff h2, h1.onLine.intersects_iff h2.onLine, begins_onLine, begins_onLine]
  rw [hline]
  constructor
  · intro h
    obtain ⟨x, hx⟩ := (h1.onLine.intersect h2.onLine h).exists_contains
    exact ⟨x, (h1.onLine.contains_intersect h2.onLine h).1 hx⟩
  · rintro ⟨x, hx1, hx2⟩
    exact (h1.onLine.intersects_iff h2.onLine).2
      ⟨h1.onLine.begins_of_contains h2.onLine hx1 hx2,
        h2.onLine.begins_of_contains h1.onLine hx2 hx1⟩

theorem WellFormed.spans_intersect (h1 : bucket1.WellFormed) (h2 : bucket2.WellFormed)
    (h : bucket1.Intersects bucket2 = true) (x : ℚ) :
    (bucket1.MakeBucketIntersect bucket2).1.Spans x ↔ bucket1.Spans x ∧ bucket2.Spans x := by
  have hline : bucket1.onLine.Intersects bucket2.onLine = true := by
    rw [h1.onLine.intersects_iff h2.onLine, begins_onLine, begins_onLine]
    exact (h1.intersects_iff h2).1 h
  rw [Spans, onLine_intersect]
  exact h1.onLine.contains_intersect h2.onLine hline

end BossOptimizer.CBucket

namespace BossOptimizer.CHistogram

open CBucket

variable {P : Type} [StatsMappable P]

/-! ## The sweep -/

/-- The pairs of buckets that intersect, in order. -/
def commonPairs (buckets1 buckets2 : List (CBucket P)) : List (CBucket P × CBucket P) :=
  buckets1.flatMap fun bucket1 =>
    (buckets2.filter fun bucket2 => bucket1.Intersects bucket2).map fun bucket2 => (bucket1, bucket2)

variable {bucket1 bucket2 : CBucket P} {buckets1 buckets2 : List (CBucket P)}

/-- A bucket that intersects nothing has no pairs. -/
theorem commonPairs_skip_fst (h : ∀ bucket ∈ buckets2, bucket1.Intersects bucket = false) :
    commonPairs (bucket1 :: buckets1) buckets2 = commonPairs buckets1 buckets2 := by
  have hfilter : (buckets2.filter fun bucket => bucket1.Intersects bucket) = [] :=
    List.filter_eq_nil_iff.2 fun bucket hmem => Bool.eq_false_iff.1 (h bucket hmem)
  rw [commonPairs, List.flatMap_cons, hfilter]
  rfl

theorem commonPairs_skip_snd (h : ∀ bucket ∈ buckets1, bucket.Intersects bucket2 = false) :
    commonPairs buckets1 (bucket2 :: buckets2) = commonPairs buckets1 buckets2 := by
  refine List.flatMap_congr fun bucket hmem => ?_
  rw [List.filter_cons_of_neg (Bool.eq_false_iff.1 (h bucket hmem))]

variable {bucket : CBucket P}

/-- What comes after a bucket that ends later does not begin before the end of the other. -/
theorem not_begins_of_compareUpperBounds (h : CompareUpperBounds bucket1 bucket2 ≤ 0)
    (hafter : ¬bucket.Begins bucket2) :
    ¬bucket.Begins bucket1 := by
  simp only [CompareUpperBounds, Begins] at *
  grind

theorem not_begins_of_compareUpperBounds' (h : 0 ≤ CompareUpperBounds bucket1 bucket2)
    (hafter : ¬bucket.Begins bucket1) :
    ¬bucket.Begins bucket2 := by
  simp only [CompareUpperBounds, Begins] at *
  grind

variable {buckets : List (CBucket P)}

/-- A bucket that ends before others begin does not intersect them. -/
theorem not_intersects (h1 : bucket1.WellFormed) (h2 : ∀ bucket ∈ buckets, bucket.WellFormed)
    (h : ∀ bucket ∈ buckets, ¬bucket.Begins bucket1) :
    ∀ bucket ∈ buckets, bucket1.Intersects bucket = false := fun bucket hmem =>
  Bool.eq_false_iff.2 fun hintersects =>
    h bucket hmem ((h1.intersects_iff (h2 bucket hmem)).1 hintersects).2

theorem not_intersects' (h1 : bucket1.WellFormed) (h2 : ∀ bucket ∈ buckets, bucket.WellFormed)
    (h : ∀ bucket ∈ buckets, ¬bucket.Begins bucket1) :
    ∀ bucket ∈ buckets, bucket.Intersects bucket1 = false := fun bucket hmem =>
  (h1.intersects_comm (h2 bucket hmem)).symm.trans (not_intersects h1 h2 h bucket hmem)

/-- The order is transitive. -/
theorem not_begins_trans (h2 : bucket2.WellFormed) (hbefore : ¬bucket2.Begins bucket1)
    (hafter : ¬bucket.Begins bucket2) :
    ¬bucket.Begins bucket1 := by
  have := h2.le
  have := h2.closed
  simp only [Begins] at *
  grind

/-- The first bucket has only the pair with the second one. -/
theorem commonPairs_head_fst (h : bucket1.Intersects bucket2 = true)
    (hrest : ∀ bucket ∈ buckets2, bucket1.Intersects bucket = false) :
    commonPairs (bucket1 :: buckets1) (bucket2 :: buckets2) =
      (bucket1, bucket2) :: commonPairs buckets1 (bucket2 :: buckets2) := by
  have hfilter : (buckets2.filter fun bucket => bucket1.Intersects bucket) = [] :=
    List.filter_eq_nil_iff.2 fun bucket hmem => Bool.eq_false_iff.1 (hrest bucket hmem)
  rw [commonPairs, List.flatMap_cons, List.filter_cons_of_pos h, hfilter]
  rfl

/-- The second bucket has only the pair with the first one. -/
theorem commonPairs_head_snd (h : bucket1.Intersects bucket2 = true)
    (hrest : ∀ bucket ∈ buckets1, bucket.Intersects bucket2 = false) :
    commonPairs (bucket1 :: buckets1) (bucket2 :: buckets2) =
      (bucket1, bucket2) :: commonPairs (bucket1 :: buckets1) buckets2 := by
  have hskip : commonPairs buckets1 (bucket2 :: buckets2) = commonPairs buckets1 buckets2 :=
    commonPairs_skip_snd hrest
  rw [commonPairs, commonPairs] at *
  rw [List.flatMap_cons, List.flatMap_cons, List.filter_cons_of_pos h, hskip]
  rfl

/-- **The sweep finds the pairs of buckets that intersect, in order.** -/
theorem joinSweep_eq (h1 : WellFormed buckets1) (h2 : WellFormed buckets2) :
    joinSweep buckets1 buckets2 =
      (commonPairs buckets1 buckets2).map fun pair => pair.1.MakeBucketIntersect pair.2 := by
  fun_induction joinSweep buckets1 buckets2 with
  | case1 => rfl
  | case2 bucket1 buckets1 =>
    have hnil : commonPairs (bucket1 :: buckets1) ([] : List (CBucket P)) = [] :=
      List.flatMap_eq_nil_iff.2 fun _ _ => rfl
    rw [hnil]
    rfl
  | case3 bucket1 buckets1 bucket2 buckets2 hintersects ihboth ihfirst ihsecond =>
    have hrow : CompareUpperBounds bucket1 bucket2 ≤ 0 →
        ∀ bucket ∈ buckets2, bucket1.Intersects bucket = false := fun h =>
      not_intersects h1.head h2.tail.bucket fun bucket hmem =>
        not_begins_of_compareUpperBounds h (h2.before hmem)
    have hcolumn : 0 ≤ CompareUpperBounds bucket1 bucket2 →
        ∀ bucket ∈ buckets1, bucket.Intersects bucket2 = false := fun h =>
      not_intersects' h2.head h1.tail.bucket fun bucket hmem =>
        not_begins_of_compareUpperBounds' h (h1.before hmem)
    split_ifs with hequal hfirst
    · rw [commonPairs_head_fst hintersects (hrow hequal.le),
        commonPairs_skip_snd (hcolumn hequal.ge), ihboth h1.tail h2.tail]
      rfl
    · rw [commonPairs_head_fst hintersects (hrow (by omega)), ihfirst h1.tail h2]
      rfl
    · rw [commonPairs_head_snd hintersects (hcolumn (by omega)), ihsecond h1 h2.tail]
      rfl
  | case4 bucket1 buckets1 bucket2 buckets2 hintersects hbefore ih =>
    have hnot := (h1.head.isBefore_iff h2.head).1 hbefore
    have hrow := not_intersects h1.head h2.bucket (List.forall_mem_cons.2
      ⟨hnot, fun bucket hmem => not_begins_trans h2.head hnot (h2.before hmem)⟩)
    rw [commonPairs_skip_fst hrow, ih h1.tail h2]
  | case5 bucket1 buckets1 bucket2 buckets2 hintersects hbefore ih =>
    have hnot : ¬bucket1.Begins bucket2 := fun hbegins =>
      hintersects ((h1.head.intersects_iff h2.head).2
        ⟨hbegins, not_not.1 fun h => hbefore ((h1.head.isBefore_iff h2.head).2 h)⟩)
    have hcolumn := not_intersects' h2.head h1.bucket (List.forall_mem_cons.2
      ⟨hnot, fun bucket hmem => not_begins_trans h1.head hnot (h1.before hmem)⟩)
    rw [commonPairs_skip_snd hcolumn, ih h1 h2.tail]

/-! ## Order -/

/-- What begins after one bucket of a histogram and what a later pair has in common. -/
theorem pairwise_commonPairs (h1 : WellFormed buckets1) (h2 : WellFormed buckets2) :
    (commonPairs buckets1 buckets2).Pairwise fun pair pair' =>
      ¬pair'.1.Begins pair.1 ∨ ¬pair'.2.Begins pair.2 := by
  refine List.pairwise_flatMap.2 ⟨fun bucket1 hmem1 => ?_, ?_⟩
  · refine List.pairwise_map.2 ((h2.ordered.imp_of_mem ?_).filter _)
    intro bucket2 bucket2' hmem hmem' hbefore
    exact .inr (((h2.bucket _ hmem).isBefore_iff (h2.bucket _ hmem')).1 hbefore)
  · refine h1.ordered.imp_of_mem fun {bucket1 bucket1'} hmem hmem' hbefore pair hpair pair' hpair' =>
      .inl ?_
    obtain ⟨-, -, rfl⟩ := List.mem_map.1 hpair
    obtain ⟨-, -, rfl⟩ := List.mem_map.1 hpair'
    exact ((h1.bucket _ hmem).isBefore_iff (h1.bucket _ hmem')).1 hbefore

theorem mem_commonPairs {pair : CBucket P × CBucket P} :
    pair ∈ commonPairs buckets1 buckets2 ↔
      pair.1 ∈ buckets1 ∧ pair.2 ∈ buckets2 ∧ pair.1.Intersects pair.2 = true := by
  obtain ⟨bucket1, bucket2⟩ := pair
  simp [commonPairs]

/-- **The buckets of the join are in order.** -/
theorem wellFormed_joinSweep (h1 : WellFormed buckets1) (h2 : WellFormed buckets2) :
    WellFormed ((joinSweep buckets1 buckets2).map (·.1)) := by
  rw [joinSweep_eq h1 h2, List.map_map]
  have hmem : ∀ pair ∈ commonPairs buckets1 buckets2, pair.1.WellFormed ∧ pair.2.WellFormed ∧
      pair.1.Intersects pair.2 = true := fun pair hpair =>
    ⟨h1.bucket _ (mem_commonPairs.1 hpair).1, h2.bucket _ (mem_commonPairs.1 hpair).2.1,
      (mem_commonPairs.1 hpair).2.2⟩
  refine ⟨List.forall_mem_map.2 fun pair hpair => ?_, List.pairwise_map.2
    ((pairwise_commonPairs h1 h2).imp_of_mem fun {pair pair'} hpair hpair' hbefore => ?_)⟩
  · obtain ⟨hwf1, hwf2, hintersects⟩ := hmem pair hpair
    exact hwf1.intersect hwf2 hintersects
  · obtain ⟨hwf1, hwf2, hintersects⟩ := hmem pair hpair
    obtain ⟨hwf1', hwf2', hintersects'⟩ := hmem pair' hpair'
    refine ((hwf1.intersect hwf2 hintersects).isBefore_iff
      (hwf1'.intersect hwf2' hintersects')).2 fun hbegins => ?_
    obtain ⟨hbegins1, hbegins2⟩ := hwf1'.intersect_begins hwf2' hintersects' hbegins
    rcases hbefore with hbefore | hbefore
    · exact hbefore (hwf1.begins_intersect hwf2 hintersects hbegins1).1
    · exact hbefore (hwf1.begins_intersect hwf2 hintersects hbegins2).2

/-! ## Shares of a bucket -/

/-- What the sweep charges to the intersections of a bucket. -/
def shares (bucket : CBucket P) (buckets : List (CBucket P)) : List ℚ :=
  (buckets.filter fun other => bucket.Intersects other).map fun other =>
    (bucket.MakeBucketIntersect other).2.1

/-- Shares of a frequency: none is negative, none is more than the frequency, nor are all. -/
def SharesWithin (frequency : ℚ) (shares : List ℚ) : Prop :=
  (∀ share ∈ shares, 0 ≤ share ∧ share ≤ frequency) ∧ shares.sum ≤ frequency

/-- The length that two buckets that intersect have in common. -/
def commonLength (bucket other : CBucket P) : ℚ :=
  CPoint.Distance (min bucket.m_bucket_upper_bound other.m_bucket_upper_bound)
    (max bucket.m_bucket_lower_bound other.m_bucket_lower_bound)

/-- Two buckets that intersect have a single point in common. -/
def MeetsInPoint (bucket other : CBucket P) : Bool :=
  max bucket.m_bucket_lower_bound other.m_bucket_lower_bound =
    min bucket.m_bucket_upper_bound other.m_bucket_upper_bound

/-- The part of a bucket that no other bucket covers is as long as single points meet the bucket. -/
def PointsFit (bucket : CBucket P) (buckets : List (CBucket P)) : Prop :=
  bucket.IsSingleton = true ∨ bucket.m_frequency = 0 ∨
    (((buckets.filter fun other => bucket.Intersects other).filter (MeetsInPoint bucket)).length : ℚ) ≤
      bucket.Width - ((buckets.filter fun other => bucket.Intersects other).map
        (commonLength bucket)).sum

theorem distanceNew_eq (bucket other : CBucket P) :
    distanceNew bucket other = commonLength bucket other + if MeetsInPoint bucket other then 1 else 0 := by
  rw [distanceNew, commonLength, MeetsInPoint]
  simp only [minPoint_eq, maxPoint_eq, decide_eq_true_iff]
  split_ifs with heq
  · rw [heq, CPoint.Distance, sub_self, zero_add]
  · rw [add_zero]

/-- A single point counts as one wide. -/
theorem sum_distanceNew (bucket : CBucket P) (others : List (CBucket P)) :
    (others.map (distanceNew bucket)).sum =
      (others.map (commonLength bucket)).sum + ((others.filter (MeetsInPoint bucket)).length : ℚ) := by
  induction others with
  | nil => simp
  | cons other others ih =>
    rw [List.map_cons, List.map_cons, List.sum_cons, List.sum_cons, ih, distanceNew_eq]
    by_cases hpoint : MeetsInPoint bucket other = true
    · rw [List.filter_cons_of_pos hpoint, if_pos hpoint, List.length_cons]
      push_cast
      ring
    · rw [List.filter_cons_of_neg hpoint, if_neg hpoint]
      ring

/-- The shares of a bucket with a length. -/
theorem sum_shares (hsingleton : bucket.IsSingleton = false) (others : List (CBucket P)) :
    (others.map fun other => (bucket.MakeBucketIntersect other).2.1).sum =
      (others.map (distanceNew bucket)).sum / bucket.Width * bucket.m_frequency := by
  have hshare : (fun other => (bucket.MakeBucketIntersect other).2.1) =
      fun other => distanceNew bucket other * (bucket.Width⁻¹ * bucket.m_frequency) := by
    funext other
    rw [freq_intersect1_eq, hsingleton, Bool.false_and, if_neg Bool.false_ne_true, div_eq_mul_inv,
      mul_assoc]
  rw [hshare, List.sum_map_mul_right, div_eq_mul_inv, mul_assoc]

/-- A single point is in one bucket at most, to which the whole frequency goes. -/
theorem sharesWithin_of_isSingleton (h : bucket.WellFormed) (hbuckets : WellFormed buckets)
    (hsingleton : bucket.IsSingleton = true) :
    SharesWithin bucket.m_frequency (shares bucket buckets) := by
  have hpoint := isSingleton_iff.1 hsingleton
  have hclosed := h.closed hpoint
  have hbegins : ∀ other ∈ buckets.filter fun other => bucket.Intersects other,
      bucket.Begins other ∧ other.Begins bucket := fun other hmem =>
    (h.intersects_iff (hbuckets.bucket other (List.mem_of_mem_filter hmem))).1
      (List.mem_filter.1 hmem).2
  have hshare : ∀ other ∈ buckets.filter fun other => bucket.Intersects other,
      (bucket.MakeBucketIntersect other).2.1 = bucket.m_frequency := by
    intro other hmem
    have hone : distanceNew bucket other = 1 := by
      have hboth := hbegins other hmem
      simp only [Begins] at hboth
      simp only [distanceNew, minPoint_eq, maxPoint_eq]
      grind
    rw [freq_intersect1_eq, hone, Width, if_pos hsingleton, div_one, ite_self, one_mul]
  have hordered : (buckets.filter fun other => bucket.Intersects other).Pairwise
      fun other other' => ¬other'.Begins other :=
    (hbuckets.ordered.imp_of_mem fun hmem hmem' =>
      ((hbuckets.bucket _ hmem).isBefore_iff (hbuckets.bucket _ hmem')).1).filter _
  rw [shares]
  generalize (buckets.filter fun other => bucket.Intersects other) = others at *
  rcases others with _ | ⟨other, _ | ⟨other', rest⟩⟩
  · exact ⟨by simp, h.frequency_nonneg⟩
  · have heq := hshare other List.mem_cons_self
    refine ⟨List.forall_mem_singleton.2 ⟨?_, heq.le⟩, by simp [heq]⟩
    exact h.frequency_nonneg.trans_eq heq.symm
  · -- Two buckets that both have the point are not in order.
    have hbegins1 := hbegins other List.mem_cons_self
    have hbegins2 := hbegins other' (List.mem_cons_of_mem _ List.mem_cons_self)
    have hnot := (List.pairwise_cons.1 hordered).1 other' List.mem_cons_self
    simp only [Begins] at hbegins1 hbegins2 hnot
    grind

/-- **The shares of a bucket are right exactly if its length allows for the single points.** -/
theorem sharesWithin_iff (h : bucket.WellFormed) (hbuckets : WellFormed buckets) :
    SharesWithin bucket.m_frequency (shares bucket buckets) ↔ PointsFit bucket buckets := by
  by_cases hsingleton : bucket.IsSingleton = true
  · exact iff_of_true (sharesWithin_of_isSingleton h hbuckets hsingleton) (.inl hsingleton)
  have hnonneg : ∀ share ∈ shares bucket buckets, 0 ≤ share := by
    intro share hmem
    obtain ⟨other, hother, rfl⟩ := List.mem_map.1 hmem
    have hother := List.mem_filter.1 hother
    exact h.freq_intersect_nonneg (hbuckets.bucket other hother.1) hother.2
  have hsum : SharesWithin bucket.m_frequency (shares bucket buckets) ↔
      (shares bucket buckets).sum ≤ bucket.m_frequency :=
    ⟨And.right, fun hle => ⟨fun share hmem =>
      ⟨hnonneg share hmem, (List.single_le_sum hnonneg share hmem).trans hle⟩, hle⟩⟩
  have hwidth := h.width_pos
  rw [hsum, shares, sum_shares (Bool.eq_false_iff.2 hsingleton), sum_distanceNew, PointsFit,
    or_iff_right hsingleton, le_sub_iff_add_le']
  rcases h.frequency_nonneg.eq_or_lt with hzero | hpos
  · simp [← hzero]
  · rw [or_iff_right hpos.ne', mul_le_iff_le_one_left hpos, div_le_one hwidth]

/-! ## The histogram -/

open Classical in
/-- The pairs of buckets that overlap on the number line, in order. -/
noncomputable def overlaps (buckets1 buckets2 : List (CBucket P)) :
    List (CBucket P × CBucket P) :=
  buckets1.flatMap fun bucket1 => (buckets2.filter fun bucket2 =>
    ∃ x, bucket1.Spans x ∧ bucket2.Spans x).map fun bucket2 => (bucket1, bucket2)

/-- The equality join of two histograms has the common part of every two buckets that overlap, once
    and in order, and charges no bucket with more than its frequency. -/
structure IsEquiJoin (histogram1 histogram2 result : CHistogram P) : Prop where
  buckets : List.Forall₂ (fun pair bucket => ∀ x, bucket.Spans x ↔ pair.1.Spans x ∧ pair.2.Spans x)
    (overlaps histogram1.m_histogram_buckets histogram2.m_histogram_buckets)
    result.m_histogram_buckets
  ordered : WellFormed result.m_histogram_buckets
  shares1 : ∀ bucket1 ∈ histogram1.m_histogram_buckets, SharesWithin bucket1.m_frequency
    ((histogram2.m_histogram_buckets.filter fun bucket2 => bucket1.Intersects bucket2).map
      fun bucket2 => (bucket1.MakeBucketIntersect bucket2).2.1)
  shares2 : ∀ bucket2 ∈ histogram2.m_histogram_buckets, SharesWithin bucket2.m_frequency
    ((histogram1.m_histogram_buckets.filter fun bucket1 => bucket1.Intersects bucket2).map
      fun bucket1 => (bucket1.MakeBucketIntersect bucket2).2.2)

theorem overlaps_eq (h1 : WellFormed buckets1) (h2 : WellFormed buckets2) :
    overlaps buckets1 buckets2 = commonPairs buckets1 buckets2 := by
  classical
  refine List.flatMap_congr fun bucket1 hmem1 => congrArg _ (List.filter_congr fun bucket2 hmem2 => ?_)
  rw [Bool.eq_iff_iff, decide_eq_true_iff,
    (h1.bucket bucket1 hmem1).intersects_iff_spans (h2.bucket bucket2 hmem2)]

/-- The shares of a bucket of the second histogram. -/
theorem shares_eq (h1 : WellFormed buckets1) (h : bucket2.WellFormed) :
    ((buckets1.filter fun bucket1 => bucket1.Intersects bucket2).map
      fun bucket1 => (bucket1.MakeBucketIntersect bucket2).2.2) = shares bucket2 buckets1 := by
  have hfilter : (buckets1.filter fun bucket1 => bucket1.Intersects bucket2) =
      buckets1.filter fun bucket1 => bucket2.Intersects bucket1 :=
    List.filter_congr fun bucket1 hmem => (h1.bucket bucket1 hmem).intersects_comm h
  rw [hfilter, shares]
  exact List.map_congr_left fun bucket1 _ => freq_intersect2_eq

/-- The buckets of the histogram that is built. -/
theorem buckets_makeJoinHistogramEqualityFilter (histogram1 histogram2 : CHistogram P) :
    (MakeJoinHistogramEqualityFilter histogram1 histogram2).m_histogram_buckets =
      (joinSweep histogram1.m_histogram_buckets histogram2.m_histogram_buckets).map (·.1) := by
  rw [MakeJoinHistogramEqualityFilter]
  split_ifs with hempty
  · -- Without buckets there is nothing to sweep over.
    rw [DoNDVBasedCardEstimation, DoNDVBasedCardEstimation, Bool.or_eq_true, List.isEmpty_iff,
      List.isEmpty_iff] at hempty
    rcases hempty with hempty | hempty
    · rw [hempty, joinSweep]
      rfl
    · rw [hempty]
      cases histogram1.m_histogram_buckets with
      | nil => rw [joinSweep]; rfl
      | cons => rw [joinSweep]; rfl
  · rfl

end BossOptimizer.CHistogram

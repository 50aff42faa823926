import BossOptimizer.Statistics.CHistogram
import Mathlib.Algebra.Order.Field.Basic
import Mathlib.Algebra.Order.Field.Rat
import Mathlib.Algebra.BigOperators.Group.List.Basic

/-!
# The values in a bucket

A value is in a well-formed bucket if it is above the lower and below the upper bound. The tests of
buckets are read in these terms, and so is what `Difference` keeps: everything before and after the
other bucket, save an end point that both have, if only the first bucket contains it.
-/

namespace BossOptimizer.CBucket

variable {P : Type} [StatsMappable P] {bucket bucket1 bucket2 : CBucket P} {v : P}

/-- What the constructor asserts of bounds, frequency and distinct values. -/
structure WellFormed (bucket : CBucket P) : Prop where
  le : bucket.m_bucket_lower_bound ≤ bucket.m_bucket_upper_bound
  closed : bucket.m_bucket_lower_bound = bucket.m_bucket_upper_bound →
    bucket.m_is_lower_closed = true ∧ bucket.m_is_upper_closed = true
  frequency_nonneg : 0 ≤ bucket.m_frequency
  distinct_nonneg : 0 ≤ bucket.m_distinct

/-- The value respects the lower bound. -/
def AboveLower (bucket : CBucket P) (v : P) : Prop :=
  bucket.m_bucket_lower_bound < v ∨
    bucket.m_bucket_lower_bound = v ∧ bucket.m_is_lower_closed = true

/-- The value respects the upper bound. -/
def BelowUpper (bucket : CBucket P) (v : P) : Prop :=
  v < bucket.m_bucket_upper_bound ∨
    v = bucket.m_bucket_upper_bound ∧ bucket.m_is_upper_closed = true

/-- The first bucket begins before the second one ends, or where it ends if both have the point. -/
def Begins (bucket1 bucket2 : CBucket P) : Prop :=
  bucket1.m_bucket_lower_bound < bucket2.m_bucket_upper_bound ∨
    bucket1.m_bucket_lower_bound = bucket2.m_bucket_upper_bound ∧
      bucket1.m_is_lower_closed = true ∧ bucket2.m_is_upper_closed = true

theorem isSingleton_iff :
    bucket.IsSingleton = true ↔ bucket.m_bucket_lower_bound = bucket.m_bucket_upper_bound := by
  rw [IsSingleton, decide_eq_true_iff]

theorem WellFormed.contains_iff (h : bucket.WellFormed) :
    bucket.Contains v = true ↔ bucket.AboveLower v ∧ bucket.BelowUpper v := by
  obtain ⟨lower, upper, lowerClosed, upperClosed, f, d⟩ := bucket
  obtain ⟨hle, hclosed, -, -⟩ := h
  simp only [Contains, IsSingleton, AboveLower, BelowUpper] at *
  grind

theorem isBeforePoint_iff : bucket.IsBeforePoint v = true ↔ ¬bucket.AboveLower v := by
  rw [IsBeforePoint, decide_eq_true_iff, AboveLower]
  grind

theorem isAfterPoint_iff : bucket.IsAfterPoint v = true ↔ ¬bucket.BelowUpper v := by
  rw [IsAfterPoint, decide_eq_true_iff, BelowUpper]
  grind

/-- A value cannot be on the wrong side of both bounds. -/
theorem WellFormed.aboveLower_or_belowUpper (h : bucket.WellFormed) (v : P) :
    bucket.AboveLower v ∨ bucket.BelowUpper v := by
  obtain ⟨hle, hclosed, -, -⟩ := h
  rw [AboveLower, BelowUpper]
  grind

/-- What is below the end of a bucket is before all that begins after it. -/
theorem not_aboveLower_of_not_begins (hbefore : ¬bucket2.Begins bucket1)
    (hv : bucket1.BelowUpper v) : ¬bucket2.AboveLower v := by
  rw [Begins] at hbefore
  rw [BelowUpper] at hv
  rw [AboveLower]
  grind

theorem compareLowerBounds_le_iff : CompareLowerBounds bucket1 bucket2 ≤ 0 ↔
    bucket1.m_bucket_lower_bound < bucket2.m_bucket_lower_bound ∨
      bucket1.m_bucket_lower_bound = bucket2.m_bucket_lower_bound ∧
        (bucket2.m_is_lower_closed = true → bucket1.m_is_lower_closed = true) := by
  rw [CompareLowerBounds]
  grind

theorem le_compareUpperBounds_iff : 0 ≤ CompareUpperBounds bucket1 bucket2 ↔
    bucket2.m_bucket_upper_bound < bucket1.m_bucket_upper_bound ∨
      bucket2.m_bucket_upper_bound = bucket1.m_bucket_upper_bound ∧
        (bucket2.m_is_upper_closed = true → bucket1.m_is_upper_closed = true) := by
  rw [CompareUpperBounds]
  grind

theorem compareLowerBoundToUpperBound_le_iff :
    CompareLowerBoundToUpperBound bucket1 bucket2 ≤ 0 ↔ bucket1.Begins bucket2 := by
  rw [CompareLowerBoundToUpperBound, Begins]
  grind

/-- One bucket subsumes another if it has the lower and the upper bound of it. -/
theorem WellFormed.subsumes_iff (h1 : bucket1.WellFormed) (h2 : bucket2.WellFormed) :
    bucket1.Subsumes bucket2 = true ↔
      CompareLowerBounds bucket1 bucket2 ≤ 0 ∧ 0 ≤ CompareUpperBounds bucket1 bucket2 := by
  have hcontains := h1.contains_iff (v := bucket2.m_bucket_lower_bound)
  have hlower : CompareLowerBounds bucket1 bucket2 ≤ 0 ↔ _ := compareLowerBounds_le_iff
  have hupper : 0 ≤ CompareUpperBounds bucket1 bucket2 ↔ _ := le_compareUpperBounds_iff
  obtain ⟨hle1, hclosed1, -, -⟩ := h1
  obtain ⟨hle2, hclosed2, -, -⟩ := h2
  rw [AboveLower, BelowUpper] at hcontains
  simp only [Subsumes, isSingleton_iff]
  grind

theorem WellFormed.intersects_iff (h1 : bucket1.WellFormed) (h2 : bucket2.WellFormed) :
    bucket1.Intersects bucket2 = true ↔ bucket1.Begins bucket2 ∧ bucket2.Begins bucket1 := by
  have hcontains1 := h1.contains_iff (v := bucket2.m_bucket_lower_bound)
  have hcontains2 := h2.contains_iff (v := bucket1.m_bucket_lower_bound)
  have hsubsumes1 := h1.subsumes_iff h2
  have hsubsumes2 := h2.subsumes_iff h1
  simp only [compareLowerBounds_le_iff, le_compareUpperBounds_iff] at hsubsumes1 hsubsumes2
  obtain ⟨hle1, hclosed1, -, -⟩ := h1
  obtain ⟨hle2, hclosed2, -, -⟩ := h2
  simp only [AboveLower, BelowUpper] at hcontains1 hcontains2
  simp only [Intersects, isSingleton_iff, compareLowerBoundToUpperBound_le_iff,
    compareLowerBounds_le_iff, Begins]
  grind

theorem WellFormed.isBefore_iff (h1 : bucket1.WellFormed) (h2 : bucket2.WellFormed) :
    bucket1.IsBefore bucket2 = true ↔ ¬bucket2.Begins bucket1 := by
  rw [IsBefore, decide_eq_true_iff, h1.intersects_iff h2]
  obtain ⟨hle1, hclosed1, -, -⟩ := h1
  obtain ⟨hle2, hclosed2, -, -⟩ := h2
  rw [Begins, Begins]
  grind

theorem WellFormed.subsumes_contains (h1 : bucket1.WellFormed) (h2 : bucket2.WellFormed)
    (h : bucket1.Subsumes bucket2 = true) (hv : bucket2.Contains v = true) :
    bucket1.Contains v = true := by
  rw [h1.subsumes_iff h2, compareLowerBounds_le_iff, le_compareUpperBounds_iff] at h
  rw [h2.contains_iff] at hv
  rw [h1.contains_iff, AboveLower, BelowUpper]
  rw [AboveLower, BelowUpper] at hv
  grind

/-! ## What `Difference` keeps -/

/-- The values in some bucket of a list. -/
def Covered (buckets : List (CBucket P)) (v : P) : Prop :=
  ∃ bucket ∈ buckets, bucket.Contains v = true

@[simp] theorem covered_nil : ¬Covered [] v := nofun

@[simp] theorem covered_cons {buckets : List (CBucket P)} :
    Covered (bucket :: buckets) v ↔ bucket.Contains v = true ∨ Covered buckets v := by
  simp [Covered]

@[simp] theorem covered_append {buckets buckets' : List (CBucket P)} :
    Covered (buckets ++ buckets') v ↔ Covered buckets v ∨ Covered buckets' v := by
  simp [Covered, or_and_right, exists_or]

/-- An end point that two overlapping buckets share, and only the first one contains. -/
def LostEnd (bucket1 bucket2 : CBucket P) (v : P) : Prop :=
  bucket1.IsBefore bucket2 = false ∧ bucket2.IsBefore bucket1 = false ∧
    bucket1.Contains v = true ∧ bucket2.Contains v = false ∧
    (v = bucket1.m_bucket_lower_bound ∧ v = bucket2.m_bucket_lower_bound ∨
      v = bucket1.m_bucket_upper_bound ∧ v = bucket2.m_bucket_upper_bound)

/-- A bucket up to a point above its lower bound. -/
theorem makeBucketScaleUpper_eq {point : P} (closed : Bool)
    (h : bucket.m_bucket_lower_bound < point) :
    ∃ f d, bucket.MakeBucketScaleUpper point closed =
        some ⟨bucket.m_bucket_lower_bound, point, bucket.m_is_lower_closed, closed, f, d⟩ ∧
      f = bucket.m_frequency * (if bucket.m_bucket_upper_bound = point then 1
        else bucket.GetOverlapPercentage point) ∧
      d = bucket.m_distinct * if bucket.m_bucket_upper_bound = point then 1
        else bucket.GetOverlapPercentage point := by
  rw [MakeBucketScaleUpper, if_neg h.ne]
  exact ⟨_, _, rfl, rfl, rfl⟩

/-- A bucket from a point below its upper bound. -/
theorem makeBucketScaleLower_eq {point : P} (closed : Bool)
    (h : point < bucket.m_bucket_upper_bound) :
    ∃ f d, bucket.MakeBucketScaleLower point closed =
        ⟨point, bucket.m_bucket_upper_bound, closed, bucket.m_is_upper_closed, f, d⟩ ∧
      f = bucket.m_frequency * (if bucket.m_bucket_lower_bound = point then 1
        else 1 - bucket.GetOverlapPercentage point) ∧
      d = bucket.m_distinct * if bucket.m_bucket_lower_bound = point then 1
        else 1 - bucket.GetOverlapPercentage point := by
  rw [MakeBucketScaleLower, if_neg h.ne']
  exact ⟨_, _, rfl, rfl, rfl⟩

/-! ### Shares of a bucket -/

theorem distance_pos {point other : P} (h : other < point) : 0 < CPoint.Distance point other :=
  sub_pos.2 (StatsMappable.mapping_strictMono h)

theorem distance_le {point point' : P} (other : P) (h : point ≤ point') :
    CPoint.Distance point other ≤ CPoint.Distance point' other :=
  sub_le_sub_right (StatsMappable.mapping_strictMono.monotone h) _

theorem overlap_nonneg (hle : bucket.m_bucket_lower_bound ≤ bucket.m_bucket_upper_bound)
    (point : P) : 0 ≤ bucket.GetOverlapPercentage point := by
  have hwidth : 0 ≤ CPoint.Distance bucket.m_bucket_upper_bound bucket.m_bucket_lower_bound :=
    sub_nonneg.2 (StatsMappable.mapping_strictMono.monotone hle)
  rw [GetOverlapPercentage]
  split
  · exact zero_le_one
  split
  · exact le_rfl
  split
  · exact zero_le_one
  refine le_min ?_ zero_le_one
  split
  · next hmiddle => exact mul_nonneg (one_div_nonneg.2 hwidth) hmiddle.le
  · exact one_div_nonneg.2 hwidth

theorem overlap_le_one (point : P) : bucket.GetOverlapPercentage point ≤ 1 := by
  rw [GetOverlapPercentage]
  split
  · exact le_rfl
  split
  · exact zero_le_one
  split
  · exact le_rfl
  exact min_le_right _ _

/-- Between its bounds, a bucket is covered in proportion to the distance. -/
theorem overlap_eq {point : P} (hlower : bucket.m_bucket_lower_bound < point)
    (hupper : point < bucket.m_bucket_upper_bound) :
    bucket.GetOverlapPercentage point =
      CPoint.Distance point bucket.m_bucket_lower_bound /
        CPoint.Distance bucket.m_bucket_upper_bound bucket.m_bucket_lower_bound := by
  have hlt := hlower.trans hupper
  have hsingleton : bucket.IsSingleton = false := decide_eq_false hlt.ne
  have hcontains : bucket.Contains point = true := by
    rw [Contains, hsingleton]
    grind
  have hmiddle := distance_pos hlower
  have hwidth := distance_pos hlt
  rw [GetOverlapPercentage, if_neg (not_le.2 hupper), if_neg (not_not.2 hcontains), hsingleton,
    if_neg Bool.false_ne_true]
  dsimp only
  rw [if_pos hmiddle, one_div_mul_eq_div, min_eq_left]
  exact (div_le_one hwidth).2 (distance_le _ hupper.le)

theorem overlap_mono {point point' : P} (hlower : bucket.m_bucket_lower_bound < point)
    (h : point ≤ point') : bucket.GetOverlapPercentage point ≤ bucket.GetOverlapPercentage point' := by
  rcases lt_or_ge point' bucket.m_bucket_upper_bound with hupper | hupper
  · rw [overlap_eq hlower (h.trans_lt hupper), overlap_eq (hlower.trans_le h) hupper]
    exact div_le_div_of_nonneg_right (distance_le _ h)
      (distance_pos (hlower.trans_le (h.trans hupper.le))).le
  · refine (overlap_le_one point).trans_eq ?_
    rw [GetOverlapPercentage, if_pos hupper]

/-! ### The splits -/

/-- The cases of `Difference`, by where the two buckets begin and end. -/
theorem WellFormed.difference_cases (h1 : bucket1.WellFormed) (h2 : bucket2.WellFormed) :
    (bucket1.Difference bucket2 = (none, none) ∧ bucket2.Subsumes bucket1 = true) ∨
    (bucket1.Difference bucket2 = (some bucket1, none) ∧ ¬bucket2.Begins bucket1) ∨
    (bucket1.Difference bucket2 = (none, some bucket1) ∧ ¬bucket1.Begins bucket2) ∨
    (bucket1.Begins bucket2 ∧ bucket2.Begins bucket1 ∧ bucket2.Subsumes bucket1 = false ∧
      bucket1.m_bucket_lower_bound < bucket1.m_bucket_upper_bound ∧
      bucket1.Difference bucket2 =
        (if bucket1.m_bucket_lower_bound < bucket2.m_bucket_lower_bound then
            bucket1.MakeBucketScaleUpper bucket2.m_bucket_lower_bound (!bucket2.m_is_lower_closed)
          else none,
          if bucket2.m_bucket_upper_bound < bucket1.m_bucket_upper_bound then
            some (bucket1.MakeBucketScaleLower bucket2.m_bucket_upper_bound
              (!bucket2.m_is_upper_closed))
          else none)) := by
  have hbefore := h1.isBefore_iff h2
  have hafter := h2.isBefore_iff h1
  rw [Difference]
  by_cases hsubsumes : bucket2.Subsumes bucket1 = true
  · exact .inl ⟨if_pos hsubsumes, hsubsumes⟩
  rw [if_neg hsubsumes]
  by_cases hbefore' : bucket1.IsBefore bucket2 = true
  · exact .inr (.inl ⟨if_pos hbefore', hbefore.1 hbefore'⟩)
  rw [if_neg hbefore']
  by_cases hafter' : bucket2.IsBefore bucket1 = true
  · exact .inr (.inr (.inl ⟨if_pos hafter', hafter.1 hafter'⟩))
  rw [if_neg hafter']
  have hbegins : bucket1.Begins bucket2 := not_not.1 fun h => hafter' (hafter.2 h)
  have hbegins' : bucket2.Begins bucket1 := not_not.1 fun h => hbefore' (hbefore.2 h)
  have hlt : bucket1.m_bucket_lower_bound < bucket1.m_bucket_upper_bound := by
    refine h1.le.lt_of_ne fun heq => hsubsumes ?_
    have := h1.closed
    rw [h2.subsumes_iff h1, compareLowerBounds_le_iff, le_compareUpperBounds_iff]
    rw [Begins] at hbegins hbegins'
    grind
  exact .inr (.inr (.inr ⟨hbegins, hbegins', Bool.eq_false_iff.2 hsubsumes, hlt, rfl⟩))

/-- The lower split as a bucket: the other bucket, or its lower bound, ends it. -/
theorem WellFormed.difference_fst (h1 : bucket1.WellFormed) (h2 : bucket2.WellFormed)
    (h : (bucket1.Difference bucket2).1 = some bucket) :
    (bucket = bucket1 ∧ ¬bucket2.Begins bucket1) ∨
    (bucket1.Begins bucket2 ∧ bucket2.Begins bucket1 ∧
      bucket1.m_bucket_lower_bound < bucket2.m_bucket_lower_bound ∧
      ∃ f d, bucket = ⟨bucket1.m_bucket_lower_bound, bucket2.m_bucket_lower_bound,
        bucket1.m_is_lower_closed, !bucket2.m_is_lower_closed, f, d⟩ ∧ 0 ≤ f ∧ 0 ≤ d) := by
  rcases h1.difference_cases h2 with ⟨heq, -⟩ | ⟨heq, hbefore⟩ | ⟨heq, -⟩ | ⟨hb, hb', -, -, heq⟩
  · rw [heq] at h
    cases h
  · rw [heq] at h
    cases h
    exact .inl ⟨rfl, hbefore⟩
  · rw [heq] at h
    cases h
  · rw [heq] at h
    dsimp only at h
    split_ifs at h with hlt
    obtain ⟨f, d, hscale, rfl, rfl⟩ := makeBucketScaleUpper_eq (!bucket2.m_is_lower_closed) hlt
    rw [hscale] at h
    cases h
    have hshare : 0 ≤ if bucket1.m_bucket_upper_bound = bucket2.m_bucket_lower_bound then (1 : ℚ)
        else bucket1.GetOverlapPercentage bucket2.m_bucket_lower_bound := by
      split_ifs
      · exact zero_le_one
      · exact overlap_nonneg h1.le _
    exact .inr ⟨hb, hb', hlt, _, _, rfl, mul_nonneg h1.frequency_nonneg hshare,
      mul_nonneg h1.distinct_nonneg hshare⟩

/-- The upper split as a bucket: the other bucket, or its upper bound, begins it. -/
theorem WellFormed.difference_snd (h1 : bucket1.WellFormed) (h2 : bucket2.WellFormed)
    (h : (bucket1.Difference bucket2).2 = some bucket) :
    (bucket = bucket1 ∧ ¬bucket1.Begins bucket2) ∨
    (bucket1.Begins bucket2 ∧ bucket2.Begins bucket1 ∧
      bucket2.m_bucket_upper_bound < bucket1.m_bucket_upper_bound ∧
      ∃ f d, bucket = ⟨bucket2.m_bucket_upper_bound, bucket1.m_bucket_upper_bound,
        !bucket2.m_is_upper_closed, bucket1.m_is_upper_closed, f, d⟩ ∧ 0 ≤ f ∧ 0 ≤ d) := by
  rcases h1.difference_cases h2 with ⟨heq, -⟩ | ⟨heq, -⟩ | ⟨heq, hafter⟩ | ⟨hb, hb', -, -, heq⟩
  · rw [heq] at h
    cases h
  · rw [heq] at h
    cases h
  · rw [heq] at h
    cases h
    exact .inl ⟨rfl, hafter⟩
  · rw [heq] at h
    dsimp only at h
    split_ifs at h with hlt
    obtain ⟨f, d, hscale, rfl, rfl⟩ := makeBucketScaleLower_eq (!bucket2.m_is_upper_closed) hlt
    rw [hscale] at h
    cases h
    have hshare : 0 ≤ if bucket1.m_bucket_lower_bound = bucket2.m_bucket_upper_bound then (1 : ℚ)
        else 1 - bucket1.GetOverlapPercentage bucket2.m_bucket_upper_bound := by
      split_ifs
      · exact zero_le_one
      · exact sub_nonneg.2 (overlap_le_one _)
    exact .inr ⟨hb, hb', hlt, _, _, rfl, mul_nonneg h1.frequency_nonneg hshare,
      mul_nonneg h1.distinct_nonneg hshare⟩

theorem WellFormed.difference_fst_wellFormed (h1 : bucket1.WellFormed) (h2 : bucket2.WellFormed)
    (h : (bucket1.Difference bucket2).1 = some bucket) : bucket.WellFormed ∧
      bucket.m_bucket_lower_bound = bucket1.m_bucket_lower_bound ∧
      bucket.m_bucket_upper_bound ≤ bucket1.m_bucket_upper_bound ∧
      bucket.m_bucket_upper_bound ≤ bucket2.m_bucket_lower_bound := by
  rcases h1.difference_fst h2 h with ⟨rfl, hbefore⟩ | ⟨-, hb', hlt, f, d, rfl, hf, hd⟩
  · rw [Begins, not_or, not_lt] at hbefore
    exact ⟨h1, rfl, le_rfl, hbefore.1⟩
  · refine ⟨⟨hlt.le, fun heq => absurd heq hlt.ne, hf, hd⟩, rfl, ?_, le_rfl⟩
    exact hb'.elim le_of_lt fun h => h.1.le

theorem WellFormed.difference_snd_wellFormed (h1 : bucket1.WellFormed) (h2 : bucket2.WellFormed)
    (h : (bucket1.Difference bucket2).2 = some bucket) : bucket.WellFormed ∧
      bucket.m_bucket_upper_bound = bucket1.m_bucket_upper_bound ∧
      bucket1.m_bucket_lower_bound ≤ bucket.m_bucket_lower_bound ∧
      bucket2.m_bucket_upper_bound ≤ bucket.m_bucket_lower_bound := by
  rcases h1.difference_snd h2 h with ⟨rfl, hafter⟩ | ⟨hb, -, hlt, f, d, rfl, hf, hd⟩
  · rw [Begins, not_or, not_lt] at hafter
    exact ⟨h1, rfl, le_rfl, hafter.1⟩
  · refine ⟨⟨hlt.le, fun heq => absurd heq hlt.ne, hf, hd⟩, rfl, ?_, le_rfl⟩
    exact hb.elim le_of_lt fun h => h.1.le

theorem WellFormed.lostEnd_iff (h1 : bucket1.WellFormed) (h2 : bucket2.WellFormed) :
    bucket1.LostEnd bucket2 v ↔ bucket2.Begins bucket1 ∧ bucket1.Begins bucket2 ∧
      bucket1.Contains v = true ∧ ¬bucket2.Contains v = true ∧
      (v = bucket1.m_bucket_lower_bound ∧ v = bucket2.m_bucket_lower_bound ∨
        v = bucket1.m_bucket_upper_bound ∧ v = bucket2.m_bucket_upper_bound) := by
  rw [LostEnd, Bool.eq_false_iff, Bool.eq_false_iff, Bool.eq_false_iff, Ne, Ne, Ne,
    h1.isBefore_iff h2, h2.isBefore_iff h1, not_not, not_not]

/-- **The lower split** has what is before the other bucket. -/
theorem WellFormed.covered_difference_fst (h1 : bucket1.WellFormed) (h2 : bucket2.WellFormed) :
    Covered (bucket1.Difference bucket2).1.toList v ↔
      bucket1.Contains v = true ∧ bucket2.IsBeforePoint v = true ∧ ¬bucket1.LostEnd bucket2 v := by
  rw [isBeforePoint_iff, h1.lostEnd_iff h2]
  cases hsplit : (bucket1.Difference bucket2).1 with
  | none =>
    rcases h1.difference_cases h2 with ⟨-, hsub⟩ | ⟨heq, -⟩ | ⟨-, hafter⟩ | ⟨hb, hb', -, hlt, heq⟩
    · have hsubset := h2.subsumes_contains (v := v) h1 hsub
      rw [h2.contains_iff] at hsubset
      simp only [Option.toList_none, covered_nil, false_iff]
      grind
    · rw [heq] at hsplit
      cases hsplit
    · rw [h1.contains_iff]
      have := h2.le
      have := h2.closed
      simp only [Option.toList_none, covered_nil, false_iff, AboveLower, BelowUpper, Begins] at *
      grind
    · rw [heq] at hsplit
      dsimp only at hsplit
      split_ifs at hsplit with hlower
      · obtain ⟨f, d, hscale, -⟩ := makeBucketScaleUpper_eq (!bucket2.m_is_lower_closed) hlower
        rw [hscale] at hsplit
        cases hsplit
      · rw [h1.contains_iff, h2.contains_iff]
        simp only [Option.toList_none, covered_nil, false_iff, AboveLower, BelowUpper, Begins] at *
        grind
  | some bucket =>
    have hwf := (h1.difference_fst_wellFormed h2 hsplit).1
    rw [Option.toList_some, covered_cons, iff_false_intro covered_nil, or_false]
    rcases h1.difference_fst h2 hsplit with ⟨rfl, hbefore⟩ | ⟨hb, hb', hlt, f, d, rfl, -⟩
    · have := h2.le
      have := h2.closed
      rw [h1.contains_iff, h2.contains_iff]
      simp only [AboveLower, BelowUpper, Begins] at *
      grind
    · rw [hwf.contains_iff, h1.contains_iff, h2.contains_iff]
      have := h2.le
      have := h2.closed
      simp only [AboveLower, BelowUpper, Begins, Bool.not_eq_true'] at *
      grind

/-- **The upper split** has what is after the other bucket. -/
theorem WellFormed.covered_difference_snd (h1 : bucket1.WellFormed) (h2 : bucket2.WellFormed) :
    Covered (bucket1.Difference bucket2).2.toList v ↔
      bucket1.Contains v = true ∧ bucket2.IsAfterPoint v = true ∧ ¬bucket1.LostEnd bucket2 v := by
  rw [isAfterPoint_iff, h1.lostEnd_iff h2]
  cases hsplit : (bucket1.Difference bucket2).2 with
  | none =>
    rcases h1.difference_cases h2 with ⟨-, hsub⟩ | ⟨-, hbefore⟩ | ⟨heq, -⟩ | ⟨hb, hb', -, hlt, heq⟩
    · have hsubset := h2.subsumes_contains (v := v) h1 hsub
      rw [h2.contains_iff] at hsubset
      simp only [Option.toList_none, covered_nil, false_iff]
      grind
    · rw [h1.contains_iff]
      have := h2.le
      have := h2.closed
      simp only [Option.toList_none, covered_nil, false_iff, AboveLower, BelowUpper, Begins] at *
      grind
    · rw [heq] at hsplit
      cases hsplit
    · rw [heq] at hsplit
      dsimp only at hsplit
      split_ifs at hsplit with hupper
      rw [h1.contains_iff, h2.contains_iff]
      simp only [Option.toList_none, covered_nil, false_iff, AboveLower, BelowUpper, Begins] at *
      grind
  | some bucket =>
    have hwf := (h1.difference_snd_wellFormed h2 hsplit).1
    rw [Option.toList_some, covered_cons, iff_false_intro covered_nil, or_false]
    rcases h1.difference_snd h2 hsplit with ⟨rfl, hafter⟩ | ⟨hb, hb', hlt, f, d, rfl, -⟩
    · have := h2.le
      have := h2.closed
      rw [h1.contains_iff, h2.contains_iff]
      simp only [AboveLower, BelowUpper, Begins] at *
      grind
    · rw [hwf.contains_iff, h1.contains_iff, h2.contains_iff]
      have := h2.le
      have := h2.closed
      simp only [AboveLower, BelowUpper, Begins, Bool.not_eq_true'] at *
      grind

/-- The lower split begins where the bucket does, and ends before it. -/
theorem WellFormed.difference_fst_begins {other : CBucket P} (h1 : bucket1.WellFormed)
    (h2 : bucket2.WellFormed) (h : (bucket1.Difference bucket2).1 = some bucket) :
    (bucket.Begins other ↔ bucket1.Begins other) ∧
      (other.Begins bucket → other.Begins bucket1) := by
  rcases h1.difference_fst h2 h with ⟨rfl, -⟩ | ⟨-, hb', -, f, d, rfl, -⟩
  · exact ⟨Iff.rfl, id⟩
  · refine ⟨Iff.rfl, ?_⟩
    simp only [Begins, Bool.not_eq_true'] at *
    grind

/-- The upper split ends where the bucket does, and begins after it. -/
theorem WellFormed.difference_snd_begins {other : CBucket P} (h1 : bucket1.WellFormed)
    (h2 : bucket2.WellFormed) (h : (bucket1.Difference bucket2).2 = some bucket) :
    (bucket.Begins other → bucket1.Begins other) ∧
      (other.Begins bucket ↔ other.Begins bucket1) := by
  rcases h1.difference_snd h2 h with ⟨rfl, -⟩ | ⟨hb, -, -, f, d, rfl, -⟩
  · exact ⟨id, Iff.rfl⟩
  · refine ⟨?_, Iff.rfl⟩
    simp only [Begins, Bool.not_eq_true'] at *
    grind

/-- The upper split does not begin before the lower one ends. -/
theorem WellFormed.difference_not_begins {lower upper : CBucket P} (h1 : bucket1.WellFormed)
    (h2 : bucket2.WellFormed) (hlower : (bucket1.Difference bucket2).1 = some lower)
    (hupper : (bucket1.Difference bucket2).2 = some upper) : ¬upper.Begins lower := by
  have := h2.le
  have := h2.closed
  rcases h1.difference_fst h2 hlower with ⟨rfl, hbefore⟩ | ⟨hb, hb', hlt, f, d, rfl, -⟩
  · rcases h1.difference_snd h2 hupper with ⟨-, hafter⟩ | ⟨-, hb', -⟩
    · have := h1.le
      have := h1.closed
      simp only [Begins] at *
      grind
    · exact absurd hb' hbefore
  · rcases h1.difference_snd h2 hupper with ⟨-, hafter⟩ | ⟨-, -, hlt', f', d', rfl, -⟩
    · exact absurd hb hafter
    · simp only [Begins, Bool.not_eq_true'] at *
      grind

/-- **The two splits have at most the frequency of the bucket together.** -/
theorem WellFormed.frequency_difference_le (h1 : bucket1.WellFormed) (h2 : bucket2.WellFormed) :
    ((bucket1.Difference bucket2).1.toList.map m_frequency).sum +
      ((bucket1.Difference bucket2).2.toList.map m_frequency).sum ≤ bucket1.m_frequency := by
  have hnonneg := h1.frequency_nonneg
  rcases h1.difference_cases h2 with ⟨heq, -⟩ | ⟨heq, -⟩ | ⟨heq, -⟩ | ⟨-, -, -, hlt, heq⟩
  · simpa [heq] using hnonneg
  · simp [heq]
  · simp [heq]
  have hlower := overlap_nonneg h1.le bucket2.m_bucket_lower_bound
  have hlower' := @overlap_le_one _ _ bucket1 bucket2.m_bucket_lower_bound
  have hupper := overlap_nonneg h1.le bucket2.m_bucket_upper_bound
  have hupper' := @overlap_le_one _ _ bucket1 bucket2.m_bucket_upper_bound
  rw [heq]
  by_cases hfst : bucket1.m_bucket_lower_bound < bucket2.m_bucket_lower_bound
  · obtain ⟨f, d, hscale, rfl, -⟩ := makeBucketScaleUpper_eq (!bucket2.m_is_lower_closed) hfst
    by_cases hsnd : bucket2.m_bucket_upper_bound < bucket1.m_bucket_upper_bound
    · obtain ⟨f', d', hscale', rfl, -⟩ := makeBucketScaleLower_eq (!bucket2.m_is_upper_closed) hsnd
      have hmono := overlap_mono hfst h2.le
      rw [if_neg (h2.le.trans_lt hsnd).ne', if_neg (hfst.trans_le h2.le).ne] at *
      simp only [if_pos hfst, if_pos hsnd, hscale, hscale', Option.toList_some, List.map_cons,
        List.map_nil, List.sum_cons, List.sum_nil, add_zero, ← mul_add]
      exact mul_le_of_le_one_right hnonneg (by grind)
    · simp only [if_pos hfst, if_neg hsnd, hscale, Option.toList_some, Option.toList_none,
        List.map_cons, List.map_nil, List.sum_cons, List.sum_nil, add_zero]
      exact mul_le_of_le_one_right hnonneg (by split_ifs <;> simp [hlower'])
  · by_cases hsnd : bucket2.m_bucket_upper_bound < bucket1.m_bucket_upper_bound
    · obtain ⟨f', d', hscale', rfl, -⟩ := makeBucketScaleLower_eq (!bucket2.m_is_upper_closed) hsnd
      simp only [if_neg hfst, if_pos hsnd, hscale', Option.toList_some, Option.toList_none,
        List.map_cons, List.map_nil, List.sum_cons, List.sum_nil, add_zero, zero_add]
      exact mul_le_of_le_one_right hnonneg (by split_ifs <;> simp [hupper])
    · simpa [hfst, hsnd] using hnonneg

end BossOptimizer.CBucket

namespace BossOptimizer.CHistogram

open CBucket

variable {P : Type} [StatsMappable P] {v : P}

/-! ## Buckets in order -/

/-- Buckets in order, without overlap. -/
structure WellFormed (buckets : List (CBucket P)) : Prop where
  bucket : ∀ bucket ∈ buckets, bucket.WellFormed
  ordered : buckets.Pairwise fun bucket1 bucket2 => bucket1.IsBefore bucket2 = true

theorem WellFormed.tail {bucket : CBucket P} {buckets : List (CBucket P)}
    (h : WellFormed (bucket :: buckets)) : WellFormed buckets :=
  ⟨fun b hb => h.bucket b (List.mem_cons_of_mem bucket hb), (List.pairwise_cons.1 h.ordered).2⟩

theorem WellFormed.head {bucket : CBucket P} {buckets : List (CBucket P)}
    (h : WellFormed (bucket :: buckets)) : bucket.WellFormed :=
  h.bucket bucket List.mem_cons_self

theorem WellFormed.before {bucket bucket' : CBucket P} {buckets : List (CBucket P)}
    (h : WellFormed (bucket :: buckets)) (hmem : bucket' ∈ buckets) : ¬bucket'.Begins bucket :=
  (h.head.isBefore_iff (h.tail.bucket bucket' hmem)).1
    ((List.pairwise_cons.1 h.ordered).1 bucket' hmem)

theorem WellFormed.not_covered {bucket : CBucket P} {buckets : List (CBucket P)}
    (h : WellFormed (bucket :: buckets)) (hv : bucket.BelowUpper v) : ¬Covered buckets v := by
  rintro ⟨bucket', hmem, hcontains⟩
  rw [(h.tail.bucket bucket' hmem).contains_iff] at hcontains
  exact not_aboveLower_of_not_begins (h.before hmem) hv hcontains.1

/-- A closed bucket of integers, with a tenth of the rows. -/
def closedBucket (lower upper : ℤ) : CBucket ℤ := ⟨lower, upper, true, true, 1 / 10, 1⟩

/-- A histogram of closed buckets. -/
def closedHistogram (bounds : List (ℤ × ℤ)) : CHistogram ℤ :=
  ⟨bounds.map fun bound => closedBucket bound.1 bound.2, 0, 0, 0⟩

theorem closedBucket_wellFormed {lower upper : ℤ} (h : lower ≤ upper) :
    (closedBucket lower upper).WellFormed :=
  ⟨h, fun _ => ⟨rfl, rfl⟩, (by decide +kernel : (0 : ℚ) ≤ 1 / 10), zero_le_one⟩

theorem wellFormed_closedBucket {lower upper : ℤ} (h : lower ≤ upper) :
    WellFormed [closedBucket lower upper] :=
  ⟨List.forall_mem_singleton.2 (closedBucket_wellFormed h), List.pairwise_singleton _ _⟩

end BossOptimizer.CHistogram

import Mathlib.Algebra.Order.Ring.Rat
import Mathlib.Algebra.Order.Ring.Cast

/-!
# Buckets of a histogram

A bucket is an interval between two points, each of which it may contain or not, with a frequency
and a number of distinct values. Points are the values of an ordered column; statistics compare and
measure them by the numbers that they are mapped to. Frequencies are rational numbers.
-/

namespace BossOptimizer

/-- Values with the number that `GetLINTMapping` or `GetDoubleMapping` gives. -/
class StatsMappable (P : Type) extends LinearOrder P where
  mapping : P → ℚ
  mapping_strictMono : StrictMono mapping

/-- `IDatumInt4::GetLINTMapping` (IDatumInt4.h:74), of integers. -/
instance : StatsMappable ℤ where
  mapping := Int.cast
  mapping_strictMono := fun _ _ h => Int.cast_lt.2 h

namespace CPoint

variable {P : Type} [StatsMappable P]

/-- `Distance` (CPoint.cpp:131), of comparable points. -/
def Distance (point other : P) : ℚ := StatsMappable.mapping point - StatsMappable.mapping other

/-- `MinPoint` (CPoint.cpp:168). -/
def MinPoint (point1 point2 : P) : P := if point1 ≤ point2 then point1 else point2

/-- `MaxPoint` (CPoint.cpp:189). -/
def MaxPoint (point1 point2 : P) : P := if point2 ≤ point1 then point1 else point2

end CPoint

/-- `CBucket`. -/
structure CBucket (P : Type) where
  m_bucket_lower_bound : P
  m_bucket_upper_bound : P
  m_is_lower_closed : Bool
  m_is_upper_closed : Bool
  m_frequency : ℚ
  m_distinct : ℚ
deriving DecidableEq

namespace CBucket

variable {P : Type} [StatsMappable P]

/-- `IsSingleton`. -/
def IsSingleton (bucket : CBucket P) : Bool :=
  bucket.m_bucket_lower_bound = bucket.m_bucket_upper_bound

/-- `Contains` (CBucket.cpp:80). -/
def Contains (bucket : CBucket P) (point : P) : Bool :=
  if bucket.IsSingleton then bucket.m_bucket_lower_bound = point
  else if bucket.m_is_lower_closed ∧ bucket.m_bucket_lower_bound = point then true
  else if bucket.m_is_upper_closed ∧ bucket.m_bucket_upper_bound = point then true
  else bucket.m_bucket_lower_bound < point ∧ point < bucket.m_bucket_upper_bound

/-- `IsBefore` of a point (CBucket.cpp:113): the point is before the lower bound. -/
def IsBeforePoint (bucket : CBucket P) (point : P) : Bool :=
  (bucket.m_is_lower_closed ∧ point < bucket.m_bucket_lower_bound) ∨
    (¬bucket.m_is_lower_closed ∧ point ≤ bucket.m_bucket_lower_bound)

/-- `IsAfter` of a point (CBucket.cpp:131): the point is after the upper bound. -/
def IsAfterPoint (bucket : CBucket P) (point : P) : Bool :=
  (bucket.m_is_upper_closed ∧ bucket.m_bucket_upper_bound < point) ∨
    (¬bucket.m_is_upper_closed ∧ bucket.m_bucket_upper_bound ≤ point)

/-- `GetOverlapPercentage` (CBucket.cpp:149). -/
def GetOverlapPercentage (bucket : CBucket P) (point : P) : ℚ :=
  if bucket.m_bucket_upper_bound ≤ point then 1
  else if ¬bucket.Contains point then 0
  else if bucket.IsSingleton then 1
  else
    let distance_upper := CPoint.Distance bucket.m_bucket_upper_bound bucket.m_bucket_lower_bound
    let distance_middle := CPoint.Distance point bucket.m_bucket_lower_bound
    let res := if 0 < distance_middle then 1 / distance_upper * distance_middle
      else 1 / distance_upper
    min res 1

/-- `MakeBucketSingleton` (CBucket.cpp:381). -/
def MakeBucketSingleton (bucket : CBucket P) (point_singleton : P) : CBucket P where
  m_bucket_lower_bound := point_singleton
  m_bucket_upper_bound := point_singleton
  m_is_lower_closed := true
  m_is_upper_closed := true
  m_frequency := min 1 (bucket.m_frequency * (1 / bucket.m_distinct))
  m_distinct := 1

/-- `MakeBucketScaleUpper` (CBucket.cpp:287). -/
def MakeBucketScaleUpper (bucket : CBucket P) (point_upper_new : P) (include_upper : Bool) :
    Option (CBucket P) :=
  if bucket.m_bucket_lower_bound = point_upper_new then
    if include_upper then some (bucket.MakeBucketSingleton point_upper_new) else none
  else
    let overlap := if bucket.m_bucket_upper_bound = point_upper_new then 1
      else bucket.GetOverlapPercentage point_upper_new
    some {
      m_bucket_lower_bound := bucket.m_bucket_lower_bound
      m_bucket_upper_bound := point_upper_new
      m_is_lower_closed := bucket.m_is_lower_closed
      m_is_upper_closed := include_upper
      m_frequency := bucket.m_frequency * overlap
      m_distinct := bucket.m_distinct * overlap }

/-- `MakeBucketScaleLower` (CBucket.cpp:337). -/
def MakeBucketScaleLower (bucket : CBucket P) (point_lower_new : P) (include_lower : Bool) :
    CBucket P :=
  if bucket.m_bucket_upper_bound = point_lower_new then bucket.MakeBucketSingleton point_lower_new
  else
    let overlap := if bucket.m_bucket_lower_bound = point_lower_new then 1
      else 1 - bucket.GetOverlapPercentage point_lower_new
    { m_bucket_lower_bound := point_lower_new
      m_bucket_upper_bound := bucket.m_bucket_upper_bound
      m_is_lower_closed := include_lower
      m_is_upper_closed := bucket.m_is_upper_closed
      m_frequency := bucket.m_frequency * overlap
      m_distinct := bucket.m_distinct * overlap }

/-- `MakeBucketGreaterThan` (CBucket.cpp:246); `NextPoint` is the next value of a type that has
    one. -/
def MakeBucketGreaterThan (NextPoint : P → Option P) (bucket : CBucket P) (point : P) :
    Option (CBucket P) :=
  if bucket.IsSingleton ∨ bucket.m_bucket_upper_bound = point then none
  else
    match NextPoint point with
    | some point_new =>
      if bucket.Contains point_new then some (bucket.MakeBucketScaleLower point_new true) else none
    | none => some (bucket.MakeBucketScaleLower point false)

/-- `Width` (CBucket.cpp:820). -/
def Width (bucket : CBucket P) : ℚ :=
  if bucket.IsSingleton then 1
  else CPoint.Distance bucket.m_bucket_upper_bound bucket.m_bucket_lower_bound

/-- `MakeBucketIntersect` (CBucket.cpp:718): the common bucket, and the frequencies of both buckets
    in it. -/
def MakeBucketIntersect (bucket1 bucket2 : CBucket P) : CBucket P × ℚ × ℚ :=
  let lower_new := CPoint.MaxPoint bucket1.m_bucket_lower_bound bucket2.m_bucket_lower_bound
  let upper_new := CPoint.MinPoint bucket1.m_bucket_upper_bound bucket2.m_bucket_upper_bound
  let lower_new_is_closed : Bool :=
    if lower_new = upper_new then true
    else if lower_new = bucket2.m_bucket_lower_bound then
      if lower_new = bucket1.m_bucket_lower_bound then
        bucket1.m_is_lower_closed && bucket2.m_is_lower_closed
      else bucket2.m_is_lower_closed
    else bucket1.m_is_lower_closed
  let upper_new_is_closed : Bool :=
    if lower_new = upper_new then true
    else if upper_new = bucket2.m_bucket_upper_bound then
      if upper_new = bucket1.m_bucket_upper_bound then
        bucket1.m_is_upper_closed && bucket2.m_is_upper_closed
      else bucket2.m_is_upper_closed
    else bucket1.m_is_upper_closed
  let distance_new := if lower_new = upper_new then 1 else CPoint.Distance upper_new lower_new
  let singletons := bucket1.IsSingleton && bucket2.IsSingleton
  let ratio1 := if singletons then 1 else distance_new / bucket1.Width
  let ratio2 := if singletons then 1 else distance_new / bucket2.Width
  let freq_intersect1 := ratio1 * bucket1.m_frequency
  let freq_intersect2 := ratio2 * bucket2.m_frequency
  ({ m_bucket_lower_bound := lower_new
     m_bucket_upper_bound := upper_new
     m_is_lower_closed := lower_new_is_closed
     m_is_upper_closed := upper_new_is_closed
     m_frequency := freq_intersect1 * freq_intersect2 /
       max (ratio1 * bucket1.m_distinct) (ratio2 * bucket2.m_distinct)
     m_distinct := min (ratio1 * bucket1.m_distinct) (ratio2 * bucket2.m_distinct) },
    freq_intersect1, freq_intersect2)

/-- `CompareLowerBounds` (CBucket.cpp:457). -/
def CompareLowerBounds (bucket1 bucket2 : CBucket P) : ℤ :=
  if bucket1.m_bucket_lower_bound = bucket2.m_bucket_lower_bound then
    if bucket1.m_is_lower_closed = bucket2.m_is_lower_closed then 0
    else if bucket1.m_is_lower_closed then -1
    else 1
  else if bucket1.m_bucket_lower_bound < bucket2.m_bucket_lower_bound then -1
  else 1

/-- `CompareLowerBoundToUpperBound` (CBucket.cpp:503). -/
def CompareLowerBoundToUpperBound (bucket1 bucket2 : CBucket P) : ℤ :=
  if bucket2.m_bucket_upper_bound < bucket1.m_bucket_lower_bound then 1
  else if bucket1.m_bucket_lower_bound < bucket2.m_bucket_upper_bound then -1
  else if bucket1.m_is_lower_closed ∧ bucket2.m_is_upper_closed then 0
  else 1

/-- `CompareUpperBounds` (CBucket.cpp:538). -/
def CompareUpperBounds (bucket1 bucket2 : CBucket P) : ℤ :=
  if bucket1.m_bucket_upper_bound = bucket2.m_bucket_upper_bound then
    if bucket1.m_is_upper_closed = bucket2.m_is_upper_closed then 0
    else if bucket1.m_is_upper_closed then 1
    else -1
  else if bucket1.m_bucket_upper_bound < bucket2.m_bucket_upper_bound then -1
  else 1

/-- `Subsumes` (CBucket.cpp:635). -/
def Subsumes (bucket1 bucket2 : CBucket P) : Bool :=
  if bucket1.IsSingleton ∧ bucket2.IsSingleton then
    bucket1.m_bucket_lower_bound = bucket2.m_bucket_lower_bound
  else if bucket2.IsSingleton then bucket1.Contains bucket2.m_bucket_lower_bound
  else CompareLowerBounds bucket1 bucket2 ≤ 0 ∧ 0 ≤ CompareUpperBounds bucket1 bucket2

/-- `Intersects` (CBucket.cpp:583). -/
def Intersects (bucket1 bucket2 : CBucket P) : Bool :=
  if bucket1.IsSingleton ∧ bucket2.IsSingleton then
    bucket1.m_bucket_lower_bound = bucket2.m_bucket_lower_bound
  else if bucket1.IsSingleton then bucket2.Contains bucket1.m_bucket_lower_bound
  else if bucket2.IsSingleton then bucket1.Contains bucket2.m_bucket_lower_bound
  else if bucket1.Subsumes bucket2 ∨ bucket2.Subsumes bucket1 then true
  else if CompareLowerBounds bucket1 bucket2 ≤ 0 then
    CompareLowerBoundToUpperBound bucket2 bucket1 ≤ 0
  else CompareLowerBoundToUpperBound bucket1 bucket2 ≤ 0

/-- `IsBefore` of a bucket (CBucket.cpp:901). -/
def IsBefore (bucket1 bucket2 : CBucket P) : Bool :=
  ¬bucket1.Intersects bucket2 ∧ bucket1.m_bucket_upper_bound ≤ bucket2.m_bucket_lower_bound

/-- `Difference` (CBucket.cpp:843): the lower and the upper split. -/
def Difference (bucket bucket_other : CBucket P) : Option (CBucket P) × Option (CBucket P) :=
  if bucket_other.Subsumes bucket then (none, none)
  else if bucket.IsBefore bucket_other then (some bucket, none)
  else if bucket_other.IsBefore bucket then (none, some bucket)
  else
    (if bucket.m_bucket_lower_bound < bucket_other.m_bucket_lower_bound then
        bucket.MakeBucketScaleUpper bucket_other.m_bucket_lower_bound
          (!bucket_other.m_is_lower_closed)
      else none,
      if bucket_other.m_bucket_upper_bound < bucket.m_bucket_upper_bound then
        some (bucket.MakeBucketScaleLower bucket_other.m_bucket_upper_bound
          (!bucket_other.m_is_upper_closed))
      else none)

end CBucket

end BossOptimizer

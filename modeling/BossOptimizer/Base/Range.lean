import BossOptimizer.Lib.Cut

/-!
# Ranges of datums: `CRange` (CRange.cpp)

`CRange` is one range of a column's datums, with each end open, closed or infinite. The model
keeps the two optional ends and their inclusion flags and drops the type id, which every
function copies along; the comparator `m_pcomp` is the linear order of the datum type.

Every test of the source compares two ends by their datums first and their flags second.
`CRange.lo` and `CRange.hi` read the ends as cuts, and each test is characterised once as a
comparison of cuts; everything above works with cuts only.
-/

namespace BossOptimizer

/-- What a C++ run can die of instead of returning. -/
inductive Fault where
  | nullDeref
  | outOfBounds
  deriving DecidableEq, Repr

/-- `CRange::ERangeInclusion` (CRange.h:53). -/
inductive ERangeInclusion where
  | included
  | excluded
  deriving DecidableEq, Repr

/-- `CRange::EriInverseInclusion` (CRange.h:90). -/
def ERangeInclusion.inverse : ERangeInclusion → ERangeInclusion
  | .included => .excluded
  | .excluded => .included

/-- A range of datums; a missing end is infinite. -/
structure CRange (α : Type*) where
  pdatumLeft : Option α
  eriLeft : ERangeInclusion
  pdatumRight : Option α
  eriRight : ERangeInclusion
  deriving DecidableEq, Repr

/-- `IMDType::ECmpType`. -/
inductive ECmpType where
  | eq | neq | l | leq | g | geq | idf | other
  deriving DecidableEq, Repr

namespace CRange

variable {α : Type*}

/-- The constructor from one comparison (CRange.cpp:59). -/
def ofCmp (cmp : ECmpType) (datum : α) : CRange α :=
  match cmp with
  | .eq => ⟨some datum, .included, some datum, .included⟩
  | .l => ⟨none, .excluded, some datum, .excluded⟩
  | .leq => ⟨none, .excluded, some datum, .included⟩
  | .g => ⟨some datum, .excluded, none, .excluded⟩
  | .geq => ⟨some datum, .included, none, .excluded⟩
  | _ => ⟨none, .excluded, none, .excluded⟩

section Source

variable [LinearOrder α]

/-- `CRange::FDisjointLeft` (CRange.cpp:142). -/
def fDisjointLeft (this prange : CRange α) : Bool :=
  match this.pdatumRight, prange.pdatumLeft with
  | some right, some left =>
    if right < left then true
    else if right = left then this.eriRight = .excluded || prange.eriLeft = .excluded
    else false
  | _, _ => false

/-- `CRange::FStartsBefore` (CRange.cpp:306). Two ranges without a left end start before
    each other. -/
def fStartsBefore (this prange : CRange α) : Bool :=
  match prange.pdatumLeft, this.pdatumLeft with
  | none, left => left.isNone
  | some _, none => true
  | some other, some left =>
    if left < other then true
    else if other < left then false
    else this.eriLeft = .included && prange.eriLeft = .excluded

/-- `CRange::FStartsWithOrBefore` (CRange.cpp:276). -/
def fStartsWithOrBefore (this prange : CRange α) : Bool :=
  if this.fStartsBefore prange then true
  else match prange.pdatumLeft, this.pdatumLeft with
    | none, none => true
    | some other, some left => left = other && this.eriLeft = prange.eriLeft
    | _, _ => false

/-- `CRange::FEndsAfter` (CRange.cpp:339). Two ranges without a right end end after each
    other. -/
def fEndsAfter (this prange : CRange α) : Bool :=
  match prange.pdatumRight, this.pdatumRight with
  | none, right => right.isNone
  | some _, none => true
  | some other, some right =>
    if other < right then true
    else if right < other then false
    else this.eriRight = .included && prange.eriRight = .excluded

/-- `CRange::FEndsWithOrAfter` (CRange.cpp:373). -/
def fEndsWithOrAfter (this prange : CRange α) : Bool :=
  if this.fEndsAfter prange then true
  else match prange.pdatumRight, this.pdatumRight with
    | none, none => true
    | some other, some right => right = other && this.eriRight = prange.eriRight
    | _, _ => false

/-- `CRange::Contains` (CRange.cpp:178). -/
def contains (this prange : CRange α) : Bool :=
  this.fStartsWithOrBefore prange && this.fEndsWithOrAfter prange

/-- `CRange::FOverlapsLeft` (CRange.cpp:195). -/
def fOverlapsLeft (this prange : CRange α) : Bool :=
  this.fStartsBefore prange && !this.fEndsAfter prange && !this.fDisjointLeft prange

/-- `CRange::FOverlapsRight` (CRange.cpp:213). -/
def fOverlapsRight (this prange : CRange α) : Bool :=
  this.fEndsAfter prange && !this.fStartsBefore prange && !prange.fDisjointLeft this

/-- `CRange::PrngIntersect` (CRange.cpp:505). The overlap branches take a reference on the two
    ends they combine, so an infinite one is a null pointer dereference. -/
def prngIntersect (this prange : CRange α) : Except Fault (Option (CRange α)) :=
  if this.contains prange then .ok (some prange)
  else if prange.contains this then .ok (some this)
  else if this.fOverlapsLeft prange then
    match prange.pdatumLeft, this.pdatumRight with
    | some left, some right => .ok (some ⟨some left, prange.eriLeft, some right, this.eriRight⟩)
    | _, _ => .error .nullDeref
  else if this.fOverlapsRight prange then
    match this.pdatumLeft, prange.pdatumRight with
    | some left, some right => .ok (some ⟨some left, this.eriLeft, some right, prange.eriRight⟩)
    | _, _ => .error .nullDeref
  else .ok none

/-- `CRange::PrngDifferenceLeft` (CRange.cpp:562): what of this range lies left of the other. -/
def prngDifferenceLeft (this prange : CRange α) : Option (CRange α) :=
  if this.fDisjointLeft prange then some this
  else match prange.pdatumLeft with
    | some left =>
      if this.fStartsBefore prange then
        some ⟨this.pdatumLeft, this.eriLeft, some left, prange.eriLeft.inverse⟩
      else none
    | none => none

/-- `CRange::PrngDifferenceRight` (CRange.cpp:602): what of this range lies right of the
    other. -/
def prngDifferenceRight (this prange : CRange α) : Option (CRange α) :=
  if prange.fDisjointLeft this then some this
  else match prange.pdatumRight with
    | some right =>
      if this.fEndsAfter prange then
        some ⟨some right, prange.eriRight.inverse, this.pdatumRight, this.eriRight⟩
      else none
    | none => none

/-- `CRange::PrngExtend` (CRange.cpp:641). `m_pcomp->Equals` dereferences both ends. -/
def prngExtend (this prange : CRange α) : Except Fault (Option (CRange α)) :=
  if prange.eriLeft = .included || this.eriRight = .included then
    match prange.pdatumLeft, this.pdatumRight with
    | some left, some right =>
      if left = right then
        .ok (some ⟨this.pdatumLeft, this.eriLeft, prange.pdatumRight, prange.eriRight⟩)
      else .ok none
    | _, _ => .error .nullDeref
  else .ok none

end Source

/-! ## The ends as cuts -/

/-- The left end as a cut. -/
def lo (r : CRange α) : Cut α :=
  match r.pdatumLeft with
  | none => ⊥
  | some a => Cut.side a (r.eriLeft = .excluded)

/-- The right end as a cut. -/
def hi (r : CRange α) : Cut α :=
  match r.pdatumRight with
  | none => ⊤
  | some a => Cut.side a (r.eriRight = .included)

/-- The inverse inclusion of a left end closes a range exactly there. -/
theorem hi_of_left_inverse (r : CRange α) (l : Option α) (eL : ERangeInclusion) {a : α}
    (h : r.pdatumLeft = some a) :
    (⟨l, eL, some a, r.eriLeft.inverse⟩ : CRange α).hi = r.lo := by
  obtain ⟨_ | a, e, _, _⟩ := r <;> cases e <;> simp_all [lo, hi, ERangeInclusion.inverse]

theorem lo_of_right_inverse (r : CRange α) (l : Option α) (eR : ERangeInclusion) {a : α}
    (h : r.pdatumRight = some a) :
    (⟨some a, r.eriRight.inverse, l, eR⟩ : CRange α).lo = r.hi := by
  obtain ⟨_, _, _ | a, e⟩ := r <;> cases e <;> simp_all [lo, hi, ERangeInclusion.inverse]

theorem lo_of_left (r : CRange α) (b : Option α) (eR : ERangeInclusion) {a : Option α}
    (h : r.pdatumLeft = a) : (⟨a, r.eriLeft, b, eR⟩ : CRange α).lo = r.lo := by
  rw [← h]; rfl

theorem hi_of_right (r : CRange α) (a : Option α) (eL : ERangeInclusion) {b : Option α}
    (h : r.pdatumRight = b) : (⟨a, eL, b, r.eriRight⟩ : CRange α).hi = r.hi := by
  rw [← h]; rfl

theorem lo_eq_bot_iff (r : CRange α) : r.lo = ⊥ ↔ r.pdatumLeft = none := by
  obtain ⟨_ | a, eL, _, _⟩ := r <;> simp [lo, Cut.side]

theorem hi_eq_top_iff (r : CRange α) : r.hi = ⊤ ↔ r.pdatumRight = none := by
  obtain ⟨_, _, _ | b, eR⟩ := r <;> simp [hi, Cut.side]

variable [LinearOrder α]

/-- A range that is non-empty as written: its left end lies below its right end, or both are
    the same included datum. -/
def WellFormed (r : CRange α) : Prop := r.lo < r.hi

/-- The datums of a range. -/
def members (r : CRange α) : Set α := {a | Cut.before a ∈ Set.Ico r.lo r.hi}

instance (r : CRange α) : Decidable r.WellFormed := by unfold WellFormed; infer_instance

theorem wellFormed_iff (r : CRange α) : r.WellFormed ↔
    ∀ a b, r.pdatumLeft = some a → r.pdatumRight = some b →
      a < b ∨ a = b ∧ r.eriLeft = .included ∧ r.eriRight = .included := by
  obtain ⟨_ | a, eL, _ | b, eR⟩ := r <;> cases eL <;> simp [WellFormed, lo, hi]

/-- A datum is in a range when it is on the right side of both ends. -/
theorem mem_members (r : CRange α) (x : α) : x ∈ r.members ↔
    (∀ a, r.pdatumLeft = some a → a < x ∨ a = x ∧ r.eriLeft = .included) ∧
    (∀ b, r.pdatumRight = some b → x < b ∨ x = b ∧ r.eriRight = .included) := by
  obtain ⟨_ | a, eL, _ | b, eR⟩ := r <;> cases eL <;> simp [members, lo, hi]

/-! ## The tests as comparisons of cuts -/

theorem fDisjointLeft_iff (r s : CRange α) : r.fDisjointLeft s = true ↔ r.hi ≤ s.lo := by
  obtain ⟨_, _, _ | b, eR⟩ := r <;> obtain ⟨_ | a, eL, _, _⟩ := s <;>
    cases eR <;> cases eL <;> simp [fDisjointLeft, lo, hi]

/-- `FStartsBefore` is strict except between two left-infinite ranges. -/
theorem fStartsBefore_iff (r s : CRange α) :
    r.fStartsBefore s = true ↔ r.lo < s.lo ∨ r.lo = ⊥ ∧ s.lo = ⊥ := by
  obtain ⟨_ | b, eR, _, _⟩ := r <;> obtain ⟨_ | a, eL, _, _⟩ := s <;>
    cases eR <;> cases eL <;> simp [fStartsBefore, lo]
  all_goals grind

/-- `FEndsAfter` is strict except between two right-infinite ranges. -/
theorem fEndsAfter_iff (r s : CRange α) :
    r.fEndsAfter s = true ↔ s.hi < r.hi ∨ r.hi = ⊤ ∧ s.hi = ⊤ := by
  obtain ⟨_, _, _ | b, eR⟩ := r <;> obtain ⟨_, _, _ | a, eL⟩ := s <;>
    cases eR <;> cases eL <;> simp [fEndsAfter, hi]
  all_goals grind

theorem fStartsWithOrBefore_iff (r s : CRange α) :
    r.fStartsWithOrBefore s = true ↔ r.lo ≤ s.lo := by
  rw [fStartsWithOrBefore]
  split
  · next h => have := (fStartsBefore_iff r s).1 h; grind
  · next h =>
    have := mt (fStartsBefore_iff r s).2 h
    obtain ⟨_ | b, eR, _, _⟩ := r <;> obtain ⟨_ | a, eL, _, _⟩ := s <;>
      cases eR <;> cases eL <;> simp [lo] at this ⊢
    all_goals grind

theorem fEndsWithOrAfter_iff (r s : CRange α) :
    r.fEndsWithOrAfter s = true ↔ s.hi ≤ r.hi := by
  rw [fEndsWithOrAfter]
  split
  · next h => have := (fEndsAfter_iff r s).1 h; grind
  · next h =>
    have := mt (fEndsAfter_iff r s).2 h
    obtain ⟨_, _, _ | b, eR⟩ := r <;> obtain ⟨_, _, _ | a, eL⟩ := s <;>
      cases eR <;> cases eL <;> simp [hi] at this ⊢
    all_goals grind

theorem contains_iff (r s : CRange α) :
    r.contains s = true ↔ r.lo ≤ s.lo ∧ s.hi ≤ r.hi := by
  simp [contains, fStartsWithOrBefore_iff, fEndsWithOrAfter_iff]

/-! ## What the operations compute -/

/-- `o` is the range of the cuts from `l` to `h`, and NULL exactly when there are none. -/
def IsSegment (o : Option (CRange α)) (l h : Cut α) : Prop :=
  match o with
  | none => h ≤ l
  | some t => t.lo = l ∧ t.hi = h ∧ l < h

/-- What lies left of `s` is `[r.lo, min r.hi s.lo)`. -/
theorem prngDifferenceLeft_spec (r s : CRange α) (hr : r.WellFormed) :
    IsSegment (r.prngDifferenceLeft s) r.lo (min r.hi s.lo) := by
  unfold prngDifferenceLeft
  split
  · next h =>
    have := (fDisjointLeft_iff r s).1 h
    simp_all [IsSegment, WellFormed]
  · next h =>
    have h := mt (fDisjointLeft_iff r s).2 h
    split
    · next a ha =>
      have := fStartsBefore_iff r s
      have hbot := (lo_eq_bot_iff s).1
      split
      · next hb =>
        refine ⟨rfl, ?_, ?_⟩
        · rw [hi_of_left_inverse s _ _ ha]; grind
        · grind
      · simp only [IsSegment]; grind
    · next ha => simp [IsSegment, (lo_eq_bot_iff s).2 ha]

/-- What lies right of `s` is `[max r.lo s.hi, r.hi)`. -/
theorem prngDifferenceRight_spec (r s : CRange α) (hr : r.WellFormed) :
    IsSegment (r.prngDifferenceRight s) (max r.lo s.hi) r.hi := by
  unfold prngDifferenceRight
  split
  · next h =>
    have := (fDisjointLeft_iff s r).1 h
    simp_all [IsSegment, WellFormed]
  · next h =>
    have h := mt (fDisjointLeft_iff s r).2 h
    split
    · next a ha =>
      have := fEndsAfter_iff r s
      have htop := (hi_eq_top_iff s).1
      split
      · next hb =>
        refine ⟨?_, rfl, ?_⟩
        · rw [lo_of_right_inverse s _ _ ha]; grind
        · grind
      · simp only [IsSegment]; grind
    · next ha => simp [IsSegment, (hi_eq_top_iff s).2 ha]

/-- The intersection is `[max r.lo s.lo, min r.hi s.hi)`; the overlap branches never meet an
    infinite end. -/
theorem prngIntersect_spec (r s : CRange α) (hr : r.WellFormed) (hs : s.WellFormed) :
    ∃ o, r.prngIntersect s = .ok o ∧ IsSegment o (max r.lo s.lo) (min r.hi s.hi) := by
  have hrs := contains_iff r s
  have hsr := contains_iff s r
  have hbefore := fStartsBefore_iff r s
  have hafter := fEndsAfter_iff r s
  have hleft := fDisjointLeft_iff r s
  have hright := fDisjointLeft_iff s r
  unfold WellFormed at hr hs
  unfold prngIntersect
  split
  · exact ⟨some s, rfl, by simp only [IsSegment]; grind⟩
  split
  · exact ⟨some r, rfl, by simp only [IsSegment]; grind⟩
  split
  · next h =>
    -- only the left part of `s` is covered, so `s` has a left end and `r` a right one
    simp only [fOverlapsLeft, Bool.and_eq_true, Bool.not_eq_true'] at h
    have hsl : s.lo ≠ ⊥ := by grind
    have hrr : r.hi ≠ ⊤ := by grind
    obtain ⟨a, ha⟩ := Option.ne_none_iff_exists'.1 (mt (lo_eq_bot_iff s).2 hsl)
    obtain ⟨b, hb⟩ := Option.ne_none_iff_exists'.1 (mt (hi_eq_top_iff r).2 hrr)
    refine ⟨_, by rw [ha, hb], ?_⟩
    simp only [IsSegment, lo_of_left s _ _ ha, hi_of_right r _ _ hb]
    grind
  split
  · next h =>
    simp only [fOverlapsRight, Bool.and_eq_true, Bool.not_eq_true'] at h
    have hrl : r.lo ≠ ⊥ := by grind
    have hsr : s.hi ≠ ⊤ := by grind
    obtain ⟨a, ha⟩ := Option.ne_none_iff_exists'.1 (mt (lo_eq_bot_iff r).2 hrl)
    obtain ⟨b, hb⟩ := Option.ne_none_iff_exists'.1 (mt (hi_eq_top_iff s).2 hsr)
    refine ⟨_, by rw [ha, hb], ?_⟩
    simp only [IsSegment, lo_of_left r _ _ ha, hi_of_right s _ _ hb]
    grind
  · next hl hr' =>
    refine ⟨none, rfl, ?_⟩
    simp only [fOverlapsLeft, fOverlapsRight, Bool.and_eq_true, Bool.not_eq_true'] at hl hr'
    simp only [IsSegment]
    grind

/-- `PrngExtend` on a range that starts after this one ends never dereferences an infinite
    end, and joins the two only when nothing lies between them. -/
theorem prngExtend_spec (r s : CRange α) (hr : r.WellFormed) (hs : s.WellFormed)
    (h : r.hi ≤ s.lo) :
    ∃ o, r.prngExtend s = .ok o ∧ ∀ t ∈ o, t.lo = r.lo ∧ t.hi = s.hi ∧ r.hi = s.lo := by
  unfold WellFormed at hr hs
  have hsl : s.lo ≠ ⊥ := by rintro hs'; simp_all
  have hrr : r.hi ≠ ⊤ := by rintro hr'; simp_all
  obtain ⟨a, ha⟩ := Option.ne_none_iff_exists'.1 (mt (lo_eq_bot_iff s).2 hsl)
  obtain ⟨b, hb⟩ := Option.ne_none_iff_exists'.1 (mt (hi_eq_top_iff r).2 hrr)
  unfold prngExtend
  split
  · next hinc =>
    rw [ha, hb]
    by_cases hab : a = b
    · refine ⟨_, if_pos hab, ?_⟩
      rintro t ⟨⟩
      refine ⟨rfl, rfl, le_antisymm h ?_⟩
      simp only [lo, hi, ha, hb, hab] at h ⊢
      cases hr : r.eriRight <;> cases hs : s.eriLeft <;> simp_all
    · exact ⟨none, if_neg hab, by simp⟩
  · exact ⟨none, rfl, by simp⟩

end CRange

end BossOptimizer

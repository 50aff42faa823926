import BossOptimizer.Base.Range
import Mathlib.Order.Interval.Set.LinearOrder

/-!
# The interval algebra: `CConstraintInterval` (CConstraintInterval.cpp:1031-1435)

An interval constraint is a column, an array of ranges kept sorted and disjoint, and a flag
that says whether NULL is included. Intersection, union and difference walk the two range
arrays with one cursor each; difference also carries the part of a range that sticks out on
the right as a residual into the next round. The walks are modelled on the array suffixes the
cursors have not passed yet, with the array under construction as accumulator.

Each loop has one specification lemma: on ordered arrays it returns (no infinite end is ever
dereferenced) an ordered array that covers exactly the cuts it should.
-/

namespace BossOptimizer

/-- A column reference: its id, whether its type is constrainable (`CUtils::FConstrainableType`),
    and what nullability inference asks of it. -/
structure CColRef where
  id : ℕ
  fConstrainable : Bool
  fTable : Bool
  isNullable : Bool
  deriving DecidableEq, Repr

/-- `CConstraintInterval` (CConstraintInterval.h:43). -/
structure CConstraintInterval (α : Type) where
  pcr : CColRef
  pdrgprng : List (CRange α)
  fIncludesNull : Bool
  deriving DecidableEq, Repr

namespace CConstraintInterval

variable {α : Type} [LinearOrder α]

/-- `CConstraintInterval::FContradiction` (CConstraintInterval.cpp:77). -/
def fContradiction (this : CConstraintInterval α) : Bool :=
  !this.fIncludesNull && this.pdrgprng.length = 0

/-- `CConstraintInterval::IsConstraintUnbounded` (CConstraintInterval.cpp:92). -/
def isConstraintUnbounded (this : CConstraintInterval α) : Bool :=
  match this.pdrgprng with
  | [prange] => this.fIncludesNull && prange.pdatumLeft.isNone && prange.pdatumRight.isNone
  | _ => false

/-- `CConstraintInterval::PciUnbounded` (CConstraintInterval.cpp:1248): NULL on a column whose
    type cannot be constrained. -/
def pciUnbounded (colref : CColRef) (fIncludesNull : Bool) : Option (CConstraintInterval α) :=
  if colref.fConstrainable then
    some ⟨colref, [⟨none, .excluded, none, .excluded⟩], fIncludesNull⟩
  else none

/-- `CConstraintInterval::AppendOrExtend` (CConstraintInterval.cpp:1408). -/
def appendOrExtend (pdrgprng : List (CRange α)) :
    Option (CRange α) → Except Fault (List (CRange α))
  | none => .ok pdrgprng
  | some prange =>
    match pdrgprng.getLast? with
    | none => .ok [prange]
    | some prangeLast => do
      match ← prangeLast.prngExtend prange with
      | none => .ok (pdrgprng ++ [prange])
      | some prangeNew => .ok (pdrgprng.dropLast ++ [prangeNew])

/-- `CConstraintInterval::AddRemainingRanges` (CConstraintInterval.cpp:1385). -/
def addRemainingRanges (pdrgprngSrc : List (CRange α)) (pdrgprngDest : List (CRange α)) :
    Except Fault (List (CRange α)) :=
  match pdrgprngSrc with
  | [] => .ok pdrgprngDest
  | prange :: rest => do addRemainingRanges rest (← appendOrExtend pdrgprngDest (some prange))

/-- The loop of `PciIntersect` (CConstraintInterval.cpp:1057). -/
def intersectLoop (fst snd new : List (CRange α)) : Except Fault (List (CRange α)) :=
  match fst, snd with
  | this :: fst', other :: snd' =>
    if other.fEndsAfter this then do
      intersectLoop fst' (other :: snd') (new ++ (← this.prngIntersect other).toList)
    else do
      intersectLoop (this :: fst') snd' (new ++ (← other.prngIntersect this).toList)
  | _, _ => .ok new
termination_by fst.length + snd.length

/-- `CConstraintInterval::PciIntersect` (CConstraintInterval.cpp:1044). -/
def pciIntersect (this pci : CConstraintInterval α) : Except Fault (CConstraintInterval α) := do
  let new ← intersectLoop this.pdrgprng pci.pdrgprng []
  return ⟨this.pcr, new, this.fIncludesNull && pci.fIncludesNull⟩

/-- The loop of `PciUnion` (CConstraintInterval.cpp:1109), then the two remainders, one of
    which is empty. -/
def unionLoop (fst snd new : List (CRange α)) : Except Fault (List (CRange α)) :=
  match fst, snd with
  | this :: fst', other :: snd' =>
    if other.fEndsAfter this then do
      unionLoop fst' (other :: snd') (← appendOrExtend new (this.prngDifferenceLeft other))
    else do
      unionLoop (this :: fst') snd' (← appendOrExtend new (other.prngDifferenceLeft this))
  | fst, snd => do addRemainingRanges snd (← addRemainingRanges fst new)
termination_by fst.length + snd.length

/-- `CConstraintInterval::PciUnion` (CConstraintInterval.cpp:1096). -/
def pciUnion (this pci : CConstraintInterval α) : Except Fault (CConstraintInterval α) := do
  let new ← unionLoop this.pdrgprng pci.pdrgprng []
  return ⟨this.pcr, new, this.fIncludesNull || pci.fIncludesNull⟩

/-- `CConstraintInterval::PrangeDiffWithRightResidual` (CConstraintInterval.cpp:1344): the
    difference on the left, and the residual on the right. -/
def prangeDiffWithRightResidual (prangeFirst prangeSecond : CRange α) :
    Option (CRange α) × Option (CRange α) :=
  if prangeSecond.fDisjointLeft prangeFirst then (none, none)
  else
    (if prangeFirst.contains prangeSecond then prangeFirst.prngDifferenceLeft prangeSecond
      else none,
     prangeFirst.prngDifferenceRight prangeSecond)

/-- The loop of `PciDifference` (CConstraintInterval.cpp:1163), then the residual and the rest
    of the first array. A residual stands in for the range under the first cursor. -/
def differenceLoop (residual : Option (CRange α)) (fst snd new : List (CRange α)) :
    Except Fault (List (CRange α)) :=
  match fst, snd with
  | first :: fst', other :: snd' =>
    let this := residual.getD first
    if other.fEndsWithOrAfter this then do
      differenceLoop none fst' (other :: snd')
        (← appendOrExtend new (this.prngDifferenceLeft other))
    else do
      let (prangeNew, residual') := prangeDiffWithRightResidual this other
      differenceLoop residual' (first :: fst') snd' (← appendOrExtend new prangeNew)
  | fst, _ => do
    let rest := if residual.isSome then fst.tail else fst
    addRemainingRanges rest (← appendOrExtend new residual)
termination_by fst.length + snd.length

/-- `CConstraintInterval::PciDifference` (CConstraintInterval.cpp:1149). -/
def pciDifference (this pci : CConstraintInterval α) : Except Fault (CConstraintInterval α) := do
  let new ← differenceLoop none this.pdrgprng pci.pdrgprng []
  return ⟨this.pcr, new, this.fIncludesNull && !pci.fIncludesNull⟩

/-- `CConstraintInterval::PciComplement` (CConstraintInterval.cpp:1319): on a column without an
    unbounded interval the universal interval is a null pointer. -/
def pciComplement (this : CConstraintInterval α) : Except Fault (CConstraintInterval α) :=
  match pciUnbounded this.pcr true with
  | none => .error .nullDeref
  | some pciUniversal => pciUniversal.pciDifference this

/-- `CConstraintInterval::FContainsInterval` (CConstraintInterval.cpp:1213). -/
def fContainsInterval (this pci : CConstraintInterval α) : Except Fault Bool :=
  if this.isConstraintUnbounded then .ok true
  else if pci.isConstraintUnbounded || (!this.fIncludesNull && pci.fIncludesNull) then .ok false
  else do return (← pci.pciDifference this).fContradiction

/-! ## Range arrays as sets of cuts -/

/-- Every range is non-empty as written, and each ends before the next starts. -/
def Ordered (rs : List (CRange α)) : Prop :=
  (∀ r ∈ rs, r.WellFormed) ∧ rs.Pairwise fun r s => r.hi ≤ s.lo

/-- The cuts that some range of the array covers. -/
def cover (rs : List (CRange α)) : Set (Cut α) := {c | ∃ r ∈ rs, c ∈ Set.Ico r.lo r.hi}

@[simp] theorem cover_nil : cover ([] : List (CRange α)) = ∅ := by simp [cover]

@[simp] theorem cover_cons (r : CRange α) (rs : List (CRange α)) :
    cover (r :: rs) = Set.Ico r.lo r.hi ∪ cover rs := by
  ext c; simp [cover]

@[simp] theorem cover_append (rs ss : List (CRange α)) :
    cover (rs ++ ss) = cover rs ∪ cover ss := by
  ext c; simp [cover, or_and_right, exists_or]

@[simp] theorem ordered_nil : Ordered ([] : List (CRange α)) := by simp [Ordered]

theorem ordered_cons {r : CRange α} {rs : List (CRange α)} :
    Ordered (r :: rs) ↔ r.WellFormed ∧ (∀ s ∈ rs, r.hi ≤ s.lo) ∧ Ordered rs := by
  simp only [Ordered, List.mem_cons, forall_eq_or_imp, List.pairwise_cons]
  tauto

theorem ordered_append {rs ss : List (CRange α)} :
    Ordered (rs ++ ss) ↔ Ordered rs ∧ Ordered ss ∧ ∀ r ∈ rs, ∀ s ∈ ss, r.hi ≤ s.lo := by
  simp only [Ordered, List.mem_append, or_imp, forall_and, List.pairwise_append]
  tauto

theorem lo_le_of_mem {r : CRange α} {rs : List (CRange α)} (h : Ordered (r :: rs)) :
    ∀ s ∈ r :: rs, r.lo ≤ s.lo := by
  obtain ⟨hr, hle, -⟩ := ordered_cons.1 h
  intro s hs
  rcases List.mem_cons.1 hs with rfl | hs
  · exact le_rfl
  · exact (le_of_lt hr).trans (hle s hs)

/-- Past the right end of the first range only the others cover anything. -/
theorem lo_le_of_mem_cover {rs : List (CRange α)} {c l : Cut α} (hl : ∀ r ∈ rs, l ≤ r.lo)
    (hc : c ∈ cover rs) : l ≤ c := by
  obtain ⟨r, hr, hrc, -⟩ := hc
  exact (hl r hr).trans hrc

/-- Appending a segment that starts where the array may end never dereferences an infinite
    end, and covers what the array and the segment cover, whether or not the last range is
    extended. -/
theorem appendOrExtend_spec {rs : List (CRange α)} {o : Option (CRange α)} {l h : Cut α}
    (hrs : Ordered rs) (ho : CRange.IsSegment o l h) (hl : l < h → ∀ r ∈ rs, r.hi ≤ l) :
    ∃ out, appendOrExtend rs o = .ok out ∧ Ordered out ∧ cover out = cover rs ∪ Set.Ico l h ∧
      ∀ b, h ≤ b → (∀ r ∈ rs, r.hi ≤ b) → ∀ r ∈ out, r.hi ≤ b := by
  cases o with
  | none =>
    have hle : h ≤ l := ho
    exact ⟨rs, rfl, hrs, by simp [Set.Ico_eq_empty_of_le hle], fun _ _ hb => hb⟩
  | some p =>
    obtain ⟨rfl, rfl, hp⟩ := ho
    replace hl := hl hp
    rcases List.eq_nil_or_concat rs with rfl | ⟨init, last, rfl⟩
    · exact ⟨[p], rfl, by simp [ordered_cons, CRange.WellFormed, hp], by simp, by simp⟩
    rw [List.concat_eq_append] at hrs hl ⊢
    obtain ⟨hinit, hlast, hsep⟩ := ordered_append.1 hrs
    have hlast : last.WellFormed := (ordered_cons.1 hlast).1
    obtain ⟨o, ho, hspec⟩ := CRange.prngExtend_spec last p hlast hp (hl last (by simp))
    simp only [appendOrExtend, List.getLast?_append, List.getLast?_singleton, Option.some_or, ho,
      List.dropLast_concat]
    cases o with
    | none =>
      refine ⟨_, rfl, ?_, by simp [Set.union_assoc], fun b hpb hb r hr => ?_⟩
      · rw [ordered_append]
        exact ⟨hrs, by simp [ordered_cons, CRange.WellFormed, hp], by simpa using hl⟩
      · simp only [List.mem_append, List.mem_singleton] at hr hb
        grind
    | some t =>
      obtain ⟨htl, hth, hjoin⟩ := hspec t rfl
      have hle : last.lo < last.hi := hlast
      refine ⟨_, rfl, ?_, ?_, fun b hpb hb r hr => ?_⟩
      · rw [ordered_append]
        refine ⟨hinit, ?_, by simpa [htl] using hsep⟩
        simp only [ordered_cons, CRange.WellFormed, htl, hth]
        exact ⟨by grind, by simp, ordered_nil⟩
      · have hjoin' : Set.Ico last.lo last.hi ∪ Set.Ico p.lo p.hi = Set.Ico t.lo t.hi := by
          rw [htl, hth, hjoin, Set.Ico_union_Ico_eq_Ico (hjoin ▸ hle.le) hp.le]
        simp [← hjoin', Set.union_assoc]
      · simp only [List.mem_append, List.mem_singleton] at hr hb
        grind

theorem addRemainingRanges_spec {src dest : List (CRange α)} (hsrc : Ordered src)
    (hdest : Ordered dest) (hsep : ∀ r ∈ dest, ∀ s ∈ src, r.hi ≤ s.lo) :
    ∃ out, addRemainingRanges src dest = .ok out ∧ Ordered out ∧
      cover out = cover dest ∪ cover src := by
  induction src generalizing dest with
  | nil => exact ⟨dest, rfl, hdest, by simp⟩
  | cons p rest ih =>
    obtain ⟨hp, hprest, hrest⟩ := ordered_cons.1 hsrc
    obtain ⟨mid, hmid, hord, hcov, hends⟩ := appendOrExtend_spec (o := some p) hdest
      ⟨rfl, rfl, hp⟩ fun _ r hr => hsep r hr p (by simp)
    obtain ⟨out, hout, hord', hcov'⟩ := ih hrest hord fun r hr s hs =>
      hends s.lo (hprest s hs) (fun r hr => hsep r hr s (by simp [hs])) r hr
    refine ⟨out, ?_, hord', ?_⟩
    · simp only [addRemainingRanges, hmid]
      exact hout
    · rw [hcov', hcov, cover_cons, Set.union_assoc]

/-! ## The loops -/

/-- Plain `Append` of a segment that starts where the array may end. -/
theorem append_spec {rs : List (CRange α)} {o : Option (CRange α)} {l h : Cut α}
    (hrs : Ordered rs) (ho : CRange.IsSegment o l h) (hl : l < h → ∀ r ∈ rs, r.hi ≤ l) :
    Ordered (rs ++ o.toList) ∧ cover (rs ++ o.toList) = cover rs ∪ Set.Ico l h ∧
      ∀ r ∈ rs ++ o.toList, r ∈ rs ∨ r.hi = h := by
  cases o with
  | none =>
    have hle : h ≤ l := ho
    simp [hrs, Set.Ico_eq_empty_of_le hle]
    tauto
  | some p =>
    obtain ⟨rfl, rfl, hp⟩ := ho
    refine ⟨?_, by simp, by simp +contextual [or_imp]⟩
    rw [ordered_append]
    exact ⟨hrs, by simp [ordered_cons, CRange.WellFormed, hp], by simpa using hl hp⟩

/-- What was appended ended with a range that one of the cursors has passed, so it ends before
    the later of the two remainders starts. -/
theorem intersectLoop_spec (fst snd new : List (CRange α)) (hfst : Ordered fst)
    (hsnd : Ordered snd) (hnew : Ordered new)
    (hsep : ∀ a ∈ new, ∀ r ∈ fst, ∀ s ∈ snd, a.hi ≤ max r.lo s.lo) :
    ∃ out, intersectLoop fst snd new = .ok out ∧ Ordered out ∧
      cover out = cover new ∪ (cover fst ∩ cover snd) := by
  induction fst, snd, new using intersectLoop.induct with
  | case1 new this fst other snd h ih =>
    obtain ⟨hthis, hthisLe, hfst'⟩ := ordered_cons.1 hfst
    obtain ⟨hother, hotherLe, -⟩ := ordered_cons.1 hsnd
    have hends := (CRange.fEndsAfter_iff other this).1 h
    obtain ⟨o, ho, hseg⟩ := CRange.prngIntersect_spec this other hthis hother
    obtain ⟨hord, hcov, hmem⟩ := append_spec hnew hseg fun _ a ha =>
      hsep a ha this (by simp) other (by simp)
    obtain ⟨out, hout, hord', hcov'⟩ := ih o hfst' hsnd hord fun a ha r hr s hs => by
      have := hthisLe r hr
      have := hsep a
      simp only [List.mem_cons] at this hs
      grind
    refine ⟨out, ?_, hord', ?_⟩
    · rw [intersectLoop, if_pos h, ho]
      exact hout
    · rw [hcov', hcov]
      ext c
      have := fun hc => lo_le_of_mem_cover (c := c) hotherLe hc
      simp only [cover_cons, Set.mem_union, Set.mem_inter_iff, Set.mem_Ico]
      grind
  | case2 new this fst other snd h ih => 
    obtain ⟨hthis, hthisLe, -⟩ := ordered_cons.1 hfst
    obtain ⟨hother, hotherLe, hsnd'⟩ := ordered_cons.1 hsnd
    have hends := mt (CRange.fEndsAfter_iff other this).2 h
    obtain ⟨o, ho, hseg⟩ := CRange.prngIntersect_spec other this hother hthis
    obtain ⟨hord, hcov, hmem⟩ := append_spec hnew hseg fun _ a ha => by
      have := hsep a ha this (by simp) other (by simp)
      grind
    obtain ⟨out, hout, hord', hcov'⟩ := ih o hfst hsnd' hord fun a ha r hr s hs => by
      have := hotherLe s hs
      have := hsep a
      simp only [List.mem_cons] at this hr
      grind
    refine ⟨out, ?_, hord', ?_⟩
    · rw [intersectLoop, if_neg h, ho]
      exact hout
    · rw [hcov', hcov]
      ext c
      have := fun hc => lo_le_of_mem_cover (c := c) hthisLe hc
      simp only [cover_cons, Set.mem_union, Set.mem_inter_iff, Set.mem_Ico]
      grind
  | case3 fst snd new h =>
    refine ⟨new, ?_, hnew, ?_⟩
    · rw [intersectLoop]
      exact fun this fst' other snd' h1 h2 => h this fst' other snd' h1 h2
    · rcases fst with _ | ⟨r, fst⟩
      · simp
      · rcases snd with _ | ⟨s, snd⟩
        · simp
        · exact absurd rfl (h r fst s snd rfl)

/-- The part of the passed range that is not appended lies in the other array's current range,
    which still is in its remainder. -/
theorem unionLoop_spec (fst snd new : List (CRange α)) (hfst : Ordered fst)
    (hsnd : Ordered snd) (hnew : Ordered new)
    (hsepFst : ∀ a ∈ new, ∀ r ∈ fst, a.hi ≤ r.lo) (hsepSnd : ∀ a ∈ new, ∀ s ∈ snd, a.hi ≤ s.lo) :
    ∃ out, unionLoop fst snd new = .ok out ∧ Ordered out ∧
      cover out = cover new ∪ (cover fst ∪ cover snd) := by
  induction fst, snd, new using unionLoop.induct with
  | case1 new this fst other snd h ih =>
    obtain ⟨hthis, hthisLe, hfst'⟩ := ordered_cons.1 hfst
    have hends : this.hi ≤ other.hi := by have := (CRange.fEndsAfter_iff other this).1 h; grind
    obtain ⟨mid, hmid, hord, hcov, hle⟩ := appendOrExtend_spec hnew
      (CRange.prngDifferenceLeft_spec this other hthis) fun _ a ha => hsepFst a ha this (by simp)
    obtain ⟨out, hout, hord', hcov'⟩ := ih mid hfst' hsnd hord
      (fun a ha r hr => hle r.lo (inf_le_of_left_le (hthisLe r hr))
        (fun a ha => hsepFst a ha r (by simp [hr])) a ha)
      (fun a ha s hs => hle s.lo (inf_le_of_right_le (lo_le_of_mem hsnd s hs))
        (fun a ha => hsepSnd a ha s hs) a ha)
    refine ⟨out, ?_, hord', ?_⟩
    · rw [unionLoop, if_pos h, hmid]
      exact hout
    · have := Cut.Ico_min_union_Ico (a := this.lo) (d := other.lo) hends
      rw [hcov', hcov, cover_cons, cover_cons]
      grind
  | case2 new this fst other snd h ih =>
    obtain ⟨hother, hotherLe, hsnd'⟩ := ordered_cons.1 hsnd
    have hends : other.hi ≤ this.hi := by
      have := mt (CRange.fEndsAfter_iff other this).2 h; grind
    obtain ⟨mid, hmid, hord, hcov, hle⟩ := appendOrExtend_spec hnew
      (CRange.prngDifferenceLeft_spec other this hother) fun _ a ha => hsepSnd a ha other (by simp)
    obtain ⟨out, hout, hord', hcov'⟩ := ih mid hfst hsnd' hord
      (fun a ha r hr => hle r.lo (inf_le_of_right_le (lo_le_of_mem hfst r hr))
        (fun a ha => hsepFst a ha r hr) a ha)
      (fun a ha s hs => hle s.lo (inf_le_of_left_le (hotherLe s hs))
        (fun a ha => hsepSnd a ha s (by simp [hs])) a ha)
    refine ⟨out, ?_, hord', ?_⟩
    · rw [unionLoop, if_neg h, hmid]
      exact hout
    · have := Cut.Ico_min_union_Ico (a := other.lo) (d := this.lo) hends
      rw [hcov', hcov, cover_cons, cover_cons]
      grind
  | case3 fst snd new h =>
    obtain ⟨mid, hmid, hord, hcov⟩ := addRemainingRanges_spec hfst hnew hsepFst
    -- one of the two remainders is empty
    have hempty : fst = [] ∨ snd = [] := by
      rcases fst with _ | ⟨r, fst⟩
      · exact .inl rfl
      · rcases snd with _ | ⟨s, snd⟩
        · exact .inr rfl
        · exact absurd rfl (h r fst s snd rfl)
    obtain ⟨out, hout, hord', hcov'⟩ := addRemainingRanges_spec hsnd hord (by
      rcases hempty with rfl | rfl
      · cases hmid
        exact hsepSnd
      · simp)
    refine ⟨out, ?_, hord', by rw [hcov', hcov, Set.union_assoc]⟩
    rw [unionLoop, hmid]
    · exact hout
    · exact fun this fst' other snd' h1 h2 => h this fst' other snd' h1 h2

/-- The ranges still to be subtracted from: a residual replaces the range it is left of. -/
def pending (residual : Option (CRange α)) (fst : List (CRange α)) : List (CRange α) :=
  match residual with
  | none => fst
  | some r => r :: fst.tail

theorem prangeDiffWithRightResidual_spec {this other : CRange α} (hthis : this.WellFormed)
    (hother : other.WellFormed) (hends : other.hi < this.hi) :
    CRange.IsSegment (prangeDiffWithRightResidual this other).1 this.lo (min this.hi other.lo) ∧
      match (prangeDiffWithRightResidual this other).2 with
      | none => other.hi ≤ this.lo
      | some t => this.lo < other.hi ∧ t.lo = other.hi ∧ t.hi = this.hi := by
  have hleft := CRange.prngDifferenceLeft_spec this other hthis
  have hright := CRange.prngDifferenceRight_spec this other hthis
  have hdisj := CRange.fDisjointLeft_iff other this
  have hcont := CRange.contains_iff this other
  unfold CRange.WellFormed at hthis hother
  unfold prangeDiffWithRightResidual
  split
  · next h => exact ⟨by simp only [CRange.IsSegment]; grind, hdisj.1 h⟩
  · next h =>
    have h := not_le.1 (mt hdisj.2 h)
    rw [max_eq_right h.le] at hright
    refine ⟨?_, ?_⟩
    · dsimp only
      split
      · exact hleft
      · simp only [CRange.IsSegment]; grind
    · cases ho : this.prngDifferenceRight other with
      | none => rw [ho] at hright; exact absurd hends (not_lt.2 hright)
      | some t =>
        rw [ho] at hright
        exact ⟨h, hright.1, hright.2.1⟩

/-- A residual starts at the end of a range of the second array that has been passed, so no
    remaining range of that array lies left of it: the branch of
    `prangeDiffWithRightResidual` that would forget the residual is not reached with one. -/
theorem differenceLoop_spec (residual : Option (CRange α)) (fst snd new : List (CRange α))
    (hres : residual.isSome → fst ≠ []) (hpend : Ordered (pending residual fst))
    (hsnd : Ordered snd) (hnew : Ordered new)
    (hsep : ∀ a ∈ new, ∀ r ∈ pending residual fst, a.hi ≤ r.lo)
    (hstart : ∀ r ∈ residual, ∀ s ∈ snd, r.lo ≤ s.lo) :
    ∃ out, differenceLoop residual fst snd new = .ok out ∧ Ordered out ∧
      cover out = cover new ∪ (cover (pending residual fst) \ cover snd) := by
  induction residual, fst, snd, new using differenceLoop.induct with
  | case1 residual new first fst other snd this h ih =>
    have hp : pending residual (first :: fst) = this :: fst := by cases residual <;> rfl
    rw [hp] at hpend hsep ⊢
    obtain ⟨hthis, hthisLe, hfst'⟩ := ordered_cons.1 hpend
    obtain ⟨hother, hotherLe, -⟩ := ordered_cons.1 hsnd
    have hends := (CRange.fEndsWithOrAfter_iff other this).1 h
    obtain ⟨mid, hmid, hord, hcov, hle⟩ := appendOrExtend_spec hnew
      (CRange.prngDifferenceLeft_spec this other hthis) fun _ a ha => hsep a ha this (by simp)
    obtain ⟨out, hout, hord', hcov'⟩ := ih mid (by simp) hfst' hsnd hord
      (fun a ha r hr => hle r.lo (inf_le_of_left_le (hthisLe r hr))
        (fun a ha => hsep a ha r (List.mem_cons_of_mem _ hr)) a ha) (by simp)
    refine ⟨out, ?_, hord', ?_⟩
    · rw [differenceLoop, if_pos h, hmid]
      exact hout
    · rw [hcov', hcov, cover_cons this, cover_cons other, ← Cut.diff_step_left hother hends
        fun c hc => lo_le_of_mem_cover hotherLe hc, Set.union_assoc]
      rfl
  | case2 residual new first fst other snd this h prangeNew residual' hdiff ih =>
    have hp : pending residual (first :: fst) = this :: fst := by cases residual <;> rfl
    rw [hp] at hpend hsep ⊢
    obtain ⟨hthis, hthisLe, hfst'⟩ := ordered_cons.1 hpend
    obtain ⟨hother, hotherLe, hsnd'⟩ := ordered_cons.1 hsnd
    have hends := not_le.1 (mt (CRange.fEndsWithOrAfter_iff other this).2 h)
    obtain ⟨hseg, hres'⟩ := prangeDiffWithRightResidual_spec hthis hother hends
    rw [hdiff] at hseg hres'
    obtain ⟨mid, hmid, hord, hcov, hle⟩ := appendOrExtend_spec hnew hseg
      fun _ a ha => hsep a ha this (by simp)
    have hrun : differenceLoop residual (first :: fst) (other :: snd) new =
        differenceLoop residual' (first :: fst) snd mid := by
      rw [differenceLoop, if_neg h, hdiff]
      simp only [hmid]
      rfl
    -- the pending ranges: what of `this` lies right of `other`, and the later ones
    have hpend' : ∃ r, pending residual' (first :: fst) = r :: fst ∧
        r.lo = max this.lo other.hi ∧ r.hi = this.hi := by
      cases residual' with
      | some t => exact ⟨t, rfl, by rw [hres'.2.1, max_eq_right hres'.1.le], hres'.2.2⟩
      | none =>
        cases residual with
        | none => exact ⟨first, rfl, (max_eq_left hres').symm, rfl⟩
        | some r =>
          have := hstart r rfl other (by simp)
          exact absurd (this.trans_lt hother) (not_lt.2 hres')
    obtain ⟨r, hr, hrlo, hrhi⟩ := hpend'
    have hrwf : r.WellFormed := by
      rw [CRange.WellFormed, hrlo, hrhi]
      exact max_lt hthis hends
    obtain ⟨out, hout, hord', hcov'⟩ := ih mid (by simp)
      (by rw [hr, ordered_cons, hrhi]; exact ⟨hrwf, hthisLe, hfst'⟩) hsnd' hord
      (fun a ha s hs => by
        rw [hr] at hs
        have hrs : max this.lo other.hi ≤ s.lo := by
          rw [← hrlo]
          exact lo_le_of_mem (ordered_cons.2 ⟨hrwf, by rwa [hrhi], hfst'⟩) s hs
        refine hle s.lo (inf_le_of_right_le (hother.le.trans ((le_max_right _ _).trans hrs)))
          (fun a ha => (hsep a ha this (by simp)).trans ((le_max_left _ _).trans hrs)) a ha)
      (fun t ht s hs => by
        cases ht
        rw [hres'.2.1]
        exact hotherLe s hs)
    refine ⟨out, by rw [hrun, hout], hord', ?_⟩
    rw [hcov', hcov, hr, cover_cons, cover_cons, cover_cons, hrlo, hrhi,
      ← Cut.diff_step_right hother (fun c hc => lo_le_of_mem_cover hotherLe hc)
        (fun c hc => lo_le_of_mem_cover (fun s hs => hends.le.trans (hthisLe s hs)) hc),
      Set.union_assoc]
  | case3 residual fst snd new h =>
    have hrun : differenceLoop residual fst snd new = (do
        addRemainingRanges (if residual.isSome then fst.tail else fst)
          (← appendOrExtend new residual)) := by
      rw [differenceLoop]
      exact fun first fst' other snd' h1 h2 => h first fst' other snd' h1 h2
    have hsnd' : cover (pending residual fst) \ cover snd = cover (pending residual fst) := by
      rcases fst with _ | ⟨r, fst⟩
      · cases residual with
        | none => simp [pending]
        | some r => simp at hres
      · rcases snd with _ | ⟨s, snd⟩
        · simp
        · exact absurd rfl (h r fst s snd rfl)
    rw [hrun, hsnd']
    cases residual with
    | none => exact addRemainingRanges_spec hpend hnew hsep
    | some r =>
      obtain ⟨hr, hrLe, hfst⟩ := ordered_cons.1 hpend
      obtain ⟨mid, hmid, hord, hcov, hle⟩ := appendOrExtend_spec (o := some r) hnew ⟨rfl, rfl, hr⟩
        fun _ a ha => hsep a ha r (by simp [pending])
      obtain ⟨out, hout, hord', hcov'⟩ := addRemainingRanges_spec hfst hord
        fun a ha s hs => hle s.lo (hrLe s hs)
          (fun a ha => hsep a ha s (List.mem_cons_of_mem _ hs)) a ha
      rw [hmid]
      refine ⟨out, hout, hord', ?_⟩
      rw [hcov', hcov, pending, cover_cons, Set.union_assoc]

end CConstraintInterval

end BossOptimizer

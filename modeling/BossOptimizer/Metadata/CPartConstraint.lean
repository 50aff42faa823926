import BossOptimizer.Base.Range
import BossOptimizer.Lib.Except
import Mathlib.Data.Finset.Insert

/-!
# Part constraints: `CPartConstraint` (CPartConstraint.cpp)

A part constraint says which leaf partitions of a multi-level partitioned table are meant: one
constraint for each level, a flag for each level that the default partition is included, and a flag
that everything is. Constraints of one level are taken as they come, with an exact comparison,
conjunction, disjunction and negation. Uninterpreted part constraints, which no function but
`FEquivalent` accepts, and the part keys are left out.
-/

namespace BossOptimizer

/-- The constraints of one level (`CConstraint`), with the values that satisfy them. -/
structure LevelConstraints (C V : Type) where
  sat : C → V → Prop
  IsConstraintUnbounded : C → Bool
  FContradiction : C → Bool
  Equals : C → C → Bool
  Contains : C → C → Bool
  PcnstrConjunction : C → C → C
  PcnstrDisjunction : C → C → C
  CConstraintNegation : C → C
  unbounded : ∀ c, IsConstraintUnbounded c = true → ∀ v, sat c v
  contradiction : ∀ c, FContradiction c = true ↔ ∀ v, ¬sat c v
  equals : ∀ c d, Equals c d = true ↔ ∀ v, sat c v ↔ sat d v
  contains : ∀ c d, Contains c d = true ↔ ∀ v, sat d v → sat c v
  conjunction : ∀ c d v, sat (PcnstrConjunction c d) v ↔ sat c v ∧ sat d v
  disjunction : ∀ c d v, sat (PcnstrDisjunction c d) v ↔ sat c v ∨ sat d v
  negation : ∀ c v, sat (CConstraintNegation c) v ↔ ¬sat c v

/-- `UlongToConstraintMap`: the keys are inserted once each. -/
abbrev UlongToConstraintMap (C : Type) : Type := List (ℕ × C)

namespace UlongToConstraintMap

variable {C : Type}

def Find (this : UlongToConstraintMap C) (ul : ℕ) : Option C :=
  (this.find? (·.1 = ul)).map (·.2)

def Insert (this : UlongToConstraintMap C) (ul : ℕ) (pcnstr : C) : UlongToConstraintMap C :=
  if (this.Find ul).isSome then this else this ++ [(ul, pcnstr)]

end UlongToConstraintMap

/-- `CPartConstraint`, interpreted. -/
structure CPartConstraint (C : Type) where
  m_phmulcnstr : UlongToConstraintMap C
  m_pbsDefaultParts : Finset ℕ
  m_num_of_part_levels : ℕ
  m_is_unbounded : Bool
  levels_pos : 0 < m_num_of_part_levels

namespace CPartConstraint

variable {C V : Type} (level : LevelConstraints C V)

def IsConstraintUnbounded (this : CPartConstraint C) : Bool := this.m_is_unbounded

/-- `IsDefaultPartition` (CPartConstraint.h:134). -/
def IsDefaultPartition (this : CPartConstraint C) (ulLevel : ℕ) : Bool :=
  ulLevel ∈ this.m_pbsDefaultParts

/-- `Pcnstr` (CPartConstraint.cpp:272). -/
def Pcnstr (this : CPartConstraint C) (ulLevel : ℕ) : Option C := this.m_phmulcnstr.Find ulLevel

/-- One round of `FEqualConstrMaps` (CPartConstraint.cpp:242). -/
def fEqualLevel (pcnstrFst pcnstrSnd : Option C) : Bool :=
  match pcnstrFst, pcnstrSnd with
  | some pcnstrFst, some pcnstrSnd => level.Equals pcnstrFst pcnstrSnd
  | none, none => true
  | _, _ => false

/-- `FEqualConstrMaps` (CPartConstraint.cpp:233). -/
def FEqualConstrMaps (phmulcnstrFst phmulcnstrSnd : UlongToConstraintMap C) (ulLevels : ℕ) : Bool :=
  phmulcnstrFst.length = phmulcnstrSnd.length &&
    (List.range ulLevels).all fun ul =>
      fEqualLevel level (phmulcnstrFst.Find ul) (phmulcnstrSnd.Find ul)

/-- The comparison of `FEquivalent` level by level (CPartConstraint.cpp:219). -/
def fSameLevels (this ppartcnstr : CPartConstraint C) : Bool :=
  this.m_num_of_part_levels = ppartcnstr.m_num_of_part_levels &&
    this.m_pbsDefaultParts = ppartcnstr.m_pbsDefaultParts &&
    FEqualConstrMaps level this.m_phmulcnstr ppartcnstr.m_phmulcnstr this.m_num_of_part_levels

/-- `FEquivalent` (CPartConstraint.cpp:204). -/
def FEquivalent (this ppartcnstr : CPartConstraint C) : Bool :=
  if this.IsConstraintUnbounded then ppartcnstr.IsConstraintUnbounded
  else this.fSameLevels level ppartcnstr

/-- `FOverlapLevel` (CPartConstraint.cpp:289). -/
def FOverlapLevel (this ppartcnstr : CPartConstraint C) (ulLevel : ℕ) : Except Fault Bool :=
  match this.Pcnstr ulLevel, ppartcnstr.Pcnstr ulLevel with
  | some pcnstrCurrent, some pcnstrOther =>
    .ok (!level.FContradiction (level.PcnstrConjunction pcnstrCurrent pcnstrOther) ||
      (this.IsDefaultPartition ulLevel && ppartcnstr.IsDefaultPartition ulLevel))
  | _, _ => .error .nullDeref

/-- The loop of `FOverlap` (CPartConstraint.cpp:341). -/
def overlapLoop (this ppartcnstr : CPartConstraint C) : List ℕ → Except Fault Bool
  | [] => .ok true
  | ul :: levels => do
    if ← this.FOverlapLevel level ppartcnstr ul then overlapLoop this ppartcnstr levels
    else return false

/-- `FOverlap` (CPartConstraint.cpp:329). -/
def FOverlap (this ppartcnstr : CPartConstraint C) : Except Fault Bool :=
  if this.IsConstraintUnbounded || ppartcnstr.IsConstraintUnbounded then .ok true
  else this.overlapLoop level ppartcnstr (List.range this.m_num_of_part_levels)

/-- One round of `FSubsume` (CPartConstraint.cpp:378). A NULL constraint is contained in none but an
unbounded one. -/
def fSubsumeLevel (this ppartcnstr : CPartConstraint C) (ul : ℕ) : Except Fault Bool :=
  match this.Pcnstr ul with
  | none => .error .nullDeref
  | some pcnstrCurrent =>
    let fContains :=
      match ppartcnstr.Pcnstr ul with
      | some pcnstrOther => level.Contains pcnstrCurrent pcnstrOther
      | none => level.IsConstraintUnbounded pcnstrCurrent
    .ok (fContains && (this.IsDefaultPartition ul || !ppartcnstr.IsDefaultPartition ul))

/-- The loop of `FSubsume`. -/
def subsumeLoop (this ppartcnstr : CPartConstraint C) : List ℕ → Except Fault Bool
  | [] => .ok true
  | ul :: levels => do
    if ← this.fSubsumeLevel level ppartcnstr ul then subsumeLoop this ppartcnstr levels
    else return false

/-- `FSubsume` (CPartConstraint.cpp:361). -/
def FSubsume (this ppartcnstr : CPartConstraint C) : Except Fault Bool :=
  if this.IsConstraintUnbounded then .ok true
  else if ppartcnstr.IsConstraintUnbounded then .ok false
  else this.subsumeLoop level ppartcnstr (List.range this.m_num_of_part_levels)

/-- `FCanNegate` (CPartConstraint.cpp:398). -/
def FCanNegate (this : CPartConstraint C) : Bool :=
  (this.Pcnstr 0).isSome &&
    (List.range' 1 (this.m_num_of_part_levels - 1)).all fun ul =>
      (this.Pcnstr ul).any level.IsConstraintUnbounded

/-- `PcnstrRemaining` (CPartConstraint.cpp:499). -/
def PcnstrRemaining (pcnstrFst : Option C) (pcnstrSnd : C) : C :=
  let pcnstrNegation := level.CConstraintNegation pcnstrSnd
  match pcnstrFst with
  | none => pcnstrNegation
  | some pcnstrFst =>
    if level.IsConstraintUnbounded pcnstrFst then pcnstrNegation
    else level.PcnstrConjunction pcnstrFst pcnstrNegation

/-- One level is copied: its constraint, unless it is NULL, and its flag (CPartConstraint.cpp:466,
690). -/
def copyLevel (this : CPartConstraint C) (result : UlongToConstraintMap C × Finset ℕ) (ul : ℕ) :
    UlongToConstraintMap C × Finset ℕ :=
  (match this.Pcnstr ul with
    | some pcnstrLevel => UlongToConstraintMap.Insert result.1 ul pcnstrLevel
    | none => result.1,
  if this.IsDefaultPartition ul then insert ul result.2 else result.2)

/-- `PpartcnstrRemaining` (CPartConstraint.cpp:431). -/
def PpartcnstrRemaining (this ppartcnstr : CPartConstraint C) : Option (CPartConstraint C) :=
  if this.m_num_of_part_levels ≠ ppartcnstr.m_num_of_part_levels then none
  else if !ppartcnstr.FCanNegate level then none
  else
    (ppartcnstr.Pcnstr 0).map fun pcnstrOther =>
      let first := UlongToConstraintMap.Insert [] 0 (PcnstrRemaining level (this.Pcnstr 0) pcnstrOther)
      let pbsDefaultParts : Finset ℕ :=
        if this.IsDefaultPartition 0 && !ppartcnstr.IsDefaultPartition 0 then {0} else ∅
      let result := (List.range' 1 (this.m_num_of_part_levels - 1)).foldl this.copyLevel
        (first, pbsDefaultParts)
      ⟨result.1, result.2, this.m_num_of_part_levels, false, this.levels_pos⟩

/-- One round of `FDisjunctionPossible` (CPartConstraint.cpp:630). -/
def fSameLevel (ppartcnstrFst ppartcnstrSnd : CPartConstraint C) (ul : ℕ) : Bool :=
  match ppartcnstrFst.Pcnstr ul, ppartcnstrSnd.Pcnstr ul with
  | some pcnstrFst, some pcnstrSnd => level.Equals pcnstrFst pcnstrSnd &&
      ppartcnstrFst.IsDefaultPartition ul == ppartcnstrSnd.IsDefaultPartition ul
  | _, _ => false

/-- `FDisjunctionPossible` (CPartConstraint.cpp:619). -/
def FDisjunctionPossible (ppartcnstrFst ppartcnstrSnd : CPartConstraint C) : Bool :=
  let ulLevels := ppartcnstrFst.m_num_of_part_levels
  (List.range (ulLevels - 1)).all (ppartcnstrFst.fSameLevel level ppartcnstrSnd) &&
    (ppartcnstrFst.Pcnstr (ulLevels - 1)).isSome && (ppartcnstrSnd.Pcnstr (ulLevels - 1)).isSome

/-- `PpartcnstrDisjunction` (CPartConstraint.cpp:659). -/
def PpartcnstrDisjunction (ppartcnstrFst ppartcnstrSnd : CPartConstraint C) :
    Option (CPartConstraint C) :=
  if ppartcnstrFst.IsConstraintUnbounded then some ppartcnstrFst
  else if ppartcnstrSnd.IsConstraintUnbounded then some ppartcnstrSnd
  else if !ppartcnstrFst.FDisjunctionPossible level ppartcnstrSnd then none
  else
    let ulLast := ppartcnstrFst.m_num_of_part_levels - 1
    let copied := (List.range ulLast).foldl ppartcnstrFst.copyLevel ([], ∅)
    match ppartcnstrFst.Pcnstr ulLast, ppartcnstrSnd.Pcnstr ulLast with
    | some pcnstrFst, some pcnstrSnd => some
        { m_phmulcnstr := UlongToConstraintMap.Insert copied.1 ulLast
            (level.PcnstrDisjunction pcnstrFst pcnstrSnd)
          m_pbsDefaultParts :=
            if ppartcnstrFst.IsDefaultPartition ulLast || ppartcnstrSnd.IsDefaultPartition ulLast
            then insert ulLast copied.2 else copied.2
          m_num_of_part_levels := ppartcnstrFst.m_num_of_part_levels
          m_is_unbounded := false
          levels_pos := ppartcnstrFst.levels_pos }
    | _, _ => none

/-! ## Copied levels -/

end CPartConstraint

namespace UlongToConstraintMap

variable {C : Type}

theorem find_insert (this : UlongToConstraintMap C) (ul k : ℕ) (pcnstr : C) :
    (this.Insert ul pcnstr).Find k = (this.Find k).or (if ul = k then some pcnstr else none) := by
  rw [Insert]
  split
  · next hin =>
    split
    · next heq =>
      obtain ⟨c, hc⟩ := Option.isSome_iff_exists.1 hin
      rw [← heq, hc]
      rfl
    · rw [Option.or_none]
  · rw [Find, Find, List.find?_append]
    cases this.find? (·.1 = k) with
    | some entry => rfl
    | none => by_cases heq : ul = k <;> simp [heq]

end UlongToConstraintMap

namespace CPartConstraint

variable {C V : Type} {level : LevelConstraints C V}

theorem copyLevel_find (this : CPartConstraint C) (result : UlongToConstraintMap C × Finset ℕ)
    (ul k : ℕ) : UlongToConstraintMap.Find (this.copyLevel result ul).1 k =
      (UlongToConstraintMap.Find result.1 k).or (if ul = k then this.Pcnstr k else none) := by
  rw [copyLevel]
  cases hul : this.Pcnstr ul with
  | none =>
    by_cases heq : ul = k
    · simp [← heq, hul]
    · simp [heq]
  | some pcnstrLevel =>
    dsimp only
    rw [UlongToConstraintMap.find_insert]
    by_cases heq : ul = k
    · simp [← heq, hul]
    · simp [heq]

/-- What is found after some levels have been copied. -/
theorem foldl_copyLevel_find (this : CPartConstraint C) (levels : List ℕ)
    (result : UlongToConstraintMap C × Finset ℕ) (k : ℕ) :
    UlongToConstraintMap.Find (levels.foldl this.copyLevel result).1 k =
      (UlongToConstraintMap.Find result.1 k).or (if k ∈ levels then this.Pcnstr k else none) := by
  induction levels generalizing result with
  | nil => simp
  | cons ul levels ih =>
    rw [List.foldl_cons, ih, copyLevel_find]
    by_cases heq : ul = k
    · subst heq
      cases UlongToConstraintMap.Find result.1 ul <;> cases this.Pcnstr ul <;> simp
    · simp [heq, Ne.symm heq]

theorem foldl_copyLevel_default (this : CPartConstraint C) (levels : List ℕ)
    (result : UlongToConstraintMap C × Finset ℕ) (k : ℕ) :
    k ∈ (levels.foldl this.copyLevel result).2 ↔
      k ∈ result.2 ∨ k ∈ levels ∧ this.IsDefaultPartition k = true := by
  induction levels generalizing result with
  | nil => simp
  | cons ul levels ih =>
    rw [List.foldl_cons, ih, copyLevel]
    by_cases heq : k = ul
    · subst heq
      by_cases hdefault : this.IsDefaultPartition k = true <;> simp [hdefault]
    · by_cases hdefault : this.IsDefaultPartition ul = true <;> simp [hdefault, heq]

end CPartConstraint

end BossOptimizer

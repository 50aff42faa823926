import BossOptimizer.Metadata.CPartConstraint
import Mathlib.Data.Fintype.Basic
import Mathlib.Tactic.IntervalCases

/-!
# The algebra of part constraints

A leaf partition is a value or the default partition on each level, and a part constraint denotes
the leaf partitions that it admits on all levels: a product of sets, or everything. A union that
differs on the last level is a product again. A difference is one if what is taken away is the whole
of every deeper level, and `FCanNegate` looks at the constraints of the deeper levels only, not at
their default partitions or at the flag that everything is meant.
-/

namespace BossOptimizer

namespace CPartConstraint

variable {C V : Type} (level : LevelConstraints C V)

/-- The values and the default partition that a constraint admits on a level. -/
def Admits (this : CPartConstraint C) (ul : ℕ) : Option V → Prop
  | some v => ∀ pcnstr ∈ this.Pcnstr ul, level.sat pcnstr v
  | none => this.IsDefaultPartition ul = true

/-- A leaf partition that the constraint admits on every level. -/
def AdmitsLeaf (this : CPartConstraint C) (leaf : ℕ → Option V) : Prop :=
  ∀ ul < this.m_num_of_part_levels, this.Admits level ul (leaf ul)

/-- The leaf partitions of a part constraint. -/
def Denotes (this : CPartConstraint C) (leaf : ℕ → Option V) : Prop :=
  this.IsConstraintUnbounded = true ∨ this.AdmitsLeaf level leaf

variable {level} {A B R : CPartConstraint C}

theorem denotes_of_unbounded (h : A.IsConstraintUnbounded = true) (leaf : ℕ → Option V) :
    A.Denotes level leaf :=
  .inl h

theorem denotes_iff (h : A.IsConstraintUnbounded = false) (leaf : ℕ → Option V) :
    A.Denotes level leaf ↔ A.AdmitsLeaf level leaf := by
  simp [Denotes, h]

/-- Levels with the same constraint and flag admit the same. -/
theorem Admits.congr {ul : ℕ} (hpcnstr : ∀ v, (∀ pcnstr ∈ A.Pcnstr ul, level.sat pcnstr v) ↔
    ∀ pcnstr ∈ B.Pcnstr ul, level.sat pcnstr v)
    (hdefault : A.IsDefaultPartition ul = B.IsDefaultPartition ul) (x : Option V) :
    A.Admits level ul x ↔ B.Admits level ul x := by
  cases x with
  | some v => exact hpcnstr v
  | none => rw [Admits, Admits, hdefault]

/-! ## Comparison -/

theorem fEqualLevel_sat {pcnstrFst pcnstrSnd : Option C}
    (h : fEqualLevel level pcnstrFst pcnstrSnd = true) (v : V) :
    (∀ pcnstr ∈ pcnstrFst, level.sat pcnstr v) ↔ ∀ pcnstr ∈ pcnstrSnd, level.sat pcnstr v := by
  cases pcnstrFst <;> cases pcnstrSnd
  · simp
  · cases h
  · cases h
  · simpa using (level.equals _ _).1 h v

theorem fEqualLevel_comm (pcnstrFst pcnstrSnd : Option C) :
    fEqualLevel level pcnstrFst pcnstrSnd = fEqualLevel level pcnstrSnd pcnstrFst := by
  cases pcnstrFst <;> cases pcnstrSnd
  · rfl
  · rfl
  · rfl
  · rw [Bool.eq_iff_iff, fEqualLevel, fEqualLevel, level.equals, level.equals]
    exact forall_congr' fun v => iff_comm

theorem fSameLevels_comm (A B : CPartConstraint C) :
    A.fSameLevels level B = B.fSameLevels level A := by
  rw [fSameLevels, fSameLevels, FEqualConstrMaps, FEqualConstrMaps, Bool.eq_iff_iff]
  simp only [Bool.and_eq_true, decide_eq_true_eq, List.all_eq_true, List.mem_range]
  constructor
  · rintro ⟨⟨hlevels, hdefault⟩, hsize, hall⟩
    exact ⟨⟨hlevels.symm, hdefault.symm⟩, hsize.symm, fun ul hul => by
      rw [fEqualLevel_comm]; exact hall ul (hlevels ▸ hul)⟩
  · rintro ⟨⟨hlevels, hdefault⟩, hsize, hall⟩
    exact ⟨⟨hlevels.symm, hdefault.symm⟩, hsize.symm, fun ul hul => by
      rw [fEqualLevel_comm]; exact hall ul (hlevels ▸ hul)⟩

theorem admits_of_fSameLevels (h : A.fSameLevels level B = true) {ul : ℕ}
    (hul : ul < A.m_num_of_part_levels) (x : Option V) :
    A.Admits level ul x ↔ B.Admits level ul x := by
  rw [fSameLevels, FEqualConstrMaps] at h
  simp only [Bool.and_eq_true, decide_eq_true_eq, List.all_eq_true, List.mem_range] at h
  obtain ⟨⟨-, hdefault⟩, -, hall⟩ := h
  refine Admits.congr (fEqualLevel_sat (hall ul hul)) ?_ x
  rw [IsDefaultPartition, IsDefaultPartition, hdefault]

theorem admitsLeaf_of_fSameLevels (h : A.fSameLevels level B = true) (leaf : ℕ → Option V) :
    A.AdmitsLeaf level leaf ↔ B.AdmitsLeaf level leaf := by
  have hlevels : A.m_num_of_part_levels = B.m_num_of_part_levels := by
    simp only [fSameLevels, Bool.and_eq_true, decide_eq_true_eq] at h
    exact h.1.1
  rw [AdmitsLeaf, AdmitsLeaf, ← hlevels]
  exact forall₂_congr fun ul hul => admits_of_fSameLevels h hul _

/-- A constraint that is equivalent to another admits no more leaf partitions. -/
theorem denotes_of_fEquivalent (h : A.FEquivalent level B = true) {leaf : ℕ → Option V}
    (hleaf : A.Denotes level leaf) : B.Denotes level leaf := by
  rw [FEquivalent] at h
  split at h
  · exact .inl h
  · next hA =>
    rw [denotes_iff (by simpa using hA)] at hleaf
    exact .inr ((admitsLeaf_of_fSameLevels h leaf).1 hleaf)

/-- `FEquivalent` is symmetric and implies the same leaf partitions, exactly when constraints that
are the same level by level are flagged unbounded together. -/
theorem fEquivalent_right_iff (A B : CPartConstraint C) :
    (A.FEquivalent level B = B.FEquivalent level A ∧
      (A.FEquivalent level B = true → ∀ leaf, A.Denotes level leaf ↔ B.Denotes level leaf)) ↔
      (A.fSameLevels level B = true → A.IsConstraintUnbounded = B.IsConstraintUnbounded) := by
  rw [FEquivalent, FEquivalent, fSameLevels_comm B A]
  cases hA : A.IsConstraintUnbounded <;> cases hB : B.IsConstraintUnbounded
  · simp only [Bool.false_eq_true, if_false, true_and, implies_true, iff_true]
    intro h leaf
    rw [denotes_iff hA, denotes_iff hB, admitsLeaf_of_fSameLevels h]
  · cases A.fSameLevels level B <;> simp
  · cases A.fSameLevels level B <;> simp
  · simpa using fun leaf => iff_of_true (denotes_of_unbounded hA leaf) (denotes_of_unbounded hB leaf)

/-! ## Subsumption and overlap -/

theorem subsumeLoop_true {levels : List ℕ} (h : A.subsumeLoop level B levels = .ok true) :
    ∀ ul ∈ levels, A.fSubsumeLevel level B ul = .ok true := by
  induction levels with
  | nil => simp
  | cons ul levels ih =>
    rw [subsumeLoop, bind_eq_ok] at h
    obtain ⟨b, hb, h⟩ := h
    cases b with
    | false => cases h
    | true => exact List.forall_mem_cons.2 ⟨hb, ih h⟩

theorem admits_of_fSubsumeLevel {ul : ℕ} (h : A.fSubsumeLevel level B ul = .ok true) (x : Option V)
    (hB : B.Admits level ul x) : A.Admits level ul x := by
  rw [fSubsumeLevel] at h
  cases hcur : A.Pcnstr ul with
  | none => rw [hcur] at h; cases h
  | some pcnstrCurrent =>
    rw [hcur] at h
    simp only [Except.ok.injEq, Bool.and_eq_true, Bool.or_eq_true, Bool.not_eq_true'] at h
    obtain ⟨hcontains, hdefault⟩ := h
    cases x with
    | none =>
      rw [Admits] at hB ⊢
      simpa [hB] using hdefault
    | some v =>
      rw [Admits] at hB ⊢
      rw [hcur]
      rintro _ ⟨⟩
      cases hother : B.Pcnstr ul with
      | none =>
        rw [hother] at hcontains
        exact level.unbounded _ hcontains v
      | some pcnstrOther =>
        rw [hother] at hcontains
        exact (level.contains _ _).1 hcontains v (hB pcnstrOther hother)

/-- **`FSubsume` implies a superset.** -/
theorem denotes_of_fSubsume (hlevels : A.m_num_of_part_levels = B.m_num_of_part_levels)
    (h : A.FSubsume level B = .ok true) (leaf : ℕ → Option V) (hB : B.Denotes level leaf) :
    A.Denotes level leaf := by
  rw [FSubsume] at h
  split at h
  · next hA => exact denotes_of_unbounded hA leaf
  · split at h
    · cases h
    · next hAB hBunb =>
      have hall := subsumeLoop_true h
      rw [denotes_iff (by simpa using hBunb)] at hB
      refine .inr fun ul hul => ?_
      exact admits_of_fSubsumeLevel (hall ul (List.mem_range.2 hul)) _ (hB ul (hlevels ▸ hul))

theorem overlapLoop_false {levels : List ℕ} (h : A.overlapLoop level B levels = .ok false) :
    ∃ ul ∈ levels, A.FOverlapLevel level B ul = .ok false := by
  induction levels with
  | nil => cases h
  | cons ul levels ih =>
    rw [overlapLoop, bind_eq_ok] at h
    obtain ⟨b, hb, h⟩ := h
    cases b with
    | false => exact ⟨ul, by simp, hb⟩
    | true =>
      obtain ⟨ul', hul', hfalse⟩ := ih h
      exact ⟨ul', by simp [hul'], hfalse⟩

theorem not_admits_of_fOverlapLevel {ul : ℕ} (h : A.FOverlapLevel level B ul = .ok false)
    (x : Option V) (hA : A.Admits level ul x) : ¬B.Admits level ul x := by
  rw [FOverlapLevel] at h
  cases hcur : A.Pcnstr ul with
  | none => rw [hcur] at h; cases h
  | some pcnstrCurrent =>
    cases hother : B.Pcnstr ul with
    | none => rw [hcur, hother] at h; cases h
    | some pcnstrOther =>
      rw [hcur, hother] at h
      simp only [Except.ok.injEq, Bool.or_eq_false_iff, Bool.not_eq_false', Bool.and_eq_false_iff]
        at h
      obtain ⟨hcontradiction, hdefault⟩ := h
      cases x with
      | none =>
        rw [Admits] at hA ⊢
        simpa [hA] using hdefault
      | some v =>
        rw [Admits, hcur] at hA
        rw [Admits, hother]
        intro hB
        refine (level.contradiction _).1 hcontradiction v ?_
        exact (level.conjunction _ _ v).2 ⟨hA _ rfl, hB _ rfl⟩

/-- **No `FOverlap` implies disjoint constraints.** -/
theorem not_denotes_of_fOverlap (hlevels : A.m_num_of_part_levels = B.m_num_of_part_levels)
    (h : A.FOverlap level B = .ok false) (leaf : ℕ → Option V) (hA : A.Denotes level leaf) :
    ¬B.Denotes level leaf := by
  rw [FOverlap] at h
  split at h
  · cases h
  · next hunb =>
    simp only [Bool.or_eq_true, not_or, Bool.not_eq_true] at hunb
    obtain ⟨ul, hul, hfalse⟩ := overlapLoop_false h
    rw [List.mem_range] at hul
    rw [denotes_iff hunb.1] at hA
    rw [denotes_iff hunb.2]
    exact fun hB => not_admits_of_fOverlapLevel hfalse _ (hA ul hul) (hB ul (hlevels ▸ hul))

/-! ## Union -/

theorem admits_of_fSameLevel {ul : ℕ} (h : A.fSameLevel level B ul = true) (x : Option V) :
    A.Admits level ul x ↔ B.Admits level ul x := by
  rw [fSameLevel] at h
  cases hfst : A.Pcnstr ul with
  | none => rw [hfst] at h; cases h
  | some pcnstrFst =>
    cases hsnd : B.Pcnstr ul with
    | none => rw [hfst, hsnd] at h; cases h
    | some pcnstrSnd =>
      rw [hfst, hsnd] at h
      simp only [Bool.and_eq_true, beq_iff_eq] at h
      refine Admits.congr (fun v => ?_) h.2 x
      rw [hfst, hsnd]
      simpa using (level.equals _ _).1 h.1 v

/-- A leaf of a product: the levels before the last, and the last. -/
theorem admitsLeaf_iff_last (leaf : ℕ → Option V) : A.AdmitsLeaf level leaf ↔
    (∀ ul < A.m_num_of_part_levels - 1, A.Admits level ul (leaf ul)) ∧
      A.Admits level (A.m_num_of_part_levels - 1) (leaf (A.m_num_of_part_levels - 1)) := by
  have hpos := A.levels_pos
  constructor
  · exact fun h => ⟨fun ul hul => h ul (by omega), h _ (by omega)⟩
  · rintro ⟨hinit, hlast⟩ ul hul
    by_cases heq : ul = A.m_num_of_part_levels - 1
    · exact heq ▸ hlast
    · exact hinit ul (by omega)

/-- What `PpartcnstrDisjunction` builds of two constraints that are not flagged unbounded. -/
theorem ppartcnstrDisjunction_spec (hA : A.IsConstraintUnbounded = false)
    (hB : B.IsConstraintUnbounded = false) (h : A.PpartcnstrDisjunction level B = some R) :
    A.FDisjunctionPossible level B = true ∧ R.IsConstraintUnbounded = false ∧
      R.m_num_of_part_levels = A.m_num_of_part_levels ∧
      (∀ ul < A.m_num_of_part_levels - 1,
        R.Pcnstr ul = A.Pcnstr ul ∧ R.IsDefaultPartition ul = A.IsDefaultPartition ul) ∧
      ∃ a b, A.Pcnstr (A.m_num_of_part_levels - 1) = some a ∧
        B.Pcnstr (A.m_num_of_part_levels - 1) = some b ∧
        R.Pcnstr (A.m_num_of_part_levels - 1) = some (level.PcnstrDisjunction a b) ∧
        R.IsDefaultPartition (A.m_num_of_part_levels - 1) =
          (A.IsDefaultPartition (A.m_num_of_part_levels - 1) ||
            B.IsDefaultPartition (A.m_num_of_part_levels - 1)) := by
  rw [PpartcnstrDisjunction, hA, hB] at h
  simp only [Bool.false_eq_true, if_false] at h
  split at h
  · cases h
  next hpossible =>
    split at h
    · next pcnstrFst pcnstrSnd hfst hsnd =>
      cases h
      have hfind := foldl_copyLevel_find A (List.range (A.m_num_of_part_levels - 1)) ([], ∅)
      have hdefault := foldl_copyLevel_default A (List.range (A.m_num_of_part_levels - 1)) ([], ∅)
      simp only [List.mem_range, Finset.notMem_empty, false_or] at hfind hdefault
      refine ⟨by simpa using hpossible, rfl, rfl, fun ul hul => ⟨?_, ?_⟩, _, _, hfst, hsnd, ?_, ?_⟩
      · rw [Pcnstr, UlongToConstraintMap.find_insert, hfind, if_pos hul,
          if_neg (by omega), Option.or_none]
        rfl
      · rw [Bool.eq_iff_iff, IsDefaultPartition, decide_eq_true_iff]
        split
        · rw [Finset.mem_insert, hdefault, or_iff_right (by omega), and_iff_right hul]
        · rw [hdefault, and_iff_right hul]
      · rw [Pcnstr, UlongToConstraintMap.find_insert, hfind, if_neg (by omega), if_pos rfl]
        rfl
      · rw [Bool.eq_iff_iff, IsDefaultPartition, decide_eq_true_iff]
        split
        · next hflag => simp [hflag]
        · next hflag =>
          rw [hdefault]
          simpa using hflag
    · cases h

/-- A level of the union admits what the two constraints admit there. -/
theorem admits_ppartcnstrDisjunction (hA : A.IsConstraintUnbounded = false)
    (hB : B.IsConstraintUnbounded = false) (h : A.PpartcnstrDisjunction level B = some R) {ul : ℕ}
    (hul : ul < A.m_num_of_part_levels) (x : Option V) :
    R.Admits level ul x ↔ A.Admits level ul x ∨ B.Admits level ul x := by
  obtain ⟨hpossible, -, -, hinit, a, b, ha, hb, hlast, hflag⟩ := ppartcnstrDisjunction_spec hA hB h
  simp only [FDisjunctionPossible, Bool.and_eq_true, List.all_eq_true, List.mem_range] at hpossible
  rcases Nat.lt_or_ge ul (A.m_num_of_part_levels - 1) with hlt | hge
  · -- the levels before the last are those of both constraints
    have hR : R.Admits level ul x ↔ A.Admits level ul x :=
      Admits.congr (fun v => by rw [(hinit ul hlt).1]) (hinit ul hlt).2 x
    rw [hR, ← admits_of_fSameLevel (hpossible.1.1 ul hlt) x, or_self]
  · obtain rfl : ul = A.m_num_of_part_levels - 1 := by omega
    cases x with
    | none => rw [Admits, Admits, Admits, hflag, Bool.or_eq_true]
    | some v => simp [Admits, ha, hb, hlast, level.disjunction]

/-- **`PpartcnstrDisjunction` denotes the union.** -/
theorem denotes_ppartcnstrDisjunction (hlevels : A.m_num_of_part_levels = B.m_num_of_part_levels)
    (h : A.PpartcnstrDisjunction level B = some R) (leaf : ℕ → Option V) :
    R.Denotes level leaf ↔ A.Denotes level leaf ∨ B.Denotes level leaf := by
  cases hA : A.IsConstraintUnbounded with
  | true =>
    rw [PpartcnstrDisjunction, if_pos hA] at h
    cases h
    simp [Denotes, hA]
  | false =>
    cases hB : B.IsConstraintUnbounded with
    | true =>
      rw [PpartcnstrDisjunction, if_neg (by simp [hA]), if_pos hB] at h
      cases h
      simp [Denotes, hB]
    | false =>
      obtain ⟨hpossible, hR, hRlevels, -⟩ := ppartcnstrDisjunction_spec hA hB h
      simp only [FDisjunctionPossible, Bool.and_eq_true, List.all_eq_true, List.mem_range]
        at hpossible
      have hadmits : ∀ ul < A.m_num_of_part_levels, ∀ x : Option V,
          R.Admits level ul x ↔ A.Admits level ul x ∨ B.Admits level ul x :=
        fun ul hul => admits_ppartcnstrDisjunction hA hB h hul
      have hinit : (∀ ul < A.m_num_of_part_levels - 1, A.Admits level ul (leaf ul)) ↔
          ∀ ul < A.m_num_of_part_levels - 1, B.Admits level ul (leaf ul) :=
        forall₂_congr fun ul hul => admits_of_fSameLevel (hpossible.1.1 ul hul) _
      have hinitR : (∀ ul < A.m_num_of_part_levels - 1, R.Admits level ul (leaf ul)) ↔
          ∀ ul < A.m_num_of_part_levels - 1, A.Admits level ul (leaf ul) :=
        forall₂_congr fun ul hul => by
          rw [hadmits ul (by omega), ← admits_of_fSameLevel (hpossible.1.1 ul hul), or_self]
      have hpos := A.levels_pos
      rw [denotes_iff hR, denotes_iff hA, denotes_iff hB, admitsLeaf_iff_last, admitsLeaf_iff_last,
        admitsLeaf_iff_last, hRlevels, ← hlevels, hinitR, ← hinit,
        hadmits (A.m_num_of_part_levels - 1) (by omega), and_or_left]

/-! ## Difference -/

theorem pcnstrRemaining_sat (pcnstrFst : Option C) (pcnstrSnd : C) (v : V) :
    level.sat (PcnstrRemaining level pcnstrFst pcnstrSnd) v ↔
      (∀ pcnstr ∈ pcnstrFst, level.sat pcnstr v) ∧ ¬level.sat pcnstrSnd v := by
  unfold PcnstrRemaining
  cases pcnstrFst with
  | none => simp [level.negation]
  | some pcnstrFst =>
    dsimp only
    split
    · next hunb => simp [level.negation, level.unbounded _ hunb v]
    · simp [level.conjunction, level.negation]

/-- What `PpartcnstrRemaining` builds. -/
theorem ppartcnstrRemaining_spec (h : A.PpartcnstrRemaining level B = some R) :
    B.FCanNegate level = true ∧ R.IsConstraintUnbounded = false ∧
      R.m_num_of_part_levels = A.m_num_of_part_levels ∧
      (∀ x : Option V, R.Admits level 0 x ↔ A.Admits level 0 x ∧ ¬B.Admits level 0 x) ∧
      ∀ ul, 0 < ul → ul < A.m_num_of_part_levels →
        ∀ x : Option V, R.Admits level ul x ↔ A.Admits level ul x := by
  rw [PpartcnstrRemaining] at h
  split at h
  · cases h
  split at h
  · cases h
  next hlevels hneg =>
    obtain ⟨pcnstrOther, hother, rfl⟩ := Option.map_eq_some_iff.1 h
    have hfind := foldl_copyLevel_find A (List.range' 1 (A.m_num_of_part_levels - 1))
      (UlongToConstraintMap.Insert [] 0 (PcnstrRemaining level (A.Pcnstr 0) pcnstrOther),
        if A.IsDefaultPartition 0 && !B.IsDefaultPartition 0 then {0} else ∅)
    have hdefault := foldl_copyLevel_default A (List.range' 1 (A.m_num_of_part_levels - 1))
      (UlongToConstraintMap.Insert [] 0 (PcnstrRemaining level (A.Pcnstr 0) pcnstrOther),
        if A.IsDefaultPartition 0 && !B.IsDefaultPartition 0 then {0} else ∅)
    simp only [UlongToConstraintMap.find_insert, List.mem_range'_1] at hfind hdefault
    refine ⟨by simpa using hneg, rfl, rfl, fun x => ?_, fun ul hpos hlt => ?_⟩
    · cases x with
      | none =>
        rw [Admits, Admits, Admits, IsDefaultPartition, decide_eq_true_iff, hdefault]
        by_cases hA : A.IsDefaultPartition 0 = true <;> by_cases hB : B.IsDefaultPartition 0 = true <;>
          simp [hA, hB]
      | some v =>
        have hsat := @pcnstrRemaining_sat C V level (A.Pcnstr 0) pcnstrOther v
        rw [Admits, Admits, Admits, Pcnstr, hfind, hother]
        simpa [UlongToConstraintMap.Find] using hsat
    · have hin : 1 ≤ ul ∧ ul < 1 + (A.m_num_of_part_levels - 1) := by omega
      refine Admits.congr (fun v => ?_) ?_
      · rw [Pcnstr, hfind, if_neg (by omega), if_pos hin]
        rfl
      · rw [Bool.eq_iff_iff, IsDefaultPartition, decide_eq_true_iff, hdefault, and_iff_right hin,
          or_iff_right]
        split <;> simp
        omega

/-- The deeper levels of a constraint that can be negated admit every value. -/
theorem admits_of_fCanNegate (h : B.FCanNegate level = true) {ul : ℕ} (hpos : 0 < ul)
    (hlt : ul < B.m_num_of_part_levels) (v : V) : B.Admits level ul (some v) := by
  simp only [FCanNegate, Bool.and_eq_true, List.all_eq_true, List.mem_range'_1] at h
  have hunb := h.2 ul ⟨by omega, by omega⟩
  intro pcnstr hpcnstr
  rw [Option.mem_def] at hpcnstr
  rw [hpcnstr] at hunb
  exact level.unbounded pcnstr hunb v

/-- A leaf of a product: the first level, and the deeper ones. -/
theorem admitsLeaf_iff_first (leaf : ℕ → Option V) : A.AdmitsLeaf level leaf ↔
    A.Admits level 0 (leaf 0) ∧
      ∀ ul, 0 < ul → ul < A.m_num_of_part_levels → A.Admits level ul (leaf ul) := by
  constructor
  · exact fun h => ⟨h 0 A.levels_pos, fun ul _ hlt => h ul hlt⟩
  · rintro ⟨hfirst, hdeeper⟩ ul hlt
    rcases Nat.eq_zero_or_pos ul with rfl | hpos
    · exact hfirst
    · exact hdeeper ul hpos hlt

/-- A leaf chosen level by level. -/
theorem exists_leaf {n : ℕ} {P : ℕ → Option V → Prop} (first : Option V)
    (h : ∀ ul, 0 < ul → ul < n → ∃ x, P ul x) :
    ∃ leaf : ℕ → Option V, leaf 0 = first ∧ ∀ ul, 0 < ul → ul < n → P ul (leaf ul) := by
  classical
  refine ⟨fun ul => if hul : 0 < ul ∧ ul < n then (h ul hul.1 hul.2).choose else first, ?_, ?_⟩
  · simp
  · intro ul hpos hlt
    dsimp only
    rw [dif_pos ⟨hpos, hlt⟩]
    exact (h ul hpos hlt).choose_spec

variable (level A B) in
/-- Taking away is exact: the first levels have nothing in common, or each deeper level that admits
its default partition has it taken away, or another deeper level admits nothing; and accordingly if
one of the two is flagged unbounded. -/
def TakesAway : Prop :=
  if B.IsConstraintUnbounded then
    (∀ x : Option V, A.Admits level 0 x → B.Admits level 0 x) ∨
      ∃ ul, 0 < ul ∧ ul < A.m_num_of_part_levels ∧ ∀ x : Option V, ¬A.Admits level ul x
  else if A.IsConstraintUnbounded then
    ((∀ ul, 0 < ul → ul < A.m_num_of_part_levels → B.IsDefaultPartition ul = true) ∨
      ∀ x : Option V, ¬B.Admits level 0 x) ∧
    ((∀ x : Option V, B.Admits level 0 x) ∨
      (∀ x : Option V, ¬B.Admits level 0 x → A.Admits level 0 x) ∧
        ∀ ul, 0 < ul → ul < A.m_num_of_part_levels → ∀ x : Option V, A.Admits level ul x)
  else
    ∀ ul, 0 < ul → ul < A.m_num_of_part_levels → A.IsDefaultPartition ul = true →
      B.IsDefaultPartition ul = false →
        (∀ x : Option V, A.Admits level 0 x → ¬B.Admits level 0 x) ∨
          ∃ ul', 0 < ul' ∧ ul' < A.m_num_of_part_levels ∧ ul' ≠ ul ∧
            ∀ x : Option V, ¬A.Admits level ul' x

/-- Everything is taken away. -/
theorem takesAway_everything (hB : B.IsConstraintUnbounded = true) :
    (∀ leaf : ℕ → Option V, ¬((A.Admits level 0 (leaf 0) ∧ ¬B.Admits level 0 (leaf 0)) ∧
      ∀ ul, 0 < ul → ul < A.m_num_of_part_levels → A.Admits level ul (leaf ul))) ↔
      TakesAway level A B := by
  rw [TakesAway, if_pos hB]
  constructor
  · intro hnone
    by_contra hcond
    simp only [not_or, not_forall, not_exists, not_and, not_not] at hcond
    obtain ⟨⟨x, hxA, hxB⟩, hdeeper⟩ := hcond
    obtain ⟨leaf, hfirst, hall⟩ := exists_leaf x hdeeper
    refine hnone leaf ⟨?_, hall⟩
    rw [hfirst]
    exact ⟨hxA, hxB⟩
  · rintro (hsub | ⟨ul, hpos, hlt, hempty⟩) leaf ⟨⟨hA, hnot⟩, hdeeper⟩
    · exact hnot (hsub _ hA)
    · exact hempty _ (hdeeper ul hpos hlt)

/-- Taking away from a constraint that is not flagged unbounded. -/
theorem takesAway_bounded (hA : A.IsConstraintUnbounded = false)
    (hB : B.IsConstraintUnbounded = false) :
    (∀ leaf : ℕ → Option V, (A.Admits level 0 (leaf 0) ∧
        ∀ ul, 0 < ul → ul < A.m_num_of_part_levels → A.Admits level ul (leaf ul)) →
      B.Admits level 0 (leaf 0) →
      ∀ ul, 0 < ul → ul < A.m_num_of_part_levels → leaf ul = none →
        B.IsDefaultPartition ul = true) ↔ TakesAway level A B := by
  rw [TakesAway, if_neg (by simp [hB]), if_neg (by simp [hA])]
  constructor
  · intro hall ul hpos hlt hdA hdB
    by_contra hcond
    simp only [not_or, not_forall, not_exists, not_and, not_not, exists_prop] at hcond
    obtain ⟨⟨x, hxA, hxB⟩, hdeeper⟩ := hcond
    -- the default partition on the level `ul`, anything that `A` admits on the others
    have hchoice : ∀ ul', 0 < ul' → ul' < A.m_num_of_part_levels →
        ∃ y : Option V, A.Admits level ul' y ∧ (ul' = ul → y = none) := by
      intro ul' hpos' hlt'
      by_cases heq : ul' = ul
      · exact ⟨none, heq ▸ hdA, fun _ => rfl⟩
      · obtain ⟨y, hy⟩ := hdeeper ul' hpos' hlt' heq
        exact ⟨y, hy, fun h => absurd h heq⟩
    obtain ⟨leaf, hfirst, hleaf⟩ := exists_leaf x hchoice
    have hflag := hall leaf ⟨hfirst ▸ hxA, fun ul' hpos' hlt' => (hleaf ul' hpos' hlt').1⟩
      (hfirst ▸ hxB) ul hpos hlt ((hleaf ul hpos hlt).2 rfl)
    rw [hdB] at hflag
    cases hflag
  · intro hcond leaf ⟨hxA, hdeeper⟩ hxB ul hpos hlt hnone
    by_contra hdB
    have hdA := hdeeper ul hpos hlt
    rw [hnone] at hdA
    rcases hcond ul hpos hlt hdA (by simpa using hdB) with hdisj | ⟨ul', hpos', hlt', -, hempty⟩
    · exact hdisj _ hxA hxB
    · exact hempty _ (hdeeper ul' hpos' hlt')

/-- Taking away from everything. -/
theorem takesAway_unbounded (hA : A.IsConstraintUnbounded = true)
    (hB : B.IsConstraintUnbounded = false) :
    (∀ leaf : ℕ → Option V, ((A.Admits level 0 (leaf 0) ∧ ¬B.Admits level 0 (leaf 0)) ∧
        ∀ ul, 0 < ul → ul < A.m_num_of_part_levels → A.Admits level ul (leaf ul)) ↔
      ¬(B.Admits level 0 (leaf 0) ∧ ∀ ul, 0 < ul → ul < A.m_num_of_part_levels → leaf ul = none →
        B.IsDefaultPartition ul = true)) ↔ TakesAway level A B := by
  rw [TakesAway, if_neg (by simp [hB]), if_pos hA]
  constructor
  · intro hall
    refine ⟨?_, ?_⟩
    · -- a default partition that is not taken away would have to be in both or in none
      by_contra hcond
      simp only [not_or, not_forall, not_not, exists_prop] at hcond
      obtain ⟨⟨ul, hpos, hlt, hdB⟩, x, hxB⟩ := hcond
      have hright := (hall fun ul' => if ul' = 0 then x else none).2 fun hboth =>
        hdB (hboth.2 ul hpos hlt (if_neg (by omega)))
      exact hright.1.2 (by simpa using hxB)
    · by_cases hfull : ∀ x : Option V, B.Admits level 0 x
      · exact .inl hfull
      · obtain ⟨x, hx⟩ := not_forall.1 hfull
        have hout : ∀ leaf : ℕ → Option V, ¬B.Admits level 0 (leaf 0) →
            A.Admits level 0 (leaf 0) ∧
              ∀ ul, 0 < ul → ul < A.m_num_of_part_levels → A.Admits level ul (leaf ul) :=
          fun leaf hnot =>
            have hleaf := (hall leaf).2 fun hboth => hnot hboth.1
            ⟨hleaf.1.1, hleaf.2⟩
        refine .inr ⟨fun y hy => (hout (fun _ => y) hy).1, fun ul hpos hlt y => ?_⟩
        have hleaf := (hout (fun ul' => if ul' = 0 then x else y) (by simpa using hx)).2 ul hpos hlt
        rwa [if_neg (by omega)] at hleaf
  · rintro ⟨hdefault, hfull⟩ leaf
    constructor
    · rintro ⟨⟨-, hnot⟩, -⟩ hboth
      exact hnot hboth.1
    · intro hnot
      have hxB : ¬B.Admits level 0 (leaf 0) := by
        intro hin
        rcases hdefault with hdefault | hempty
        · exact hnot ⟨hin, fun ul hpos hlt _ => hdefault ul hpos hlt⟩
        · exact hempty _ hin
      rcases hfull with hfull | ⟨hfirst, hdeeper⟩
      · exact absurd (hfull _) hxB
      · exact ⟨⟨hfirst _ hxB, hxB⟩, fun ul hpos hlt => hdeeper ul hpos hlt _⟩

/-- `PpartcnstrRemaining` denotes the difference exactly when taking away is exact. -/
theorem ppartcnstrRemaining_right_iff (hlevels : A.m_num_of_part_levels = B.m_num_of_part_levels)
    (h : A.PpartcnstrRemaining level B = some R) :
    (∀ leaf : ℕ → Option V, R.Denotes level leaf ↔ A.Denotes level leaf ∧ ¬B.Denotes level leaf) ↔
      TakesAway level A B := by
  obtain ⟨hneg, hR, hRlevels, hfirst, hdeeper⟩ := @ppartcnstrRemaining_spec C V level A B R h
  have hRleaf : ∀ leaf : ℕ → Option V, R.Denotes level leaf ↔
      (A.Admits level 0 (leaf 0) ∧ ¬B.Admits level 0 (leaf 0)) ∧
        ∀ ul, 0 < ul → ul < A.m_num_of_part_levels → A.Admits level ul (leaf ul) := by
    intro leaf
    rw [denotes_iff hR, admitsLeaf_iff_first, hfirst, hRlevels]
    refine and_congr_right fun _ => forall₃_congr fun ul hpos hlt => hdeeper ul hpos hlt _
  have hBleaf : ∀ leaf : ℕ → Option V, B.AdmitsLeaf level leaf ↔ B.Admits level 0 (leaf 0) ∧
      ∀ ul, 0 < ul → ul < A.m_num_of_part_levels → leaf ul = none →
        B.IsDefaultPartition ul = true := by
    intro leaf
    rw [admitsLeaf_iff_first, hlevels]
    refine and_congr_right fun _ => forall₃_congr fun ul hpos hlt => ?_
    cases hleaf : leaf ul with
    | none => simp [Admits]
    | some v => simpa using admits_of_fCanNegate hneg hpos hlt v
  cases hB : B.IsConstraintUnbounded with
  | true =>
    rw [← takesAway_everything hB]
    refine forall_congr' fun leaf => ?_
    rw [hRleaf]
    simp [denotes_of_unbounded hB]
  | false =>
    cases hA : A.IsConstraintUnbounded with
    | true =>
      rw [← takesAway_unbounded hA hB]
      refine forall_congr' fun leaf => ?_
      rw [hRleaf, denotes_iff hB, hBleaf]
      simp [denotes_of_unbounded hA]
    | false =>
      rw [← takesAway_bounded hA hB]
      refine forall_congr' fun leaf => ?_
      rw [hRleaf, denotes_iff hA, denotes_iff hB, hBleaf, admitsLeaf_iff_first]
      tauto

/-! ## The algebra -/

variable (level A B) in
/-- The operations on two part constraints are those on their leaf partitions. -/
structure Algebra : Prop where
  disjunction : ∀ R, A.PpartcnstrDisjunction level B = some R →
    ∀ leaf : ℕ → Option V, R.Denotes level leaf ↔ A.Denotes level leaf ∨ B.Denotes level leaf
  remaining : ∀ R, A.PpartcnstrRemaining level B = some R →
    ∀ leaf : ℕ → Option V, R.Denotes level leaf ↔ A.Denotes level leaf ∧ ¬B.Denotes level leaf
  subsume : A.FSubsume level B = .ok true →
    ∀ leaf : ℕ → Option V, B.Denotes level leaf → A.Denotes level leaf
  overlap : A.FOverlap level B = .ok false →
    ∀ leaf : ℕ → Option V, A.Denotes level leaf → ¬B.Denotes level leaf
  equivalentSymm : A.FEquivalent level B = B.FEquivalent level A
  equivalent : A.FEquivalent level B = true →
    ∀ leaf : ℕ → Option V, A.Denotes level leaf ↔ B.Denotes level leaf

/-- **Part constraints are an exact algebra of leaf partitions exactly when taking away is exact
and constraints that are the same level by level are flagged unbounded together.** -/
theorem algebra_iff (level : LevelConstraints C V) (A B : CPartConstraint C)
    (hlevels : A.m_num_of_part_levels = B.m_num_of_part_levels) :
    Algebra level A B ↔ (B.FCanNegate level = true → TakesAway level A B) ∧
      (A.fSameLevels level B = true → A.IsConstraintUnbounded = B.IsConstraintUnbounded) := by
  rw [← fEquivalent_right_iff]
  have hremaining : (∀ R, A.PpartcnstrRemaining level B = some R →
      ∀ leaf : ℕ → Option V, R.Denotes level leaf ↔
        A.Denotes level leaf ∧ ¬B.Denotes level leaf) ↔
      (B.FCanNegate level = true → TakesAway level A B) := by
    constructor
    · intro hall hneg
      obtain ⟨pcnstrOther, hother⟩ := Option.isSome_iff_exists.1 (Bool.and_eq_true_iff.1 hneg).1
      obtain ⟨R, hR⟩ : ∃ R, A.PpartcnstrRemaining level B = some R := by
        rw [PpartcnstrRemaining, if_neg (not_not.2 hlevels), if_neg (by simp [hneg]), hother]
        exact ⟨_, rfl⟩
      exact (ppartcnstrRemaining_right_iff hlevels hR).1 (hall R hR)
    · intro htakes R hR
      exact (ppartcnstrRemaining_right_iff hlevels hR).2
        (htakes (@ppartcnstrRemaining_spec C V level A B R hR).1)
  rw [← hremaining]
  constructor
  · exact fun h => ⟨h.remaining, h.equivalentSymm, h.equivalent⟩
  · rintro ⟨hrem, hsymm, hequiv⟩
    exact ⟨fun R hR => denotes_ppartcnstrDisjunction hlevels hR, hrem,
      fun h => denotes_of_fSubsume hlevels h, fun h => not_denotes_of_fOverlap hlevels h, hsymm,
      hequiv⟩

/-- Constraints on a level with the key values 0 to 3, as the sets of these. -/
def fourKeys : LevelConstraints (Finset (Fin 4)) (Fin 4) where
  sat c v := v ∈ c
  IsConstraintUnbounded c := c = Finset.univ
  FContradiction c := c = ∅
  Equals c d := c = d
  Contains c d := d ⊆ c
  PcnstrConjunction c d := c ∩ d
  PcnstrDisjunction c d := c ∪ d
  CConstraintNegation c := cᶜ
  unbounded c h v := by simp [of_decide_eq_true h]
  contradiction c := by simp [Finset.eq_empty_iff_forall_notMem]
  equals c d := by simp [Finset.ext_iff]
  contains c d := by simp [Finset.subset_iff]
  conjunction := by simp
  disjunction := by simp
  negation := by simp

/-- Two levels, with a constraint on the first one. -/
def onFirstLevel (first : Finset (Fin 4)) (defaults : Finset ℕ) (is_unbounded : Bool) :
    CPartConstraint (Finset (Fin 4)) :=
  ⟨[(0, first), (1, Finset.univ)], defaults, 2, is_unbounded, Nat.two_pos⟩

/-- Key values 0 and 1, and 1 and 2, both with the default partition of the second level. -/
theorem algebra_iff_sameDefaults :
    Algebra fourKeys (onFirstLevel {0, 1} {1} false) (onFirstLevel {1, 2} {1} false) := by
  refine (algebra_iff fourKeys (onFirstLevel {0, 1} {1} false) (onFirstLevel {1, 2} {1} false)
    rfl).2 ⟨fun _ => ?_, fun _ => rfl⟩
  rw [TakesAway, if_neg (by decide), if_neg (by decide)]
  intro ul hpos hlt _ hdefault
  have hul : ul = 1 := by
    have hlt : ul < 2 := hlt
    omega
  subst hul
  cases hdefault

/-- Taking away a constraint without the default partition of the second level loses that partition.
And one of two constraints that are the same but for the flag is equivalent to the other, which is
not equivalent to it. -/
theorem not_algebra_defaults :
    (∃ R, (onFirstLevel {0, 1} {1} false).PpartcnstrRemaining fourKeys
        (onFirstLevel {0, 1} ∅ false) = some R ∧
      (onFirstLevel {0, 1} {1} false).Denotes fourKeys (fun ul => if ul = 0 then some 0 else none) ∧
      ¬(onFirstLevel {0, 1} ∅ false).Denotes fourKeys (fun ul => if ul = 0 then some 0 else none) ∧
      ¬R.Denotes fourKeys (fun ul => if ul = 0 then some 0 else none)) ∧
    (onFirstLevel {0, 1} {0, 1} false).FEquivalent fourKeys (onFirstLevel {0, 1} {0, 1} true) =
      true ∧
    (onFirstLevel {0, 1} {0, 1} true).FEquivalent fourKeys (onFirstLevel {0, 1} {0, 1} false) =
      false := by
  refine ⟨⟨_, rfl, ?_, ?_, ?_⟩, by decide, by decide⟩
  · refine .inr fun ul hul => ?_
    have hul : ul < 2 := hul
    interval_cases ul
    · rintro pcnstr ⟨⟩
      exact (by decide : (0 : Fin 4) ∈ ({0, 1} : Finset (Fin 4)))
    · exact (by decide : (onFirstLevel {0, 1} {1} false).IsDefaultPartition 1 = true)
  · rw [denotes_iff rfl]
    intro h
    have hdefault : (onFirstLevel {0, 1} ∅ false).IsDefaultPartition 1 = true := h 1 Nat.one_lt_two
    exact absurd hdefault (by decide)
  · rw [denotes_iff rfl]
    intro h
    have hmem : (0 : Fin 4) ∈ ({0, 1} ∩ {0, 1}ᶜ : Finset (Fin 4)) := h 0 Nat.two_pos _ rfl
    exact absurd hmem (by decide)

end CPartConstraint

end BossOptimizer

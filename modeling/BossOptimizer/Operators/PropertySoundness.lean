import BossOptimizer.Base.ConstraintSoundness
import BossOptimizer.Operators.CPropConstraint

/-!
# What a property constraint promises

A property is sound over a set of columns and a set of rows when its constraint and its classes are
on these columns and hold in these rows. The rules of the operators keep this: collecting, merging
and intersecting classes, restricting to columns, and restating columns at set operations.
-/

namespace BossOptimizer

open CConstraint CPropConstraint

variable {D : Type} [LinearOrder D]

/-! ## Classes -/

omit [LinearOrder D] in
theorem classesHold_congr {S : Set CColRef} {pdrgpcrs : ColRefSets} (hw : ClassesWithin S pdrgpcrs)
    {r s : Row D} (hrs : AgreeOn S r s) (h : classesHold pdrgpcrs s) : classesHold pdrgpcrs r := by
  intro pcrs hpcrs x hx y hy
  rw [hrs x (hw pcrs hpcrs x hx), hrs y (hw pcrs hpcrs y hy)]
  exact h pcrs hpcrs x hx y hy

/-- The classes are parts of given classes. -/
def PartsOf (parts pdrgpcrs : ColRefSets) : Prop := ∀ p ∈ parts, ∃ q ∈ pdrgpcrs, p ⊆ q

theorem PartsOf.trans {p q r : ColRefSets} (hpq : PartsOf p q) (hqr : PartsOf q r) :
    PartsOf p r := by
  intro x hx
  obtain ⟨y, hy, hxy⟩ := hpq x hx
  obtain ⟨z, hz, hyz⟩ := hqr y hy
  exact ⟨z, hz, fun c hc => hyz (hxy hc)⟩

theorem PartsOf.within {S : Set CColRef} {parts pdrgpcrs : ColRefSets}
    (h : PartsOf parts pdrgpcrs) (hw : ClassesWithin S pdrgpcrs) : ClassesWithin S parts := by
  intro p hp c hc
  obtain ⟨q, hq, hpq⟩ := h p hp
  exact hw q hq c (hpq hc)

omit [LinearOrder D] in
theorem PartsOf.holds {parts pdrgpcrs : ColRefSets} (h : PartsOf parts pdrgpcrs) {r : Row D}
    (hr : classesHold pdrgpcrs r) : classesHold parts r := by
  intro p hp x hx y hy
  obtain ⟨q, hq, hpq⟩ := h p hp
  exact hr q hq x (hpq hx) y (hpq hy)

theorem intersectProbe_parts {fst : ColRefSets} {pcrsSnd : List CColRef} {snd : ColRefSets}
    (hsnd : pcrsSnd ∈ snd) (cols : List CColRef) (state : ColRefSets × List CColRef)
    (h : PartsOf state.1 fst ∧ PartsOf state.1 snd) :
    PartsOf (intersectProbe fst pcrsSnd cols state).1 fst ∧
      PartsOf (intersectProbe fst pcrsSnd cols state).1 snd := by
  induction cols generalizing state with
  | nil => exact h
  | cons colref rest ih =>
    obtain ⟨pdrgpcrs, done⟩ := state
    rw [intersectProbe]
    split
    · next pcrs hfind =>
      split
      · exact ih _ h
      · refine ih _ ⟨?_, ?_⟩
        · intro p hp
          rcases List.mem_append.1 hp with hp | hp
          · exact h.1 p hp
          · rw [List.mem_singleton.1 hp]
            refine ⟨pcrs, List.mem_of_find?_eq_some hfind, fun c hc => ?_⟩
            simpa using (List.mem_filter.1 hc).2
        · intro p hp
          rcases List.mem_append.1 hp with hp | hp
          · exact h.2 p hp
          · rw [List.mem_singleton.1 hp]
            exact ⟨pcrsSnd, hsnd, fun c hc => List.mem_of_mem_filter hc⟩
    · exact ih _ h

/-- **Intersected classes are parts of the classes of both sides.** -/
theorem pdrgpcrsIntersectEquivClasses_parts (fst snd : ColRefSets) :
    PartsOf (pdrgpcrsIntersectEquivClasses fst snd) fst ∧
      PartsOf (pdrgpcrsIntersectEquivClasses fst snd) snd := by
  have hloop : ∀ (l : ColRefSets) (state : ColRefSets × List CColRef), (∀ p ∈ l, p ∈ snd) →
      PartsOf state.1 fst ∧ PartsOf state.1 snd →
      PartsOf (l.foldl (fun state pcrsSnd => intersectProbe fst pcrsSnd
        (pcrsSnd.insertionSort (·.id ≤ ·.id)) state) state).1 fst ∧
      PartsOf (l.foldl (fun state pcrsSnd => intersectProbe fst pcrsSnd
        (pcrsSnd.insertionSort (·.id ≤ ·.id)) state) state).1 snd := by
    intro l
    induction l with
    | nil => exact fun _ _ h => h
    | cons p l ih =>
      exact fun state hl h => ih _ (fun q hq => hl q (by simp [hq]))
        (intersectProbe_parts (hl p (by simp)) _ _ h)
  unfold pdrgpcrsIntersectEquivClasses
  split
  · simp [PartsOf]
  · exact hloop snd _ (fun _ hp => hp) (by simp [PartsOf])

theorem intersectClasses_parts (pdrgpcrs : ColRefSets) (pcrs : List CColRef) :
    PartsOf (intersectClasses pdrgpcrs pcrs) pdrgpcrs ∧
      ∀ p ∈ intersectClasses pdrgpcrs pcrs, p ⊆ pcrs := by
  refine ⟨fun p hp => ?_, fun p hp => ?_⟩ <;>
    obtain ⟨cls, hcls, hp⟩ := List.mem_filterMap.1 hp <;>
    simp only [Option.ite_none_left_eq_some, Option.some.injEq] at hp <;>
    obtain ⟨-, rfl⟩ := hp
  · exact ⟨cls, hcls, fun c hc => List.mem_of_mem_filter hc⟩
  · exact fun c hc => by simpa using (List.mem_filter.1 hc).2

/-! ## Soundness of a property -/

namespace CPropConstraint

/-- Classes and constraints on a set of columns that hold in a set of rows. -/
structure CollectedSound (S : Set CColRef) (P : Row D → Prop) (acc : Collected D) : Prop where
  classesWithin : ClassesWithin S acc.1
  within : ∀ K ∈ acc.2, Within S K
  regular : ∀ K ∈ acc.2, K.Regular
  classes : ∀ r, P r → classesHold acc.1 r
  sat : ∀ r, P r → ∀ K ∈ acc.2, K.sat r

/-- The same of a property. -/
def Sound (S : Set CColRef) (P : Row D → Prop) (ppc : CPropConstraint D) : Prop :=
  CollectedSound S P (ppc.pdrgpcrs, ppc.pcnstr.toList)

variable {S S' : Set CColRef} {P P' : Row D → Prop} {acc : Collected D} {ppc : CPropConstraint D}
  {fArrayConstraints : Bool} {arrayExpansionThreshold : ℕ}

theorem collectedSound_nil : CollectedSound S P (([], []) : Collected D) :=
  ⟨by simp, by simp, by simp, by simp, by simp⟩

theorem sound_none : Sound S P (⟨[], none⟩ : CPropConstraint D) := collectedSound_nil

/-- Rows that agree with sound rows on the columns of a property. -/
theorem CollectedSound.transfer (h : CollectedSound S P acc) (hS : S ⊆ S')
    (hP : ∀ r, P' r → ∃ s, P s ∧ AgreeOn S r s) : CollectedSound S' P' acc where
  classesWithin p hp c hc := hS (h.classesWithin p hp c hc)
  within K hK := ⟨(h.within K hK).1, fun x hx => hS ((h.within K hK).2 x hx)⟩
  regular := h.regular
  classes r hr := by
    obtain ⟨s, hs, hrs⟩ := hP r hr
    exact classesHold_congr h.classesWithin hrs (h.classes s hs)
  sat r hr K hK := by
    obtain ⟨s, hs, hrs⟩ := hP r hr
    exact (sat_congr K fun x hx => hrs x ((h.within K hK).2 x hx)).2 (h.sat s hs K hK)

theorem Sound.transfer (h : Sound S P ppc) (hS : S ⊆ S')
    (hP : ∀ r, P' r → ∃ s, P s ∧ AgreeOn S r s) : Sound S' P' ppc :=
  CollectedSound.transfer h hS hP

theorem CollectedSound.addChild (h : CollectedSound S P acc) (hppc : Sound S P ppc) :
    CollectedSound S P (addChild acc ppc) where
  classesWithin := pdrgpcrsMergeEquivClasses_within h.classesWithin hppc.classesWithin
  within K hK := (List.mem_append.1 hK).elim (h.within K) (hppc.within K)
  regular K hK := (List.mem_append.1 hK).elim (h.regular K) (hppc.regular K)
  classes r hr := pdrgpcrsMergeEquivClasses_holds (h.classes r hr) (hppc.classes r hr)
  sat r hr K hK := (List.mem_append.1 hK).elim (h.sat r hr K) (hppc.sat r hr K)

theorem CollectedSound.addChildren (h : CollectedSound S P acc)
    {children : List (CPropConstraint D)} (hchildren : ∀ ppc ∈ children, Sound S P ppc) :
    CollectedSound S P (children.foldl CPropConstraint.addChild acc) := by
  induction children generalizing acc with
  | nil => exact h
  | cons ppc children ih =>
    exact ih (h.addChild (hchildren ppc (by simp))) fun ppc hppc => hchildren ppc (by simp [hppc])

/-- A predicate that is true in the rows and from which the derivation is safe. -/
theorem CollectedSound.addPredicate {I : Interpretation D} {m : Bool} {e : ScalarExpr D}
    (h : CollectedSound S P acc) {acc' : Collected D}
    (hadd : addPredicate fArrayConstraints arrayExpansionThreshold m acc e = .ok acc')
    (hsafe : safe fArrayConstraints arrayExpansionThreshold true m e)
    (hS : ∀ c ∈ e.usedColumns, c ∈ S) (hnull : ∀ r, P r → NotNullFor m e r)
    (hP : ∀ r, P r → CConstraintInterval.satisfied I m e r) : CollectedSound S P acc' := by
  simp only [CPropConstraint.addPredicate, bind_eq_ok] at hadd
  obtain ⟨⟨o, cls⟩, hd, hadd⟩ := hadd
  obtain ⟨hK, hcls⟩ := pcnstrFromScalarExpr_right (I := I) hsafe hd
  cases o with
  | none => cases hadd; exact h
  | some K =>
    cases cls with
    | none => cases hadd
    | some cls =>
      cases hadd
      obtain ⟨hwithin, hreg, hsat⟩ := hK K rfl
      obtain ⟨hcw, hcr⟩ := hcls rfl cls rfl
      have hppc : Sound S P ⟨cls, some K⟩ := by
        refine ⟨fun p hp c hc => hS c (hcw p hp c hc), ?_, by simpa using hreg,
          fun r hr => hcr r (hnull r hr) (hP r hr), fun r hr => ?_⟩
        · simpa using ⟨hwithin.1, fun x hx => hS x (hwithin.2 x hx)⟩
        · simpa using hsat r (hnull r hr) (hP r hr)
      exact h.addChild hppc

theorem ofCollected_sound (h : CollectedSound S P acc)
    (hof : ofCollected fArrayConstraints acc = .ok ppc) : Sound S P ppc := by
  simp only [ofCollected, bind_eq_ok, pure_eq_ok] at hof
  obtain ⟨o, ho, rfl⟩ := hof
  have hwf : ∀ K ∈ acc.2, K.WellFormed := fun K hK => (h.within K hK).1
  cases o with
  | none => exact ⟨h.classesWithin, by simp, by simp, h.classes, by simp⟩
  | some K =>
    refine ⟨h.classesWithin, ?_, ?_, h.classes, fun r hr => ?_⟩
    · simpa using pcnstrConjDisj_within h.within ho
    · simpa using pcnstrConjDisj_regular h.regular ho
    · simp only [Option.toList_some, List.mem_singleton, forall_eq]
      rw [pcnstrConjDisj_sat hwf h.regular ho]
      exact h.sat r hr

/-- Relational children and a predicate. -/
theorem fromPredicates_sound {I : Interpretation D} {children : List (CPropConstraint D)}
    {e : ScalarExpr D} (hchildren : ∀ ppc ∈ children, Sound S P ppc)
    (hsafe : e.fPredicate = true → safe fArrayConstraints arrayExpansionThreshold true false e)
    (hS : ∀ c ∈ e.usedColumns, c ∈ S) (hP : ∀ r, P r → isTrue I e r = true)
    (h : fromPredicates fArrayConstraints arrayExpansionThreshold children e = .ok ppc) :
    Sound S P ppc := by
  have hacc := collectedSound_nil.addChildren hchildren
  rw [fromPredicates] at h
  split at h
  · next hpred =>
    obtain ⟨acc', hadd, h⟩ := bind_eq_ok.1 h
    refine ofCollected_sound (hacc.addPredicate (I := I) hadd (hsafe hpred) hS ?_ ?_) h
    · exact fun r _ hm => by cases hm
    · exact fun r hr => isTrue_iff.1 (hP r hr)
  · exact ofCollected_sound hacc h

/-! ## Restriction to columns -/

theorem mem_constraintsOn {K : CConstraint D} {cols : List CColRef} {l : List (CConstraint D)}
    (h : constraintsOn fArrayConstraints K cols = .ok l) : ∀ c ∈ l, ∃ colref ∈ cols,
      K.pcnstr fArrayConstraints colref = .ok (some c) := by
  induction cols generalizing l with
  | nil => cases h; simp
  | cons colref rest ih =>
    simp only [constraintsOn, bind_eq_ok] at h
    obtain ⟨o, ho, h⟩ := h
    have hrest : ∀ {l'}, constraintsOn fArrayConstraints K rest = .ok l' → ∀ c ∈ l',
        ∃ col ∈ colref :: rest, K.pcnstr fArrayConstraints col = .ok (some c) := by
      intro l' hl' c hc
      obtain ⟨col, hcol, hK⟩ := ih hl' c hc
      exact ⟨col, by simp [hcol], hK⟩
    cases o with
    | none => exact hrest h
    | some c =>
      simp only at h
      split at h
      · exact hrest h
      · simp only [bind_eq_ok, pure_eq_ok] at h
        obtain ⟨l', hl', rfl⟩ := h
        intro c' hc'
        rcases List.mem_cons.1 hc' with rfl | hc'
        · exact ⟨colref, by simp, ho⟩
        · exact hrest hl' c' hc'

theorem mem_colRefSetIter {cols : List CColRef} {c : CColRef} : c ∈ colRefSetIter cols ↔ c ∈ cols := by
  simp [colRefSetIter, List.mem_insertionSort]

/-- Nothing is left on no columns. -/
theorem restrict_nil (ppc : CPropConstraint D) :
    restrict fArrayConstraints ppc [] = .ok ⟨[], none⟩ := by
  have hcls : intersectClasses ppc.pdrgpcrs [] = [] := by simp [intersectClasses]
  rw [restrict, hcls]
  cases ppc.pcnstr <;> rfl

theorem restrict_sound {cols : List CColRef} {ppc' : CPropConstraint D} (h : Sound S P ppc)
    (hr : restrict fArrayConstraints ppc cols = .ok ppc') : Sound {c | c ∈ cols} P ppc' := by
  obtain ⟨hparts, hsub⟩ := intersectClasses_parts ppc.pdrgpcrs cols
  have hcw : ClassesWithin {c | c ∈ cols} (intersectClasses ppc.pdrgpcrs cols) :=
    fun p hp c hc => hsub p hp hc
  have hcls : ∀ r, P r → classesHold (intersectClasses ppc.pdrgpcrs cols) r :=
    fun r hP => hparts.holds (h.classes r hP)
  rw [restrict] at hr
  split at hr
  · cases hr
    exact ⟨hcw, by simp, by simp, hcls, by simp⟩
  · next K hK =>
    obtain ⟨l, hl, hr⟩ := bind_eq_ok.1 hr
    have hKmem : K ∈ ppc.pcnstr.toList := by simp [hK]
    have hwf := (h.within K hKmem).1
    have hmem := mem_constraintsOn hl
    refine ofCollected_sound ⟨hcw, fun c hc => ?_, fun c hc => ?_, hcls, fun r hP c hc => ?_⟩ hr
    · obtain ⟨col, hcol, hKc⟩ := hmem c hc
      obtain ⟨hcwf, hcols⟩ := pcnstr_within hwf hKc
      exact ⟨hcwf, fun x hx => by rw [show x = col from hcols x hx]; exact mem_colRefSetIter.1 hcol⟩
    · obtain ⟨col, -, hKc⟩ := hmem c hc
      exact pcnstr_regular hwf hKc
    · obtain ⟨col, -, hKc⟩ := hmem c hc
      exact (pcnstr_partOf hwf hKc r).1 (h.sat r hP K hKmem) c rfl

end CPropConstraint

end BossOptimizer

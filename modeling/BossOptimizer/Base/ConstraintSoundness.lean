import BossOptimizer.Base.ConstraintDerivation
import BossOptimizer.Base.ConstraintContainment
import BossOptimizer.Base.IntervalSoundness

/-!
# Soundness of `PcnstrFromScalarExpr` over rows

A row that satisfies a predicate should satisfy the derived constraint, and its columns in one
equivalence class should be equal. As for intervals the derivation has to be right from the other
side below a NOT, and there it often is not: a comparison of two columns is abstracted to "both
are not NULL", AND drops conjuncts, and NOT derives its child in the same null mode although
negation swaps true and "not false".

`safe` walks the predicate with the side and the null mode and excludes these places. Where a
child has no constraint its parent passes over it, so only children with a constraint are walked.
-/

namespace BossOptimizer

open CConstraintInterval (admits admits_bot admits_coe converts reading satisfied RightFrom
  rightFrom_of_iff noDefect aboveNull cmpHolds)

variable {D : Type} [LinearOrder D]

/-! ## Equivalence classes -/

/-- In each class all columns are equal. -/
def classesHold (pdrgpcrs : ColRefSets) (row : Row D) : Prop :=
  ∀ pcrs ∈ pdrgpcrs, ∀ x ∈ pcrs, ∀ y ∈ pcrs, row x = row y

attribute [local simp] CConstraint.pcnstrFromScalarExpr CConstraint.boolOpChildren in
omit [LinearOrder D] in
@[simp] theorem classesHold_nil (row : Row D) : classesHold [] row := by simp [classesHold]

omit [LinearOrder D] in
theorem classesHold_append {l l' : ColRefSets} {row : Row D} (h : classesHold l row)
    (h' : classesHold l' row) : classesHold (l ++ l') row := by
  intro pcrs hpcrs
  rcases List.mem_append.1 hpcrs with hp | hp
  · exact h pcrs hp
  · exact h' pcrs hp

omit [LinearOrder D] in
/-- A class absorbs another one through a common column. -/
theorem addEquivClassLoop_holds {row : Row D} (pdrgpcrs : ColRefSets) :
    ∀ (pcrsCopy : List CColRef) (pdrgpcrsNew : ColRefSets), classesHold [pcrsCopy] row →
      classesHold pdrgpcrs row → classesHold pdrgpcrsNew row →
      classesHold (addEquivClassLoop pcrsCopy pdrgpcrs pdrgpcrsNew) row := by
  induction pdrgpcrs with
  | nil => exact fun _ _ hcopy _ hnew => classesHold_append hnew hcopy
  | cons pcrs pdrgpcrs ih =>
    intro pcrsCopy pdrgpcrsNew hcopy hold hnew
    have hpcrs : ∀ x ∈ pcrs, ∀ y ∈ pcrs, row x = row y := hold pcrs (by simp)
    have hrest : classesHold pdrgpcrs row := fun p hp => hold p (by simp [hp])
    rw [addEquivClassLoop]
    split
    · refine ih pcrsCopy _ hcopy hrest (classesHold_append hnew ?_)
      intro p hp
      rw [List.mem_singleton.1 hp]
      exact hpcrs
    · next hmeet =>
      refine ih _ _ ?_ hrest hnew
      have hcopy : ∀ x ∈ pcrsCopy, ∀ y ∈ pcrsCopy, row x = row y := hcopy pcrsCopy (by simp)
      obtain ⟨z, hz, hzp⟩ : ∃ z ∈ pcrsCopy, z ∈ pcrs := by simpa using hmeet
      have hall : ∀ x ∈ pcrsCopy ++ pcrs, row x = row z := by
        intro x hx
        rcases List.mem_append.1 hx with hx | hx
        · exact hcopy x hx z hz
        · exact hpcrs x hx z hzp
      intro p hp
      rw [List.mem_singleton.1 hp]
      exact fun x hx y hy => (hall x hx).trans (hall y hy).symm

omit [LinearOrder D] in
theorem pdrgpcrsMergeEquivClasses_holds {row : Row D} {fst snd : ColRefSets}
    (hfst : classesHold fst row) (hsnd : classesHold snd row) :
    classesHold (pdrgpcrsMergeEquivClasses fst snd) row := by
  unfold pdrgpcrsMergeEquivClasses
  induction snd generalizing fst with
  | nil => exact hfst
  | cons pcrs snd ih =>
    refine ih (addEquivClassLoop_holds fst pcrs [] ?_ hfst (by simp)) fun p hp =>
      hsnd p (by simp [hp])
    intro p hp
    rw [List.mem_singleton.1 hp]
    exact hsnd pcrs (by simp)

/-- The classes are on columns of a set. -/
def ClassesWithin (S : Set CColRef) (pdrgpcrs : ColRefSets) : Prop :=
  ∀ pcrs ∈ pdrgpcrs, ∀ c ∈ pcrs, c ∈ S

@[simp] theorem classesWithin_nil (S : Set CColRef) : ClassesWithin S [] := by
  simp [ClassesWithin]

variable {S : Set CColRef}

@[simp] theorem classesWithin_singleton {pcrs : List CColRef} :
    ClassesWithin S [pcrs] ↔ ∀ c ∈ pcrs, c ∈ S := by
  simp [ClassesWithin]

theorem ClassesWithin.append {l l' : ColRefSets} (h : ClassesWithin S l)
    (h' : ClassesWithin S l') : ClassesWithin S (l ++ l') := by
  intro pcrs hpcrs
  rcases List.mem_append.1 hpcrs with hp | hp
  · exact h pcrs hp
  · exact h' pcrs hp

theorem addEquivClassLoop_within (pdrgpcrs : ColRefSets) :
    ∀ (pcrsCopy : List CColRef) (pdrgpcrsNew : ColRefSets), ClassesWithin S [pcrsCopy] →
      ClassesWithin S pdrgpcrs → ClassesWithin S pdrgpcrsNew →
      ClassesWithin S (addEquivClassLoop pcrsCopy pdrgpcrs pdrgpcrsNew) := by
  induction pdrgpcrs with
  | nil => exact fun _ _ hcopy _ hnew => hnew.append hcopy
  | cons pcrs pdrgpcrs ih =>
    intro pcrsCopy pdrgpcrsNew hcopy hold hnew
    have hpcrs : ClassesWithin S [pcrs] := fun p hp => hold p (by simp_all)
    have hrest : ClassesWithin S pdrgpcrs := fun p hp => hold p (by simp [hp])
    rw [addEquivClassLoop]
    split
    · exact ih pcrsCopy _ hcopy hrest (hnew.append hpcrs)
    · refine ih _ _ (fun p hp c hc => ?_) hrest hnew
      rw [List.mem_singleton.1 hp] at hc
      rcases List.mem_append.1 hc with hc | hc
      · exact hcopy pcrsCopy (by simp) c hc
      · exact hpcrs pcrs (by simp) c hc

theorem pdrgpcrsMergeEquivClasses_within {fst snd : ColRefSets} (hfst : ClassesWithin S fst)
    (hsnd : ClassesWithin S snd) :
    ClassesWithin S (pdrgpcrsMergeEquivClasses fst snd) := by
  unfold pdrgpcrsMergeEquivClasses
  induction snd generalizing fst with
  | nil => exact hfst
  | cons pcrs snd ih =>
    refine ih (addEquivClassLoop_within fst pcrs [] ?_ hfst (by simp)) fun p hp =>
      hsnd p (by simp [hp])
    intro p hp
    rw [List.mem_singleton.1 hp]
    exact hsnd pcrs (by simp)

@[simp] theorem pdrgpcrsIntersectEquivClasses_nil (snd : ColRefSets) :
    pdrgpcrsIntersectEquivClasses [] snd = [] := by
  simp [pdrgpcrsIntersectEquivClasses]

/-! ## Where the derivation is right -/

mutual

/-- The predicate is never unknown. -/
def twoValued : ScalarExpr D → Bool
  | .const value => value.isSome
  | .nullTest _ => true
  | .isDistinctFrom _ _ => true
  | .boolOp op children => (op ≠ .not || !children.isEmpty) && twoValuedAll children
  | _ => false

def twoValuedAll : List (ScalarExpr D) → Bool
  | [] => true
  | e :: es => twoValued e && twoValuedAll es

end

attribute [local simp] twoValued twoValuedAll in
omit [LinearOrder D] in
@[simp] theorem twoValuedAll_iff (es : List (ScalarExpr D)) :
    twoValuedAll es = true ↔ ∀ e ∈ es, twoValued e = true := by
  induction es with
  | nil => simp [twoValuedAll]
  | cons e es ih => simp [twoValuedAll, ih]

variable {I : Interpretation D}

/-- On a predicate that is never unknown the null mode does not matter. -/
theorem satisfied_of_twoValued {e : ScalarExpr D} (h : twoValued e = true) (m m' : Bool)
    (row : Row D) : satisfied I m e row ↔ satisfied I m' e row := by
  induction e using ScalarExpr.induction generalizing m m' with
  | const value =>
    obtain ⟨b, rfl⟩ := Option.isSome_iff_exists.1 (by simpa [twoValued] using h)
    simp [satisfied, ScalarExpr.eval]
  | nullTest child | isDistinctFrom left right => simp [satisfied, ScalarExpr.eval]
  | cmp | arrayCmp | other => simp [twoValued] at h
  | boolOp op children ih =>
    simp only [twoValued, Bool.and_eq_true, twoValuedAll_iff] at h
    have key : ∀ e ∈ children, ∀ m m', (e.eval I row).holds m ↔ (e.eval I row).holds m' :=
      fun e he m m' => ih e he (h.2 e he) m m'
    cases op with
    | and =>
      simp only [satisfied, ScalarExpr.eval, EBoolOperator.eval, ScalarExpr.evalAll_eq_map,
        Truth.holds_all, List.forall_mem_map]
      exact forall₂_congr fun e he => key e he m m'
    | or =>
      simp only [satisfied, ScalarExpr.eval, EBoolOperator.eval, ScalarExpr.evalAll_eq_map,
        Truth.holds_any, List.mem_map, exists_exists_and_eq_and]
      exact exists_congr fun e => and_congr_right fun he => key e he m m'
    | not =>
      cases children with
      | nil => simp at h
      | cons e es =>
        simp only [satisfied, ScalarExpr.eval, EBoolOperator.eval, ScalarExpr.evalAll_eq_map,
          List.map_cons, Truth.holds_not]
        exact not_congr (key e (by simp) _ _)

namespace CConstraint

variable (fArrayConstraints : Bool) (arrayExpansionThreshold : ℕ)

/-- The derivation finds a constraint. -/
def hasConstraint (inferNullsAs : Bool) (e : ScalarExpr D) : Prop :=
  ∃ K pdrgpcrs, pcnstrFromScalarExpr fArrayConstraints arrayExpansionThreshold e inferNullsAs =
    .ok (some K, pdrgpcrs)

/-- A predicate over one column: its interval has none of the defects of intervals, or the
    elements of its array are compared on the right side. -/
def columnSafe (fOver inferNullsAs : Bool) (colref : CColRef) (e : ScalarExpr D) : Prop :=
  colref.fConstrainable = true →
  if converts fArrayConstraints colref e then
    noDefect fArrayConstraints colref fOver inferNullsAs e = true
  else
    match e with
    | .arrayCmp _ cmpType left coerced array =>
      cmpType ≠ .other → ∀ datums ∈ CConstraintInterval.compareIdentToConstArray left coerced array,
        datums.length ≤ arrayExpansionThreshold → ⊥ ∈ datums →
          inferNullsAs ≠ fOver ∨ aboveNull cmpType = fOver
    | _ => True

mutual

/-- The derivation is right from a side. -/
def safe (fOver inferNullsAs : Bool) : ScalarExpr D → Prop
  | .boolOp op children =>
    match exprColumns (.boolOp op children) with
    | [] => True
    | [colref] =>
      columnSafe fArrayConstraints arrayExpansionThreshold fOver inferNullsAs colref
        (.boolOp op children)
    | _ =>
      match op with
      | .and => safeAll fOver inferNullsAs children ∧ (fOver = false →
          ∀ e ∈ children, hasConstraint fArrayConstraints arrayExpansionThreshold inferNullsAs e)
      | .or =>
        -- a disjunct without a constraint ends the OR
        children.length ≤ arrayExpansionThreshold →
        (∀ e ∈ children,
          hasConstraint fArrayConstraints arrayExpansionThreshold inferNullsAs e) →
        safeAll fOver inferNullsAs children
      | .not => safeNot fOver inferNullsAs children
  | .cmp cmpType left right =>
    match exprColumns (.cmp cmpType left right) with
    | [] => True
    | [colref] =>
      columnSafe fArrayConstraints arrayExpansionThreshold fOver inferNullsAs colref
        (.cmp cmpType left right)
    | _ =>
      -- a comparison of two columns is abstracted, and computed columns never include NULL
      ∀ pcrLeft ∈ left.identOrCast, ∀ pcrRight ∈ right.identOrCast,
        pcrLeft.fConstrainable = true → pcrRight.fConstrainable = true → fOver = true ∧
          (inferNullsAs = true → pcrLeft.fTable = true ∧ pcrRight.fTable = true)
  | e =>
    match exprColumns e with
    | [colref] => columnSafe fArrayConstraints arrayExpansionThreshold fOver inferNullsAs colref e
    | _ => True

/-- The children that have a constraint. -/
def safeAll (fOver inferNullsAs : Bool) : List (ScalarExpr D) → Prop
  | [] => True
  | e :: es => (hasConstraint fArrayConstraints arrayExpansionThreshold inferNullsAs e →
      safe fOver inferNullsAs e) ∧ safeAll fOver inferNullsAs es

/-- NOT has one child, derived in the same null mode and negated as it is. -/
def safeNot (fOver inferNullsAs : Bool) : List (ScalarExpr D) → Prop
  | [child] => hasConstraint fArrayConstraints arrayExpansionThreshold inferNullsAs child →
      safe (!fOver) inferNullsAs child ∧ (inferNullsAs ≠ fOver ∨ twoValued child = true) ∧
      ∀ K pdrgpcrs, pcnstrFromScalarExpr fArrayConstraints arrayExpansionThreshold child
        inferNullsAs = .ok (some K, pdrgpcrs) → (negation K).Regular
  | _ => False

end

/-! ## One column -/

/-- A row holds no NULL in a table column declared NOT NULL. -/
def RespectsNotNull (row : Row D) : Prop :=
  ∀ colref : CColRef, colref.fTable = true → colref.isNullable = false → row colref ≠ ⊥

/-- The same for the columns of a predicate, and only where unknown counts: an outer join may
    put NULL into a column declared NOT NULL. -/
def NotNullFor (m : Bool) (e : ScalarExpr D) (row : Row D) : Prop :=
  m = true → ∀ colref ∈ e.usedColumns, colref.fTable = true → colref.isNullable = false →
    row colref ≠ ⊥

variable {row : Row D}

attribute [local simp] safe safeAll safeNot in
omit [LinearOrder D] in
theorem RespectsNotNull.notNullFor (h : RespectsNotNull row) (m : Bool)
    (e : ScalarExpr D) : NotNullFor m e row := fun _ colref _ => h colref

variable {children : List (ScalarExpr D)} {e : ScalarExpr D} {op : EBoolOperator}

variable {m : Bool}

omit [LinearOrder D] in
theorem NotNullFor.child
    (h : NotNullFor m (.boolOp op children) row)
    (he : e ∈ children) : NotNullFor m e row := by
  intro hm colref hcol
  exact h hm colref (ScalarExpr.mem_usedColumnsAll.2 ⟨e, he, hcol⟩)

/-- A constraint that is right for a predicate from a side, on columns of the predicate. -/
def Right (I : Interpretation D) (fOver m : Bool) (e : ScalarExpr D) (K : CConstraint D) : Prop :=
  Within {c | c ∈ e.usedColumns} K ∧ K.Regular ∧
    ∀ row, NotNullFor m e row → RightFrom fOver (satisfied I m e row) (K.sat row)

/-- Classes of columns of a predicate that hold in every row of it. -/
def ClassesRight (I : Interpretation D) (m : Bool) (e : ScalarExpr D) (pdrgpcrs : ColRefSets) :
    Prop :=
  ClassesWithin {c | c ∈ e.usedColumns} pdrgpcrs ∧
    ∀ row, NotNullFor m e row → satisfied I m e row → classesHold pdrgpcrs row

variable {fArrayConstraints} {arrayExpansionThreshold}

variable {colref : CColRef}

omit [LinearOrder D] in
theorem exprColumns_eq_singleton
    (h : exprColumns e = [colref]) : ∀ c ∈ e.usedColumns, c = colref := by
  intro c hc
  have hmem : c ∈ exprColumns e := List.mem_dedup.2 hc
  rwa [h, List.mem_singleton] at hmem

omit [LinearOrder D] in
theorem mem_of_exprColumns_eq_singleton
    (h : exprColumns e = [colref]) : colref ∈ e.usedColumns := by
  rw [← List.mem_dedup, show e.usedColumns.dedup = [colref] from h]
  exact List.mem_singleton_self colref

variable {fOver m : Bool}

theorem interval_right (hmem : colref ∈ e.usedColumns) (hcol : ∀ c ∈ e.usedColumns, c = colref)
    (hc : colref.fConstrainable = true)
    (hsafe : columnSafe fArrayConstraints arrayExpansionThreshold fOver m colref e)
    {K : CConstraintInterval (Datum D)}
    (h : CConstraintInterval.pciIntervalFromScalarExpr fArrayConstraints colref e m =
      .ok (some K)) : Right I fOver m e (.interval K) := by
  have hconv := CConstraintInterval.isSome_pciIntervalFromScalarExpr e m _ h
  obtain ⟨hwf, hpcr, hadm⟩ := CConstraintInterval.exact_reading e m K h
  replace hsafe := hsafe hc
  rw [if_pos (by rw [← hconv]; rfl)] at hsafe
  refine ⟨⟨.interval hwf (hpcr ▸ hc), fun x hx => ?_⟩, .interval K, fun row _ => ?_⟩
  · obtain rfl : x = colref := by simpa [columns, hpcr] using hx
    exact hmem
  have hright := CConstraintInterval.satisfied_rightFrom_reading (I := I) e fOver m _ hcol
    hconv.symm hsafe h row
  rw [sat, hpcr]
  cases fOver
  · exact fun hs => hright ((hadm _).1 hs)
  · exact fun hs => (hadm _).2 (hright hs)

variable {cmpType : ECmpType}

/-- The intervals of the elements of an array, compared one by one. -/
theorem elements_right (hc : colref.fConstrainable = true) (hother : cmpType ≠ .other)
    {datums : List (Datum D)} (hnull : ⊥ ∈ datums → m ≠ fOver ∨ aboveNull cmpType = fOver)
    {c : CConstraint D} (hcm : c ∈ datums.filterMap fun datum =>
      (CConstraintInterval.pciIntervalFromColConstCmp colref cmpType datum m).map interval) :
    ∃ datum ∈ datums, Within {colref} c ∧ c.Regular ∧ ∀ row,
      RightFrom fOver ((evalCmp I cmpType (row colref) datum).holds m) (c.sat row) := by
  obtain ⟨datum, hd, hmap⟩ := List.mem_filterMap.1 hcm
  obtain ⟨K, hK, rfl⟩ := Option.map_eq_some_iff.1 hmap
  obtain ⟨hwf, hpcr, hadm⟩ := CConstraintInterval.colConstCmp_exact hK
  refine ⟨datum, hd, ⟨.interval hwf (hpcr ▸ hc), fun x hx => by simpa [columns, hpcr] using hx⟩,
    .interval K, fun row => ?_⟩
  rw [sat, hpcr, hadm]
  exact CConstraintInterval.cmp_rightFrom hother (fun hbot => hnull (hbot ▸ hd)) _

variable {K : CConstraint D}

/-- A connective of the constraints of an array. -/
theorem arrayCmp_right {arr : EArrCmpType} {left : ScalarOperand D} {coerced : Bool}
    {array : List (ScalarOperand D)}
    (hmem : colref ∈ (ScalarExpr.arrayCmp arr cmpType left coerced array).usedColumns)
    (hcol : left.identOrCast = some colref) (hc : colref.fConstrainable = true)
    (hnull : cmpType ≠ .other →
      ∀ datums ∈ CConstraintInterval.compareIdentToConstArray left coerced array,
        datums.length ≤ arrayExpansionThreshold → ⊥ ∈ datums →
          m ≠ fOver ∨ aboveNull cmpType = fOver)
    (h : pcnstrFromScalarArrayCmp fArrayConstraints arrayExpansionThreshold colref arr cmpType left
      coerced array m = .ok (some K)) :
    Right I fOver m (.arrayCmp arr cmpType left coerced array) K := by
  unfold pcnstrFromScalarArrayCmp at h
  split at h
  · cases h
  next datums harray =>
  have heval : ∀ row, satisfied I m (.arrayCmp arr cmpType left coerced array) row ↔
      CConstraintInterval.quantify arr datums
        fun datum => (evalCmp I cmpType (row colref) datum).holds m := by
    intro row
    rw [satisfied, ScalarExpr.eval, CConstraintInterval.arrayEval_holds,
      CConstraintInterval.eval_of_identOrCast hcol,
      ← CConstraintInterval.eval_of_fScalarConstArray (I := I)
        (CConstraintInterval.fScalarConstArray_of_compare harray).1 row]
    cases arr <;> simp [CConstraintInterval.quantify]
  split at h
  · cases h
  next hother =>
  split at h
  · cases h
  next hlong =>
  replace hnull := hnull hother datums harray (by omega)
  split at h
  · next hlen =>
    -- ANY over no element is false
    have hnil : datums = [] := List.length_eq_zero_iff.1 hlen
    subst hnil
    cases arr with
    | all => simp at h
    | any =>
      simp only [if_true, Except.ok.injEq, Option.some.injEq] at h
      subst h
      refine ⟨⟨.interval CConstraintInterval.ordered_nil hc, fun x hx => ?_⟩, .interval _,
        fun row _ => ?_⟩
      · obtain rfl : x = colref := by simpa [columns] using hx
        exact hmem
      apply rightFrom_of_iff
      rw [heval, sat]
      cases row colref using WithBot.recBotCoe <;>
        simp [admits_bot, admits_coe, CConstraintInterval.quantify]
  · next hlen =>
    simp only [map_eq_ok, Option.some.injEq, exists_eq_right] at h
    have helem := fun c hcm => elements_right (I := I) hc hother hnull (c := c) hcm
    have hsome : ∀ datum ∈ datums, ∃ c ∈ datums.filterMap fun datum =>
        (CConstraintInterval.pciIntervalFromColConstCmp colref cmpType datum m).map interval,
        ∀ row, RightFrom fOver ((evalCmp I cmpType (row colref) datum).holds m) (sat c row) := by
      intro datum hd
      obtain ⟨K, hK⟩ := Option.isSome_iff_exists.1 (show
        (CConstraintInterval.pciIntervalFromColConstCmp colref cmpType datum m).isSome = true by
          rw [CConstraintInterval.isSome_pciIntervalFromColConstCmp]; simpa using hother)
      refine ⟨.interval K, List.mem_filterMap.2 ⟨datum, hd, by rw [hK]; rfl⟩, fun row => ?_⟩
      obtain ⟨-, hpcr, hadm⟩ := CConstraintInterval.colConstCmp_exact hK
      rw [sat, hpcr, hadm]
      exact CConstraintInterval.cmp_rightFrom hother
        (fun hbot => hnull (hbot ▸ hd)) _
    set l := datums.filterMap fun datum =>
      (CConstraintInterval.pciIntervalFromColConstCmp colref cmpType datum m).map interval with hl
    have hne : l ≠ [] := by
      obtain ⟨datum, hd⟩ := List.exists_mem_of_ne_nil datums fun hnil => hlen (by simp [hnil])
      obtain ⟨c, hcm, -⟩ := hsome datum hd
      exact List.ne_nil_of_mem hcm
    have hwithin : ∀ c ∈ l, Within {colref} c := fun c hcm => by
      obtain ⟨-, -, hw, -⟩ := helem c hcm
      exact hw
    have hreg : ∀ c ∈ l, c.Regular := fun c hcm => by
      obtain ⟨-, -, -, hr, -⟩ := helem c hcm
      exact hr
    have hK := ofConjDisj_within hne hwithin h
    refine ⟨⟨hK.1, fun x hx => ?_⟩, ofConjDisj_regular hreg h, fun row _ => ?_⟩
    · obtain rfl : x = colref := hK.2 x hx
      exact hmem
    have hsat := ofConjDisj_sat (fun c hcm => (hwithin c hcm).1) hreg h row
    have hright : ∀ c ∈ l, ∃ datum ∈ datums,
        RightFrom fOver ((evalCmp I cmpType (row colref) datum).holds m) (c.sat row) := by
      intro c hcm
      obtain ⟨datum, hd, -, -, hr⟩ := helem c hcm
      exact ⟨datum, hd, hr row⟩
    rw [RightFrom, heval, hsat]
    cases arr <;> cases fOver <;>
      simp only [CConstraintInterval.quantify, joined, decide_true, decide_false, reduceCtorEq,
        if_true, if_false, Bool.false_eq_true]
    · rintro ⟨c, hcm, hs⟩
      obtain ⟨datum, hd, hr⟩ := hright c hcm
      exact ⟨datum, hd, hr hs⟩
    · rintro ⟨datum, hd, hs⟩
      obtain ⟨c, hcm, hr⟩ := hsome datum hd
      exact ⟨c, hcm, hr row hs⟩
    · intro hs datum hd
      obtain ⟨c, hcm, hr⟩ := hsome datum hd
      exact hr row (hs c hcm)
    · intro hs c hcm
      obtain ⟨datum, hd, hr⟩ := hright c hcm
      exact hr (hs datum hd)

variable {pdrgpcrs : Option ColRefSets}

/-- The derivation over one column. -/
theorem pcnstrFromColumn_right (hmem : colref ∈ e.usedColumns)
    (hcol : ∀ c ∈ e.usedColumns, c = colref)
    (hsafe : columnSafe fArrayConstraints arrayExpansionThreshold fOver m colref e)
    (h : pcnstrFromColumn fArrayConstraints arrayExpansionThreshold colref e m =
      .ok (some K, pdrgpcrs)) : Right I fOver m e K := by
  unfold pcnstrFromColumn at h
  split at h
  · cases h
  next hc =>
  replace hc : colref.fConstrainable = true := by simpa using hc
  simp only [bind_eq_ok, pure_eq_ok, Prod.mk.injEq] at h
  obtain ⟨o, ho, rfl, -⟩ := h
  simp only [pcnstrOnColumn, bind_eq_ok] at ho
  obtain ⟨pci, hpci, ho⟩ := ho
  cases pci with
  | some pci =>
    cases ho
    exact interval_right hmem hcol hc hsafe hpci
  | none =>
    have hconv := CConstraintInterval.isSome_pciIntervalFromScalarExpr e m _ hpci
    replace hsafe := hsafe hc
    rw [if_neg (by rw [← hconv]; simp)] at hsafe
    cases e with
    | arrayCmp arr cmpType left coerced array =>
      simp only at ho hsafe
      obtain ⟨c, hident⟩ : ∃ c, left.identOrCast = some c := by
        unfold pcnstrFromScalarArrayCmp at ho
        split at ho
        · cases ho
        · next datums harray =>
          exact Option.isSome_iff_exists.1
            (CConstraintInterval.fScalarConstArray_of_compare harray).2
      obtain rfl : c = colref := hcol c (by
        simp [ScalarExpr.usedColumns,
          CConstraintInterval.mem_usedColumns_of_identOrCast hident])
      exact arrayCmp_right hmem hident hc hsafe ho
    | _ => cases ho

theorem pcnstrFromColumn_classes (hmem : colref ∈ e.usedColumns) {d : Derived D}
    (h : pcnstrFromColumn fArrayConstraints arrayExpansionThreshold colref e m = .ok d) :
    ∀ pdrgpcrs ∈ d.2, ClassesRight I m e pdrgpcrs := by
  unfold pcnstrFromColumn at h
  split at h
  · cases h; simp
  · simp only [bind_eq_ok, pure_eq_ok] at h
    obtain ⟨o, -, rfl⟩ := h
    simp only [Option.mem_some_iff, forall_eq']
    split
    · exact ⟨by simpa using hmem, fun row _ _ => by simp [classesHold]⟩
    · simp [ClassesRight]

theorem pcnstrFromColumn_classes_of_none
    (h : pcnstrFromColumn fArrayConstraints arrayExpansionThreshold colref e m =
      .ok (none, pdrgpcrs)) : ∀ cls ∈ pdrgpcrs, cls = [] := by
  unfold pcnstrFromColumn at h
  split at h
  · cases h; simp
  · simp only [bind_eq_ok, pure_eq_ok, Prod.mk.injEq] at h
    obtain ⟨o, -, rfl, rfl⟩ := h
    simp

/-! ## Two columns -/

theorem pciUnbounded_regular_within {n : Bool} {c : CConstraint D}
    (h : c ∈ ((CConstraintInterval.pciUnbounded colref n).map interval).toList) :
    Within {colref} c ∧ c.Regular ∧ ∀ row, c.sat row ↔ (row colref = ⊥ → n = true) := by
  obtain ⟨K, hK, rfl⟩ := Option.map_eq_some_iff.1 (Option.mem_toList.1 h)
  obtain ⟨-, hpcr, -, hn⟩ := CConstraintInterval.pciUnbounded_wellFormed hK
  refine ⟨pciUnbounded_within hK, .interval K, fun row => ?_⟩
  rw [sat, hpcr]
  cases row colref using WithBot.recBotCoe with
  | bot => simp [admits_bot, hn]
  | coe v => simpa [admits] using CConstraintInterval.mem_pciUnbounded hK (v : Datum D)

/-- A comparison of two columns holds only where both are not NULL or unknown counts. -/
theorem notNull_of_evalCmp {x y : Datum D}
    (h : (evalCmp I cmpType x y).holds false) : x ≠ ⊥ ∧ y ≠ ⊥ := by
  constructor
  · rintro rfl
    simp at h
  · rintro rfl
    simp at h


theorem pcnstrFromScalarCmp_right {left right : ScalarOperand D} {d : Derived D}
    (h : pcnstrFromScalarCmp fArrayConstraints cmpType left right m = .ok d)
    (hsafe : ∀ pcrLeft ∈ left.identOrCast, ∀ pcrRight ∈ right.identOrCast,
      pcrLeft.fConstrainable = true → pcrRight.fConstrainable = true → fOver = true ∧
        (m = true → pcrLeft.fTable = true ∧ pcrRight.fTable = true)) :
    (∀ K ∈ d.1, Right I fOver m (.cmp cmpType left right) K) ∧
      ∀ pdrgpcrs ∈ d.2, ClassesRight I m (.cmp cmpType left right) pdrgpcrs := by
  unfold pcnstrFromScalarCmp at h
  split at h
  swap
  · cases h; simp
  next pcrLeft pcrRight hleft hright =>
  split at h
  · cases h; simp
  next hcon =>
  simp only [bind_eq_ok, pure_eq_ok] at h
  obtain ⟨o, ho, rfl⟩ := h
  simp only [Bool.or_eq_true, Bool.not_eq_true', not_or, Bool.not_eq_false] at hcon
  obtain ⟨rfl, htable⟩ := hsafe pcrLeft (by simp [hleft]) pcrRight (by simp [hright]) hcon.1 hcon.2
  have heval : ∀ row, satisfied I m (.cmp cmpType left right) row ↔
      (evalCmp I cmpType (row pcrLeft) (row pcrRight)).holds m := by
    intro row
    rw [satisfied, ScalarExpr.eval, CConstraintInterval.eval_of_identOrCast hleft,
      CConstraintInterval.eval_of_identOrCast hright]
  have hleftUsed : pcrLeft ∈ (ScalarExpr.cmp cmpType left right).usedColumns := by
    simp [ScalarExpr.usedColumns, CConstraintInterval.mem_usedColumns_of_identOrCast hleft]
  have hrightUsed : pcrRight ∈ (ScalarExpr.cmp cmpType left right).usedColumns := by
    simp [ScalarExpr.usedColumns, CConstraintInterval.mem_usedColumns_of_identOrCast hright]
  -- a column whose interval excludes NULL is not NULL in a satisfying row
  have hnotnull : ∀ row, NotNullFor m (.cmp cmpType left right) row → satisfied I m (.cmp cmpType left right) row →
      (pcrIncludesNull pcrLeft m = false → row pcrLeft ≠ ⊥) ∧
      (pcrIncludesNull pcrRight m = false → row pcrRight ≠ ⊥) := by
    intro row hrow hs
    rw [heval] at hs
    cases m with
    | false => exact ⟨fun _ => (notNull_of_evalCmp hs).1, fun _ => (notNull_of_evalCmp hs).2⟩
    | true =>
      obtain ⟨hl, hr⟩ := htable rfl
      exact ⟨fun hn => hrow rfl _ hleftUsed hl (by simpa [pcrIncludesNull, hl] using hn),
        fun hn => hrow rfl _ hrightUsed hr (by simpa [pcrIncludesNull, hr] using hn)⟩
  refine ⟨fun K hK => ?_, ?_⟩
  · obtain rfl : o = some K := hK
    set l := ((CConstraintInterval.pciUnbounded pcrLeft (pcrIncludesNull pcrLeft m)).map
      (interval (D := D))).toList ++ ((CConstraintInterval.pciUnbounded pcrRight
        (pcrIncludesNull pcrRight m)).map interval).toList with hl
    have hparts : ∀ c ∈ l, Within {x | x ∈ (ScalarExpr.cmp cmpType left right).usedColumns} c ∧
        c.Regular ∧ ∀ row, NotNullFor m (.cmp cmpType left right) row →
        satisfied I m (.cmp cmpType left right) row → c.sat row := by
      intro c hc
      rcases List.mem_append.1 hc with hc | hc
      · obtain ⟨⟨hwf, hx⟩, hreg, hsat⟩ := pciUnbounded_regular_within hc
        refine ⟨⟨hwf, fun x hmem => (hx x hmem : x = pcrLeft) ▸ hleftUsed⟩, hreg,
          fun row hrow hs => (hsat row).2 fun hbot => ?_⟩
        by_contra hn
        exact (hnotnull row hrow hs).1 (by simpa using hn) hbot
      · obtain ⟨⟨hwf, hx⟩, hreg, hsat⟩ := pciUnbounded_regular_within hc
        refine ⟨⟨hwf, fun x hmem => (hx x hmem : x = pcrRight) ▸ hrightUsed⟩, hreg,
          fun row hrow hs => (hsat row).2 fun hbot => ?_⟩
        by_contra hn
        exact (hnotnull row hrow hs).2 (by simpa using hn) hbot
    refine ⟨pcnstrConjDisj_within (fun c hc => (hparts c hc).1) ho,
      pcnstrConjDisj_regular (fun c hc => (hparts c hc).2.1) ho, fun row hrow hs => ?_⟩
    rw [pcnstrConjDisj_sat (fun c hc => (hparts c hc).1.1) (fun c hc => (hparts c hc).2.1) ho]
    exact fun c hc => (hparts c hc).2.2 row hrow hs
  · simp only [Option.mem_some_iff, forall_eq']
    split
    · next hcheck =>
      refine ⟨by simp [hleftUsed, hrightUsed], fun row hrow hs => ?_⟩
      simp only [Bool.and_eq_true, decide_eq_true_eq, Bool.not_eq_true'] at hcheck
      obtain ⟨⟨rfl, hln⟩, hrn⟩ := hcheck
      obtain ⟨hl, hr⟩ := hnotnull row hrow hs
      have hs := (heval row).1 hs
      have heq : row pcrLeft = row pcrRight := by
        obtain ⟨a, ha⟩ := WithBot.ne_bot_iff_exists.1 (hl hln)
        obtain ⟨b, hb⟩ := WithBot.ne_bot_iff_exists.1 (hr hrn)
        rw [← ha, ← hb, CConstraintInterval.holds_evalCmp_coe (by simp)] at hs
        rw [← ha, ← hb]
        exact hs
      simp [classesHold, heq]
    · simp [ClassesRight]

theorem pcnstrFromScalarCmp_classes_of_none {left right : ScalarOperand D}
    (h : pcnstrFromScalarCmp fArrayConstraints cmpType left right m = .ok (none, pdrgpcrs)) :
    ∀ cls ∈ pdrgpcrs, cls = [] := by
  unfold pcnstrFromScalarCmp at h
  split at h
  swap
  · cases h; simp
  split at h
  · cases h; simp
  next hcon =>
  simp only [Bool.or_eq_true, Bool.not_eq_true', not_or, Bool.not_eq_false] at hcon
  simp only [bind_eq_ok, pure_eq_ok, Prod.mk.injEq] at h
  obtain ⟨o, ho, rfl, -⟩ := h
  -- both intervals exist
  have hnil := pcnstrConjDisj_eq_none ho
  simp [CConstraintInterval.pciUnbounded, hcon.1] at hnil

/-! ## Boolean operators -/

/-- The constraints of children that are not passed over. -/
def keptOf (ds : List (Derived D)) : List (CConstraint D) :=
  ds.filterMap fun d => d.1.filter (!·.isConstraintUnbounded)

omit [LinearOrder D] in
theorem mem_keptOf {ds : List (Derived D)} :
    K ∈ keptOf ds ↔ ∃ d ∈ ds, d.1 = some K ∧ K.isConstraintUnbounded = false := by
  simp [keptOf, List.mem_filterMap, Option.filter_eq_some_iff]

omit [LinearOrder D] in
theorem keptOf_cons (d : Derived D) (ds : List (Derived D)) :
    keptOf (d :: ds) = keptOf [d] ++ keptOf ds := by
  rw [keptOf, keptOf, keptOf, ← List.filterMap_append, List.singleton_append]

variable {acc : List (CConstraint D)} {child : ScalarExpr D}

variable {res : Option (List (CConstraint D)) × ColRefSets}

/-- One child: it ends an OR, it is passed over, or its constraint and its classes are kept. -/
theorem boolOpChildren_cons {clsAcc : ColRefSets}
    (h : boolOpChildren fArrayConstraints arrayExpansionThreshold op (child :: children) m acc
      clsAcc = .ok res) :
    ∃ d, pcnstrFromScalarExpr fArrayConstraints arrayExpansionThreshold child m = .ok d ∧
      ((op = .or ∧ res = (none, clsAcc)) ∨
        (op ≠ .or ∧ keptOf [d] = [] ∧ boolOpChildren fArrayConstraints arrayExpansionThreshold op
          children m acc clsAcc = .ok res) ∨
        ∃ K c, d = (some K, some c) ∧ keptOf [d] = [K] ∧ boolOpChildren fArrayConstraints
          arrayExpansionThreshold op children m (acc ++ [K])
          (pdrgpcrsMergeFromBoolOp op clsAcc c) = .ok res) := by
  simp only [boolOpChildren, bind_eq_ok] at h
  obtain ⟨⟨o, c⟩, hd, h⟩ := h
  refine ⟨(o, c), hd, ?_⟩
  cases o with
  | none =>
    simp only at h
    split at h
    · next hop => cases h; exact .inl ⟨hop, rfl⟩
    · next hop => exact .inr (.inl ⟨hop, by simp [keptOf], h⟩)
  | some K =>
    simp only at h
    split at h
    · next hunb =>
      split at h
      · next hop => cases h; exact .inl ⟨hop, rfl⟩
      · next hop => exact .inr (.inl ⟨hop, by simp [keptOf, hunb], h⟩)
    · next hunb =>
      cases c with
      | none => cases h
      | some c =>
        refine .inr (.inr ⟨K, c, rfl, ?_, h⟩)
        have hunb : K.isConstraintUnbounded = false := by simpa using hunb
        simp [keptOf, Option.filter, hunb]

/-- The loop over the children: all of them are derived, and their constraints kept. -/
theorem boolOpChildren_kept {acc l : List (CConstraint D)} {clsAcc cls : ColRefSets}
    (h : boolOpChildren fArrayConstraints arrayExpansionThreshold op children m acc clsAcc =
      .ok (some l, cls)) :
    ∃ ds, List.Forall₂ (fun e d => pcnstrFromScalarExpr fArrayConstraints arrayExpansionThreshold
        e m = .ok d) children ds ∧ l = acc ++ keptOf ds ∧
      (op = .or → ∀ d ∈ ds, ∃ K ∈ keptOf ds, d.1 = some K) := by
  induction children generalizing acc clsAcc with
  | nil => cases h; exact ⟨[], .nil, by simp [keptOf], by simp⟩
  | cons child children ih =>
    obtain ⟨d, hd, ⟨-, hres⟩ | ⟨hop, hskip, h⟩ | ⟨K, c, rfl, hkeep, h⟩⟩ := boolOpChildren_cons h
    · cases hres
    · obtain ⟨ds, hds, hl, -⟩ := ih h
      exact ⟨d :: ds, .cons hd hds, by rw [keptOf_cons, hskip]; exact hl,
        fun hor => absurd hor hop⟩
    · obtain ⟨ds, hds, hl, hor⟩ := ih h
      refine ⟨(some K, some c) :: ds, .cons hd hds, by rw [keptOf_cons, hkeep]; simp [hl],
        fun hop d hd => ?_⟩
      rw [keptOf_cons, hkeep]
      rcases List.mem_cons.1 hd with rfl | hd
      · exact ⟨K, by simp, rfl⟩
      · obtain ⟨K', hK', hd⟩ := hor hop d hd
        exact ⟨K', by simp [hK'], hd⟩

/-- OR and NOT pass no classes on. -/
theorem boolOpChildren_noClasses (hop : op ≠ .and)
    (h : boolOpChildren fArrayConstraints arrayExpansionThreshold op children m acc [] =
      .ok res) : res.2 = [] := by
  induction children generalizing acc with
  | nil => cases h; rfl
  | cons child children ih =>
    obtain ⟨d, -, ⟨-, rfl⟩ | ⟨-, -, h⟩ | ⟨K, c, -, -, h⟩⟩ := boolOpChildren_cons h
    · rfl
    · exact ih h
    · have hnil : pdrgpcrsMergeFromBoolOp op [] c = [] := by
        cases op <;> simp_all [pdrgpcrsMergeFromBoolOp]
      rw [hnil] at h
      exact ih h

variable {l : List (CConstraint D)}

omit [LinearOrder D] in
/-- A NOT of one child that is kept. -/
theorem pcnstrOfKept_cases [LinearOrder D]
    (h : pcnstrOfKept fArrayConstraints op l = .ok (some K)) :
    (op = .not ∧ ∃ c, l = [c] ∧ K = .negation c) ∨
      (op ≠ .not ∧ l ≠ [] ∧ ((∃ c, l = [c] ∧ K = c) ∨
        ofConjDisj fArrayConstraints (op = .and) l = .ok K)) := by
  unfold pcnstrOfKept at h
  split at h
  · cases h
  · cases h; exact .inl ⟨rfl, _, rfl, rfl⟩
  · next hop => cases h; exact .inr ⟨hop, by simp, .inl ⟨_, rfl, rfl⟩⟩
  · next hne _ =>
    simp only [map_eq_ok, Option.some.injEq, exists_eq_right] at h
    exact .inr ⟨by simp, hne, .inr h⟩
  · next hne _ =>
    simp only [map_eq_ok, Option.some.injEq, exists_eq_right] at h
    exact .inr ⟨by simp, hne, .inr h⟩
  · cases h

/-- The connective of constraints that are regular accepts what the connective of the rows does. -/
theorem pcnstrOfKept_sat (hop : op ≠ .not) {S : Set CColRef} (hl : ∀ c ∈ l, Within S c ∧ c.Regular)
    (h : pcnstrOfKept fArrayConstraints op l = .ok (some K)) :
    Within S K ∧ K.Regular ∧ ∀ row, K.sat row ↔ joined (op = .and) l (sat · row) := by
  obtain ⟨hnot, -⟩ | ⟨-, hne, ⟨c, rfl, rfl⟩ | hK⟩ := pcnstrOfKept_cases h
  · exact absurd hnot hop
  · refine ⟨(hl K (by simp)).1, (hl K (by simp)).2, fun row => ?_⟩
    cases op <;> simp [joined]
  · exact ⟨ofConjDisj_within hne (fun c hc => (hl c hc).1) hK,
      ofConjDisj_regular (fun c hc => (hl c hc).2) hK,
      ofConjDisj_sat (fun c hc => (hl c hc).1.1) (fun c hc => (hl c hc).2) hK⟩

/-- What holds of the classes of the children of an AND, and what merging keeps, holds of its
    classes. -/
theorem boolOpChildren_keep {P : ColRefSets → Prop}
    (hmerge : ∀ cls cls', P cls → P cls' → P (pdrgpcrsMergeEquivClasses cls cls'))
    {clsAcc : ColRefSets}
    (h : boolOpChildren fArrayConstraints arrayExpansionThreshold .and children m acc clsAcc =
      .ok res)
    (hacc : P clsAcc) (hchildren : ∀ e ∈ children, ∀ d, pcnstrFromScalarExpr fArrayConstraints
      arrayExpansionThreshold e m = .ok d → ∀ c ∈ d.2, P c) : P res.2 := by
  induction children generalizing acc clsAcc with
  | nil => cases h; exact hacc
  | cons child children ih =>
    have hrest : ∀ e ∈ children, ∀ d, pcnstrFromScalarExpr fArrayConstraints
        arrayExpansionThreshold e m = .ok d → ∀ c ∈ d.2, P c :=
      fun e he => hchildren e (by simp [he])
    obtain ⟨d, hd, ⟨hop, -⟩ | ⟨-, -, h⟩ | ⟨K, c, rfl, -, h⟩⟩ := boolOpChildren_cons h
    · cases hop
    · exact ih h hacc hrest
    · exact ih h (hmerge _ _ hacc (hchildren child (by simp) _ hd c rfl)) hrest

/-- Where an AND keeps nothing, its classes have not changed. -/
theorem boolOpChildren_nil {clsAcc cls : ColRefSets} {o : Option (List (CConstraint D))}
    (h : boolOpChildren fArrayConstraints arrayExpansionThreshold .and children m acc clsAcc =
      .ok (o, cls))
    (ho : ∀ l ∈ o, l = []) : acc = [] ∧ cls = clsAcc := by
  induction children generalizing acc clsAcc with
  | nil => cases h; exact ⟨ho _ rfl, rfl⟩
  | cons child children ih =>
    obtain ⟨d, -, ⟨hop, -⟩ | ⟨-, -, h⟩ | ⟨K, c, -, -, h⟩⟩ := boolOpChildren_cons h
    · cases hop
    · exact ih h
    · obtain ⟨hacc, -⟩ := ih h
      simp at hacc

/-- A Boolean operator over several columns: nothing, an OR that was given up, or a connective. -/
theorem boolOp_cases {d : Derived D}
    (h : (if op = .or && arrayExpansionThreshold < children.length then .ok (none, none)
      else do
        let (kept, pdrgpcrs) ← boolOpChildren fArrayConstraints arrayExpansionThreshold op children
          m [] []
        match kept with
        | none => return (none, some pdrgpcrs)
        | some pdrgpcnstr =>
          return (← pcnstrOfKept fArrayConstraints op pdrgpcnstr, some pdrgpcrs)) =
      (.ok d : Except Fault (Derived D))) :
    d = (none, none) ∨ ∃ kept cls, (op = .or → children.length ≤ arrayExpansionThreshold) ∧
      boolOpChildren fArrayConstraints arrayExpansionThreshold op children m [] [] =
        .ok (kept, cls) ∧ d.2 = some cls ∧ (kept = none ∧ d.1 = none ∨
        ∃ l, kept = some l ∧ pcnstrOfKept fArrayConstraints op l = .ok d.1) := by
  split at h
  · cases h; exact .inl rfl
  · next hlen =>
    simp only [bind_eq_ok] at h
    obtain ⟨⟨kept, cls⟩, hkept, h⟩ := h
    refine .inr ⟨kept, cls, fun hop => by simpa [hop] using hlen, hkept, ?_⟩
    cases kept with
    | none => cases h; exact ⟨rfl, .inl ⟨rfl, rfl⟩⟩
    | some l =>
      simp only [bind_eq_ok, pure_eq_ok] at h
      obtain ⟨o, ho, rfl⟩ := h
      exact ⟨rfl, .inr ⟨l, rfl, ho⟩⟩

/-! ## The recursion -/

@[simp] theorem safeAll_iff (es : List (ScalarExpr D)) :
    safeAll fArrayConstraints arrayExpansionThreshold fOver m es ↔
      ∀ e ∈ es, hasConstraint fArrayConstraints arrayExpansionThreshold m e →
        safe fArrayConstraints arrayExpansionThreshold fOver m e := by
  induction es with
  | nil => simp [safeAll]
  | cons e es ih => simp only [safeAll, ih, List.forall_mem_cons]

/-- What the derivation of a predicate has to be. -/
def DerivedRight (I : Interpretation D) (fOver m : Bool) (e : ScalarExpr D) (d : Derived D) :
    Prop :=
  (∀ K ∈ d.1, Right I fOver m e K) ∧
    (fOver = true → ∀ pdrgpcrs ∈ d.2, ClassesRight I m e pdrgpcrs)

theorem satisfied_and :
    satisfied I m (.boolOp .and children) row ↔ ∀ e ∈ children, satisfied I m e row := by
  simp [satisfied, ScalarExpr.eval, EBoolOperator.eval, ScalarExpr.evalAll_eq_map]

theorem satisfied_or :
    satisfied I m (.boolOp .or children) row ↔ ∃ e ∈ children, satisfied I m e row := by
  simp [satisfied, ScalarExpr.eval, EBoolOperator.eval, ScalarExpr.evalAll_eq_map]

theorem satisfied_not :
    satisfied I m (.boolOp .not [child]) row ↔ ¬ satisfied I (!m) child row := by
  simp [satisfied, ScalarExpr.eval, EBoolOperator.eval, ScalarExpr.evalAll_eq_map]

omit [LinearOrder D] in
theorem usedColumns_child (he : e ∈ children) :
    {c | c ∈ e.usedColumns} ⊆ {c | c ∈ (ScalarExpr.boolOp op children).usedColumns} :=
  fun _ hc => ScalarExpr.mem_usedColumnsAll.2 ⟨e, he, hc⟩

theorem within_child (he : e ∈ children) (hK : Within {c | c ∈ e.usedColumns} K) :
    Within {c | c ∈ (ScalarExpr.boolOp op children).usedColumns} K :=
  ⟨hK.1, fun x hx => usedColumns_child he (hK.2 x hx)⟩

/-- What is kept of an AND or an OR is right for a child, and joined it is on their columns. -/
theorem kept_right (hop : op ≠ .not) {ds : List (Option (CConstraint D) × Option ColRefSets)}
    (hds : List.Forall₂ (fun e d => pcnstrFromScalarExpr fArrayConstraints arrayExpansionThreshold
      e m = .ok d) children ds)
    (hK : pcnstrOfKept fArrayConstraints op ([] ++ keptOf ds) = .ok (some K))
    (ih : ∀ e ∈ children, ∀ d, pcnstrFromScalarExpr fArrayConstraints arrayExpansionThreshold e m =
      .ok d → DerivedRight I fOver m e d) :
    (∀ c ∈ keptOf ds, ∃ e ∈ children, Right I fOver m e c) ∧
      Within {c | c ∈ (ScalarExpr.boolOp op children).usedColumns} K ∧ K.Regular ∧
      ∀ row, K.sat row ↔ joined (op = .and) (keptOf ds) (sat · row) := by
  have hkept : ∀ c ∈ keptOf ds, ∃ e ∈ children, Right I fOver m e c := by
    intro c hc
    obtain ⟨d, hd, hdc, -⟩ := mem_keptOf.1 hc
    obtain ⟨e, he, hed⟩ := exists_of_forall₂_right hds hd
    exact ⟨e, he, (ih e he d hed).1 c hdc⟩
  refine ⟨hkept, pcnstrOfKept_sat hop (fun c hc => ?_) hK⟩
  obtain ⟨e, he, hr⟩ := hkept c hc
  exact ⟨within_child he hr.1, hr.2.1⟩

/-- AND: what is kept is right; from below nothing may be dropped but what every row satisfies. -/
theorem and_right {cls : ColRefSets}
    (hl : boolOpChildren fArrayConstraints arrayExpansionThreshold .and children
      m [] [] = .ok (some l, cls))
    (hK : pcnstrOfKept fArrayConstraints .and l = .ok (some K))
    (hunder : fOver = false → ∀ e ∈ children,
      hasConstraint fArrayConstraints arrayExpansionThreshold m e)
    (ih : ∀ e ∈ children, ∀ d, pcnstrFromScalarExpr fArrayConstraints arrayExpansionThreshold e m =
      .ok d → DerivedRight I fOver m e d) :
    DerivedRight I fOver m (.boolOp .and children) (some K, some cls) := by
  obtain ⟨ds, hds, rfl, -⟩ := boolOpChildren_kept hl
  obtain ⟨hkept, hwf, hreg, hsat⟩ := kept_right (by simp) hds hK ih
  refine ⟨?_, fun hover => ?_⟩
  · simp only [Option.mem_some_iff, forall_eq']
    refine ⟨hwf, hreg, fun row hrow => ?_⟩
    cases fOver with
    | true =>
      intro hs
      rw [hsat]
      intro c hc
      obtain ⟨e, he, -, -, hr⟩ := hkept c hc
      exact hr row (hrow.child he) (satisfied_and.1 hs e he)
    | false =>
      intro hs
      rw [hsat] at hs
      refine satisfied_and.2 fun e he => ?_
      obtain ⟨c, pdrgpcrs, hec⟩ := hunder rfl e he
      obtain ⟨d, hd, hed⟩ := exists_of_forall₂_left hds he
      obtain rfl : d = (some c, pdrgpcrs) := by rw [hec] at hed; cases hed; rfl
      obtain ⟨-, -, hr⟩ := (ih e he _ hec).1 c rfl
      refine hr row (hrow.child he) ?_
      cases hunb : c.isConstraintUnbounded with
      | true => exact (sat_of_flags c row).2 hunb
      | false => exact hs c (mem_keptOf.2 ⟨_, hd, rfl, hunb⟩)
  · subst hover
    simp only [Option.mem_some_iff, forall_eq']
    refine ⟨boolOpChildren_keep (fun _ _ => pdrgpcrsMergeEquivClasses_within) hl (by simp)
      fun e he d hed c hc pcrs hpcrs x hx =>
      usedColumns_child he (((ih e he d hed).2 rfl c hc).1 pcrs hpcrs x hx), fun row hrow hs => ?_⟩
    exact boolOpChildren_keep (P := (classesHold · row))
      (fun _ _ => pdrgpcrsMergeEquivClasses_holds) hl (classesHold_nil row) fun e he d hed c hc =>
      ((ih e he d hed).2 rfl c hc).2 row (hrow.child he) (satisfied_and.1 hs e he)

/-- OR: every child is kept. -/
theorem or_right {cls : ColRefSets}
    (hl : boolOpChildren fArrayConstraints arrayExpansionThreshold .or children
      m [] [] = .ok (some l, cls))
    (hK : pcnstrOfKept fArrayConstraints .or l = .ok (some K))
    (ih : ∀ e ∈ children, ∀ d, pcnstrFromScalarExpr fArrayConstraints arrayExpansionThreshold e m =
      .ok d → DerivedRight I fOver m e d) : Right I fOver m (.boolOp .or children) K := by
  obtain ⟨ds, hds, rfl, hor⟩ := boolOpChildren_kept hl
  obtain ⟨hkept, hwf, hreg, hsat⟩ := kept_right (by simp) hds hK ih
  refine ⟨hwf, hreg, fun row hrow => ?_⟩
  cases fOver with
  | true =>
    intro hs
    obtain ⟨e, he, hs⟩ := satisfied_or.1 hs
    obtain ⟨d, hd, hed⟩ := exists_of_forall₂_left hds he
    obtain ⟨c, hc, hdc⟩ := hor rfl d hd
    rw [hsat]
    exact ⟨c, hc, ((ih e he d hed).1 c hdc).2.2 row (hrow.child he) hs⟩
  | false =>
    intro hs
    rw [hsat] at hs
    obtain ⟨c, hc, hs⟩ := hs
    obtain ⟨e, he, -, -, hr⟩ := hkept c hc
    exact satisfied_or.2 ⟨e, he, hr row (hrow.child he) hs⟩

/-- Unknown counts on the side where it does no harm. -/
theorem rightFrom_of_mode (hm : m ≠ fOver) {P : Prop}
    (h : RightFrom (!fOver) (satisfied I m e row) P) :
    RightFrom (!fOver) (satisfied I (!m) e row) P := by
  obtain rfl : m = !fOver := by cases m <;> cases fOver <;> simp_all
  cases fOver with
  | true =>
    intro hp
    exact (Truth.holds_mono (h hp))
  | false =>
    intro hs
    exact h (Truth.holds_mono hs)

/-- A NOT with a constraint negates the constraint of its child. -/
theorem not_child {cls : ColRefSets}
    (hl : boolOpChildren fArrayConstraints arrayExpansionThreshold .not [child] m [] [] =
      .ok (some l, cls))
    (hK : pcnstrOfKept fArrayConstraints .not l = .ok (some K)) :
    ∃ c pdrgpcrs, K = .negation c ∧ pcnstrFromScalarExpr fArrayConstraints arrayExpansionThreshold
      child m = .ok (some c, pdrgpcrs) := by
  obtain ⟨ds, hds, rfl, -⟩ := boolOpChildren_kept hl
  rw [List.nil_append] at hK
  obtain ⟨-, c, hl, rfl⟩ | ⟨hop, -⟩ := pcnstrOfKept_cases hK
  swap
  · exact absurd rfl hop
  obtain ⟨⟨o, pdrgpcrs⟩, hd, hdc, -⟩ := mem_keptOf.1 (hl ▸ List.mem_singleton_self c)
  obtain rfl : o = some c := hdc
  obtain ⟨e, he, hed⟩ := exists_of_forall₂_right hds hd
  obtain rfl := List.mem_singleton.1 he
  exact ⟨c, pdrgpcrs, rfl, hed⟩

/-- NOT: the child is right from the other side, and the null mode does not matter. -/
theorem not_right {c : CConstraint D}
    (hmode : m ≠ fOver ∨ twoValued child = true) (hreg : (negation c).Regular)
    (hc : Right I (!fOver) m child c) : Right I fOver m (.boolOp .not [child]) (.negation c) := by
  obtain ⟨hwf, -, hr⟩ := hc
  have hchild : child ∈ [child] := List.mem_singleton_self child
  refine ⟨⟨.negation hwf.1, fun x hx => usedColumns_child hchild (hwf.2 x hx)⟩, hreg,
    fun row hrow => ?_⟩
  rw [satisfied_not, sat]
  refine RightFrom.not ?_
  obtain hm | htwo := hmode
  · exact rightFrom_of_mode hm (hr row (hrow.child hchild))
  · have hr := hr row (hrow.child hchild)
    rwa [RightFrom, satisfied_of_twoValued htwo m (!m)] at hr

theorem pcnstrOfKept_and_eq_none
    (h : pcnstrOfKept fArrayConstraints .and l = .ok none) : l = [] := by
  unfold pcnstrOfKept at h
  split at h <;> simp_all [map_eq_ok]

theorem derivedRight_none :
    DerivedRight I fOver m e (none, none) := by
  simp [DerivedRight]

/-- One column, whatever the predicate is. -/
theorem fromColumn_derivedRight (hcol : exprColumns e = [colref]) {d : Derived D}
    (hsafe : columnSafe fArrayConstraints arrayExpansionThreshold fOver m colref e)
    (h : pcnstrFromColumn fArrayConstraints arrayExpansionThreshold colref e m = .ok d) :
    DerivedRight I fOver m e d := by
  refine ⟨fun K hK => ?_, fun _ =>
    pcnstrFromColumn_classes (mem_of_exprColumns_eq_singleton hcol) h⟩
  obtain ⟨o, pdrgpcrs⟩ := d
  obtain rfl : o = some K := hK
  exact pcnstrFromColumn_right (mem_of_exprColumns_eq_singleton hcol)
    (exprColumns_eq_singleton hcol) hsafe h

/-- A predicate that is neither a comparison nor a Boolean operator. -/
theorem leaf_derivedRight {d : Derived D} (hsafe : match exprColumns e with
      | [colref] => columnSafe fArrayConstraints arrayExpansionThreshold fOver m colref e
      | _ => True)
    (h : (match exprColumns e with
      | [colref] => pcnstrFromColumn fArrayConstraints arrayExpansionThreshold colref e m
      | _ => .ok (none, none)) = .ok d) : DerivedRight I fOver m e d := by
  split at h
  · next colref hcol =>
    rw [hcol] at hsafe
    exact fromColumn_derivedRight hcol hsafe h
  · cases h
    exact derivedRight_none

/-- Without a constraint there are no classes. -/
theorem classes_of_none (h : pcnstrFromScalarExpr fArrayConstraints arrayExpansionThreshold e m =
      .ok (none, pdrgpcrs)) : ∀ cls ∈ pdrgpcrs, cls = [] := by
  have hleaf : ∀ e : ScalarExpr D, (match exprColumns e with
      | [colref] => pcnstrFromColumn fArrayConstraints arrayExpansionThreshold colref e m
      | _ => .ok (none, none)) = .ok (none, pdrgpcrs) → ∀ cls ∈ pdrgpcrs, cls = [] := by
    intro e h
    split at h
    · exact pcnstrFromColumn_classes_of_none h
    · cases h; simp
  cases e with
  | cmp cmpType left right =>
    simp only [pcnstrFromScalarExpr] at h
    split at h
    · cases h; simp
    · exact pcnstrFromColumn_classes_of_none h
    · exact pcnstrFromScalarCmp_classes_of_none h
  | boolOp op children =>
    simp only [pcnstrFromScalarExpr] at h
    split at h
    · cases h; simp
    · exact pcnstrFromColumn_classes_of_none h
    · obtain hnone | ⟨kept, cls, -, hkept, rfl, hd⟩ := boolOp_cases h
      · cases hnone; simp
      simp only [Option.mem_some_iff, forall_eq']
      by_cases hop : op = .and
      · subst hop
        refine (boolOpChildren_nil hkept fun l hl => ?_).2
        obtain ⟨rfl, -⟩ | ⟨l', rfl, hl'⟩ := hd
        · cases hl
        · obtain rfl : l' = l := Option.some.inj hl
          exact pcnstrOfKept_and_eq_none hl'
      · exact boolOpChildren_noClasses hop hkept
  | const value =>
    simp only [pcnstrFromScalarExpr, exprColumns, ScalarExpr.usedColumns, List.dedup_nil,
      Except.ok.injEq, Prod.mk.injEq] at h
    simp [← h.2]
  | nullTest child | isDistinctFrom left right | arrayCmp arr cmpType left coerced array
  | other id used =>
    unfold pcnstrFromScalarExpr at h
    exact hleaf _ h

/-- What a Boolean operator over several columns asks of its children. -/
def opSafe (fArrayConstraints : Bool) (arrayExpansionThreshold : ℕ) (fOver m : Bool) :
    EBoolOperator → List (ScalarExpr D) → Prop
  | .and, children => safeAll fArrayConstraints arrayExpansionThreshold fOver m children ∧
      (fOver = false → ∀ e ∈ children, hasConstraint fArrayConstraints arrayExpansionThreshold m e)
  | .or, children => children.length ≤ arrayExpansionThreshold →
      (∀ e ∈ children, hasConstraint fArrayConstraints arrayExpansionThreshold m e) →
        safeAll fArrayConstraints arrayExpansionThreshold fOver m children
  | .not, children => safeNot fArrayConstraints arrayExpansionThreshold fOver m children

/-- A Boolean operator over several columns. -/
theorem boolOp_derivedRight {d : Derived D}
    (hsafe : opSafe fArrayConstraints arrayExpansionThreshold fOver m op children)
    (ih : ∀ e ∈ children, ∀ {fOver m : Bool}, safe fArrayConstraints arrayExpansionThreshold fOver
      m e → ∀ {d : Derived D}, pcnstrFromScalarExpr fArrayConstraints arrayExpansionThreshold e m =
        .ok d → DerivedRight I fOver m e d)
    (hd : pcnstrFromScalarExpr fArrayConstraints arrayExpansionThreshold (.boolOp op children) m =
      .ok d)
    (h : (if op = .or && arrayExpansionThreshold < children.length then .ok (none, none)
      else do
        let (kept, pdrgpcrs) ← boolOpChildren fArrayConstraints arrayExpansionThreshold op children
          m [] []
        match kept with
        | none => return (none, some pdrgpcrs)
        | some pdrgpcnstr =>
          return (← pcnstrOfKept fArrayConstraints op pdrgpcnstr, some pdrgpcrs)) =
      (.ok d : Except Fault (Derived D))) : DerivedRight I fOver m (.boolOp op children) d := by
  -- a child without a constraint has no classes either
  have hchild : ∀ e ∈ children, ∀ {fOver : Bool}, (hasConstraint fArrayConstraints
      arrayExpansionThreshold m e → safe fArrayConstraints arrayExpansionThreshold fOver m e) →
      ∀ d, pcnstrFromScalarExpr fArrayConstraints arrayExpansionThreshold e m = .ok d →
        DerivedRight I fOver m e d := by
    rintro e he fOver hs ⟨_ | K, cls⟩ hed
    · refine ⟨by simp, fun _ c hc => ?_⟩
      rw [classes_of_none hed c hc]
      simp [ClassesRight]
    · exact ih e he (hs ⟨K, cls, hed⟩) hed
  obtain ⟨_ | K, pdrgpcrs⟩ := d
  · refine ⟨by simp, fun _ c hc => ?_⟩
    rw [classes_of_none hd c hc]
    simp [ClassesRight]
  obtain hnone | ⟨kept, cls, hlen, hkept, hcls, ⟨-, hnone⟩ | ⟨l, rfl, hK⟩⟩ := boolOp_cases h
  · cases hnone
  · cases hnone
  obtain rfl : pdrgpcrs = some cls := hcls
  cases op with
  | and =>
    obtain ⟨hall, hunder⟩ := hsafe
    rw [safeAll_iff] at hall
    exact and_right hkept hK hunder fun e he => hchild e he (hall e he)
  | or =>
    obtain rfl : cls = [] := boolOpChildren_noClasses (by simp) hkept
    obtain ⟨ds, hds, -, hor⟩ := boolOpChildren_kept hkept
    have hall := hsafe (hlen rfl) fun e he => by
      obtain ⟨d, hd, hed⟩ := exists_of_forall₂_left hds he
      obtain ⟨K, -, hK⟩ := hor rfl d hd
      exact ⟨K, d.2, by rw [hed, ← hK]⟩
    rw [safeAll_iff] at hall
    refine ⟨?_, fun _ => by simp [ClassesRight]⟩
    simp only [Option.mem_some_iff, forall_eq']
    exact or_right hkept hK fun e he => hchild e he (hall e he)
  | not =>
    obtain rfl : cls = [] := boolOpChildren_noClasses (by simp) hkept
    refine ⟨?_, fun _ => by simp [ClassesRight]⟩
    simp only [Option.mem_some_iff, forall_eq']
    -- `safeNot` asks for exactly one child
    obtain _ | ⟨child, _ | ⟨e, es⟩⟩ := children
    · exact absurd hsafe (by simp [opSafe, safeNot])
    · replace hsafe := by simpa only [opSafe, safeNot] using hsafe
      obtain ⟨c, pdrgpcrs, rfl, hc⟩ := not_child hkept hK
      obtain ⟨hs, hmode, hreg⟩ := hsafe ⟨c, pdrgpcrs, hc⟩
      exact not_right hmode (hreg c pdrgpcrs hc) ((ih child (by simp) hs hc).1 c rfl)
    · exact absurd hsafe (by simp [opSafe, safeNot])

/-- **The derivation is right from every side from which it is safe**: by induction on the
    predicate, over both sides and both null modes. -/
theorem pcnstrFromScalarExpr_right
    (hsafe : safe fArrayConstraints arrayExpansionThreshold fOver m e) {d : Derived D}
    (h : pcnstrFromScalarExpr fArrayConstraints arrayExpansionThreshold e m = .ok d) :
    DerivedRight I fOver m e d := by
  induction e using ScalarExpr.induction generalizing fOver m d with
  | const value =>
    simp only [pcnstrFromScalarExpr, exprColumns, ScalarExpr.usedColumns, List.dedup_nil,
      Except.ok.injEq] at h
    exact h ▸ derivedRight_none
  | nullTest child | isDistinctFrom left right | arrayCmp arr cmpType left coerced array
  | other id used =>
    unfold safe at hsafe
    unfold pcnstrFromScalarExpr at h
    exact leaf_derivedRight hsafe h
  | cmp cmpType left right =>
    simp only [pcnstrFromScalarExpr] at h
    unfold safe at hsafe
    split at h
    · cases h
      exact derivedRight_none
    · next colref hcol =>
      rw [hcol] at hsafe
      exact fromColumn_derivedRight hcol hsafe h
    · next hnil hone =>
      have hcmp : ∀ pcrLeft ∈ left.identOrCast, ∀ pcrRight ∈ right.identOrCast,
          pcrLeft.fConstrainable = true → pcrRight.fConstrainable = true → fOver = true ∧
            (m = true → pcrLeft.fTable = true ∧ pcrRight.fTable = true) := by
        split at hsafe
        · next hc => exact absurd hc hnil
        · next colref hc => exact absurd hc (hone colref)
        · exact hsafe
      obtain ⟨hK, hcls⟩ := pcnstrFromScalarCmp_right (I := I) h hcmp
      exact ⟨hK, fun _ => hcls⟩
  | boolOp op children ih =>
    have hd := h
    simp only [pcnstrFromScalarExpr] at h
    unfold safe at hsafe
    split at h
    · cases h
      exact derivedRight_none
    · next colref hcol =>
      rw [hcol] at hsafe
      exact fromColumn_derivedRight hcol hsafe h
    · next hnil hone =>
      have hop : opSafe fArrayConstraints arrayExpansionThreshold fOver m op children := by
        split at hsafe
        · next hc => exact absurd hc hnil
        · next colref hc => exact absurd hc (hone colref)
        · cases op <;> exact hsafe
      exact boolOp_derivedRight hop ih hd h

section Examples

/-- `c IS NOT NULL` as a constraint. -/
def notNull (colref : CColRef) : CConstraint ℤ :=
  .interval ⟨colref, [⟨none, .excluded, none, .excluded⟩], false⟩

theorem notNull_sat (colref : CColRef) (row : Row ℤ) :
    (notNull colref).sat row ↔ row colref ≠ ⊥ := by
  rw [notNull, sat]
  cases row colref using WithBot.recBotCoe with
  | bot => simp [admits_bot]
  | coe v => simp [admits_coe, CRange.mem_members]

/-- `c = d` as a constraint when unknown rows are kept. -/
def equalToOrNull (colref : CColRef) (d : ℤ) : CConstraint ℤ :=
  .interval ⟨colref, [CRange.ofCmp .eq (d : Datum ℤ)], true⟩

theorem equalToOrNull_sat (colref : CColRef) (d : ℤ) (row : Row ℤ) :
    (equalToOrNull colref d).sat row ↔ row colref = ⊥ ∨ row colref = d := by
  rw [equalToOrNull, sat]
  cases row colref using WithBot.recBotCoe with
  | bot => simp [admits_bot]
  | coe v =>
    simp only [admits_coe, List.mem_singleton, exists_eq_left, CRange.mem_members, CRange.ofCmp,
      Option.some.injEq, forall_eq', WithBot.coe_lt_coe, WithBot.coe_inj, WithBot.coe_ne_bot,
      false_or]
    grind

/-- A column that is computed. -/
def colComputed : CColRef := ⟨3, true, false, true⟩

end Examples

end CConstraint

end BossOptimizer

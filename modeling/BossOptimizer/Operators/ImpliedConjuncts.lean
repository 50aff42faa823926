import BossOptimizer.Base.EquivClassSets
import BossOptimizer.Base.ConstraintEval
import BossOptimizer.Base.ConstraintSoundness
import BossOptimizer.Operators.CPropConstraint

/-!
# Removing implied conjuncts: `PexprRemoveImpliedConjuncts` (CPredicateUtils.cpp:2253)

An equality of two columns is dropped from a join or select condition when an equivalence class has
both columns. The classes are those of the children, and grow by the classes of each conjunct that
stays. A class of two columns is made by an equality, which rejects NULL. A class of one column is
also made by conjuncts that accept NULL, `a IS NULL` among them, and then covers `a = a`, which does
not: that is the one equality dropped without being implied.

A condition is one predicate or the predicate list of an n-ary join. The classes of the children
stand for the children.
-/

namespace BossOptimizer

open DisjointFamilies CConstraint

variable {D : Type} [LinearOrder D] (fArrayConstraints : Bool) (arrayExpansionThreshold : ℕ)

/-! ## The pass -/

/-- `CPredicateUtils::FCheckPredicateImplication` (CPredicateUtils.cpp:2203). -/
def fCheckPredicateImplication : ScalarExpr D → Bool
  | .cmp .eq left right => left.identOrCast.isSome && right.identOrCast.isSome
  | _ => false

/-- `CPredicateUtils::FImpliedPredicate` (CPredicateUtils.cpp:2224). -/
def fImpliedPredicate (pexprPred : ScalarExpr D) (pdrgpcrsEquivClasses : ColRefSets) : Bool :=
  pdrgpcrsEquivClasses.any fun pcrs => pexprPred.usedColumns.all (· ∈ pcrs)

/-- `CUtils::PdrgpcrsCopyChildEquivClasses` (CUtils.cpp:2573). -/
def pdrgpcrsCopyChildEquivClasses (children : List ColRefSets) : ColRefSets :=
  children.foldl pdrgpcrsMergeEquivClasses []

/-- The loop over the conjuncts (CPredicateUtils.cpp:2283). -/
def removeImpliedLoop : List (ScalarExpr D) → ColRefSets → List (ScalarExpr D) →
    Except Fault (List (ScalarExpr D))
  | [], _, pdrgpexprNewConjuncts => .ok pdrgpexprNewConjuncts
  | pexprConj :: rest, pdrgpcrs, pdrgpexprNewConjuncts =>
    if fCheckPredicateImplication pexprConj && fImpliedPredicate pexprConj pdrgpcrs then
      removeImpliedLoop rest pdrgpcrs pdrgpexprNewConjuncts
    else do
      let (_, pdrgpcrsConj) ←
        pcnstrFromScalarExpr fArrayConstraints arrayExpansionThreshold pexprConj false
      removeImpliedLoop rest (pdrgpcrsConj.elim pdrgpcrs (pdrgpcrsMergeEquivClasses pdrgpcrs))
        (pdrgpexprNewConjuncts ++ [pexprConj])

/-- `PexprRemoveImpliedConjuncts` of one predicate. -/
def removeImpliedFrom (children : List ColRefSets) (pexprScalar : ScalarExpr D) :
    Except Fault (ScalarExpr D) :=
  pexprConjDisj true <$> removeImpliedLoop fArrayConstraints arrayExpansionThreshold
    pexprScalar.conjuncts (pdrgpcrsCopyChildEquivClasses children) []

/-- A predicate, or `CScalarNAryJoinPredList` with its children. -/
inductive JoinCondition (D : Type) where
  | predicate (pexpr : ScalarExpr D)
  | naryJoinPredList (children : List (ScalarExpr D))

/-- `CPredicateUtils::PexprRemoveImpliedConjuncts` (CPredicateUtils.cpp:2253). -/
def pexprRemoveImpliedConjuncts (children : List ColRefSets) :
    JoinCondition D → Except Fault (JoinCondition D)
  | .predicate pexpr =>
    .predicate <$> removeImpliedFrom fArrayConstraints arrayExpansionThreshold children pexpr
  | .naryJoinPredList pdrgpexpr => .naryJoinPredList <$>
    pdrgpexpr.mapM (removeImpliedFrom fArrayConstraints arrayExpansionThreshold children)

/-! ## Rows -/

/-- The columns of a class are equal and not NULL. -/
def ClassesHoldNotNull (pdrgpcrs : ColRefSets) (row : Row D) : Prop :=
  ∀ pcrs ∈ pdrgpcrs, ∀ x ∈ pcrs, row x ≠ ⊥ ∧ ∀ y ∈ pcrs, row x = row y

/-- The predicates of a condition: the one predicate or the members of the list. -/
def JoinCondition.predicates : JoinCondition D → List (ScalarExpr D)
  | .predicate pexpr => [pexpr]
  | .naryJoinPredList pdrgpexpr => pdrgpexpr

/-- The answer of each predicate of the condition: whether it accepts the row. -/
def JoinCondition.accepts (I : Interpretation D) (condition : JoinCondition D) (row : Row D) :
    List Bool :=
  condition.predicates.map fun pexpr => pexpr.eval I row == some true

/-- The column of a comparison `c = c`. -/
def selfEquality : ScalarExpr D → Option CColRef
  | .cmp .eq left right => if left.identOrCast = right.identOrCast then left.identOrCast else none
  | _ => none

/-- The classes that a conjunct brings in. -/
def conjunctClasses (pexprConj : ScalarExpr D) : ColRefSets :=
  match pcnstrFromScalarExpr fArrayConstraints arrayExpansionThreshold pexprConj false with
  | .ok (_, some pdrgpcrs) => pdrgpcrs
  | _ => []

/-- A comparison `c = c` on a column of some class. -/
def isCovered (pdrgpcrs : ColRefSets) (pexprConj : ScalarExpr D) : Bool :=
  (selfEquality pexprConj).any fun colref => pdrgpcrs.any (colref ∈ ·)

/-- The conjuncts that are no covered `c = c`: covered by a class of the children or by one that
    an earlier conjunct brings in. -/
def uncovered : ColRefSets → List (ScalarExpr D) → List (ScalarExpr D)
  | _, [] => []
  | pdrgpcrs, pexprConj :: rest =>
    (if isCovered pdrgpcrs pexprConj then [] else [pexprConj]) ++ uncovered
      (pdrgpcrs ++ conjunctClasses fArrayConstraints arrayExpansionThreshold pexprConj) rest

/-- The columns of the covered comparisons `c = c`. -/
def coveredColumns : ColRefSets → List (ScalarExpr D) → List CColRef
  | _, [] => []
  | pdrgpcrs, pexprConj :: rest =>
    (if isCovered pdrgpcrs pexprConj then (selfEquality pexprConj).toList else []) ++ coveredColumns
      (pdrgpcrs ++ conjunctClasses fArrayConstraints arrayExpansionThreshold pexprConj) rest

variable {fArrayConstraints arrayExpansionThreshold} {I : Interpretation D} {row : Row D}

/-! ## Two columns of a class -/

/-- The same column, or equal columns that are not NULL. -/
def Linked (row : Row D) (x y : CColRef) : Prop := x = y ∨ (row x = row y ∧ row x ≠ ⊥)

omit [LinearOrder D] in
theorem Linked.trans {x y z : CColRef} (h : Linked row x y) (h' : Linked row y z) :
    Linked row x z := by
  rcases h with rfl | ⟨hxy, hx⟩
  · exact h'
  · rcases h' with rfl | ⟨hyz, -⟩
    · exact .inr ⟨hxy, hx⟩
    · exact .inr ⟨hxy.trans hyz, hx⟩

/-- Columns that are together in a class are linked. -/
def ClassesLinked (pdrgpcrs : ColRefSets) (row : Row D) : Prop :=
  ∀ x y, Together pdrgpcrs x y → Linked row x y

variable {pdrgpcrs : ColRefSets}

omit [LinearOrder D] in
theorem ClassesHoldNotNull.linked (h : ClassesHoldNotNull pdrgpcrs row) :
    ClassesLinked pdrgpcrs row := by
  rintro x y ⟨pcrs, hpcrs, hx, hy⟩
  exact .inr ⟨(h pcrs hpcrs x hx).2 y hy, (h pcrs hpcrs x hx).1⟩

omit [LinearOrder D] in
/-- Merging links what the merged classes link: being linked is transitive. -/
theorem ClassesLinked.merge {A B : ColRefSets} (hdisjoint : A.Pairwise List.Disjoint)
    (hA : ClassesLinked A row) (hB : ClassesLinked B row) :
    ClassesLinked (pdrgpcrsMergeEquivClasses A B) row := by
  intro x y hxy
  refine Relation.TransGen.trans_induction_on ((together_merge hdisjoint B x y).1 hxy)
    (fun {c d} hstep => ?_) fun _ _ h h' => h.trans h'
  rcases together_append.1 hstep with hstep | hstep
  · exact hA c d hstep
  · exact hB c d hstep

omit [LinearOrder D] in
/-- The classes of the children, merged. -/
theorem copyChildEquivClasses_spec (children : List ColRefSets) :
    (pdrgpcrsCopyChildEquivClasses children).Pairwise List.Disjoint ∧
      (∀ c, (∃ pcrs ∈ pdrgpcrsCopyChildEquivClasses children, c ∈ pcrs) ↔
        ∃ pcrs ∈ children.flatten, c ∈ pcrs) ∧
      ∀ row : Row D, ClassesHoldNotNull children.flatten row →
        ClassesLinked (pdrgpcrsCopyChildEquivClasses children) row := by
  have hfold : ∀ (children : List ColRefSets) (A : ColRefSets), A.Pairwise List.Disjoint →
      (children.foldl pdrgpcrsMergeEquivClasses A).Pairwise List.Disjoint ∧
      (∀ c, (∃ pcrs ∈ children.foldl pdrgpcrsMergeEquivClasses A, c ∈ pcrs) ↔
        ∃ pcrs ∈ A ++ children.flatten, c ∈ pcrs) ∧
      ∀ row : Row D, ClassesLinked A row → ClassesHoldNotNull children.flatten row →
        ClassesLinked (children.foldl pdrgpcrsMergeEquivClasses A) row := by
    intro children
    induction children with
    | nil =>
      exact fun A hA => ⟨hA, fun c => by simp, fun row h _ => h⟩
    | cons child children ih =>
      intro A hA
      obtain ⟨hdisjoint, hcover, hlinked⟩ := ih _ (pairwise_merge hA child)
      refine ⟨hdisjoint, fun c => ?_, fun row hrow hhold => ?_⟩
      · rw [List.foldl_cons, hcover]
        have hmerge := mem_merge hA child c
        simp only [List.mem_append, or_and_right, exists_or, List.flatten_cons] at hmerge ⊢
        rw [hmerge, or_assoc]
      · have hparts : ClassesHoldNotNull child row ∧ ClassesHoldNotNull children.flatten row :=
          ⟨fun pcrs hp => hhold pcrs (by simp [hp]), fun pcrs hp => hhold pcrs
            (by rw [List.flatten_cons]; exact List.mem_append_right _ hp)⟩
        exact hlinked row (hrow.merge hA hparts.1.linked) hparts.2
  obtain ⟨hdisjoint, hcover, hlinked⟩ := hfold children [] List.Pairwise.nil
  exact ⟨hdisjoint, hcover, fun row h => hlinked row (by rintro x y ⟨s, hs, -⟩; cases hs) h⟩

/-! ## Equalities of columns -/

/-- The predicate is `x = y` on columns, up to casts. -/
def IsEquality (pexpr : ScalarExpr D) (x y : CColRef) : Prop :=
  ∃ left right, pexpr = .cmp .eq left right ∧ left.identOrCast = some x ∧
    right.identOrCast = some y

variable {pexpr : ScalarExpr D}

omit [LinearOrder D] in
theorem fCheckPredicateImplication_iff :
    fCheckPredicateImplication pexpr = true ↔ ∃ x y, IsEquality pexpr x y := by
  constructor
  · intro h
    unfold fCheckPredicateImplication at h
    split at h
    · rename_i left right
      obtain ⟨hleft, hright⟩ := Bool.and_eq_true_iff.1 h
      obtain ⟨x, hx⟩ := Option.isSome_iff_exists.1 hleft
      obtain ⟨y, hy⟩ := Option.isSome_iff_exists.1 hright
      exact ⟨x, y, left, right, rfl, hx, hy⟩
    · cases h
  · rintro ⟨x, y, left, right, rfl, hx, hy⟩
    simp [fCheckPredicateImplication, hx, hy]

omit [LinearOrder D] in
theorem selfEquality_iff {c : CColRef} :
    selfEquality pexpr = some c ↔ IsEquality pexpr c c := by
  constructor
  · intro h
    unfold selfEquality at h
    split at h
    · rename_i left right
      split_ifs at h with hsame
      exact ⟨left, right, rfl, h, hsame ▸ h⟩
    · cases h
  · rintro ⟨left, right, rfl, hleft, hright⟩
    simp [selfEquality, hleft, hright]

omit [LinearOrder D] in
theorem usedColumns_of_identOrCast {x : ScalarOperand D} {c : CColRef}
    (h : x.identOrCast = some c) : x.usedColumns = [c] := by
  unfold ScalarOperand.identOrCast at h
  split at h
  · rw [ScalarOperand.usedColumns, Option.some.inj h]
  · rw [ScalarOperand.usedColumns, ScalarOperand.usedColumns, Option.some.inj h]
  · cases h

namespace IsEquality

variable {pexpr : ScalarExpr D} {x y : CColRef} (h : IsEquality pexpr x y)
include h

omit [LinearOrder D] in
theorem usedColumns : pexpr.usedColumns = [x, y] := by
  obtain ⟨left, right, rfl, hleft, hright⟩ := h
  rw [ScalarExpr.usedColumns, usedColumns_of_identOrCast hleft, usedColumns_of_identOrCast hright]
  rfl

omit [LinearOrder D] in
/-- The test asks whether both columns are in one class. -/
theorem fImpliedPredicate_iff (pdrgpcrs : ColRefSets) :
    fImpliedPredicate pexpr pdrgpcrs = true ↔ Together pdrgpcrs x y := by
  simp [fImpliedPredicate, h.usedColumns, Together]

/-- An equality is true of equal columns that are not NULL. -/
theorem eval_iff : pexpr.eval I row = some true ↔ row x = row y ∧ row x ≠ ⊥ := by
  obtain ⟨left, right, rfl, hleft, hright⟩ := h
  rw [ScalarExpr.eval, CConstraintInterval.eval_of_identOrCast hleft,
    CConstraintInterval.eval_of_identOrCast hright]
  cases row x using WithBot.recBotCoe with
  | bot => simp [evalCmp]
  | coe a =>
    cases row y using WithBot.recBotCoe with
    | bot => simp [evalCmp]
    | coe b => simp [evalCmp]

end IsEquality

omit [LinearOrder D] in
theorem constOrCast_of_identOrCast {x : ScalarOperand D} {c : CColRef}
    (h : x.identOrCast = some c) : x.constOrCast = none := by
  unfold ScalarOperand.identOrCast at h
  split at h
  · rfl
  · rfl
  · cases h

/-- Intervals on two columns have nothing to de-duplicate. -/
theorem pcnstrConjDisj_intervals {p q : CConstraintInterval (Datum D)} (h : p.pcr ≠ q.pcr) :
    pcnstrConjDisj fArrayConstraints true [.interval p, .interval q] =
      .ok (some (.conjunction [.interval p, .interval q])) := by
  have hused : ∀ r : CConstraintInterval (Datum D), (interval r).pcrsUsed = [r.pcr] := fun r => by
    simp [pcrsUsed, columns]
  have hloop : deduplicateLoop fArrayConstraints true [.interval p, .interval q]
      [.interval p, .interval q] [] = .ok [.interval p, .interval q] := by
    simp [deduplicateLoop, hused, h, h.symm, Functor.map, Except.map]
  simp only [pcnstrConjDisj, ofConjDisj, flatten, List.flatMap_cons, List.flatMap_nil,
    List.append_nil, List.singleton_append,
    hloop]
  rfl

variable (fArrayConstraints arrayExpansionThreshold) in
/-- The classes of an equality, `x = x` included, are on its columns, and it is always derived:
    the two intervals of `x = y` are on different columns, and `x = x` has no interval. -/
theorem IsEquality.derived {x y : CColRef} (h : IsEquality pexpr x y) :
    ∃ o pdrgpcrs, pcnstrFromScalarExpr fArrayConstraints arrayExpansionThreshold pexpr false =
      .ok (o, pdrgpcrs) ∧ ∀ cls ∈ pdrgpcrs, cls = [] ∨ cls = [[x, y]] := by
  have hcolumns := h.usedColumns
  obtain ⟨left, right, rfl, hleft, hright⟩ := h
  have hexpr : exprColumns (.cmp .eq left right) = [x, y].dedup := congrArg List.dedup hcolumns
  rw [pcnstrFromScalarExpr, hexpr]
  by_cases hxy : x = y
  · subst hxy
    have hdedup : [x, x].dedup = [x] := by simp
    rw [hdedup]
    dsimp only
    rw [pcnstrFromColumn]
    split_ifs
    · exact ⟨none, none, rfl, by simp⟩
    · have hnone : CConstraintInterval.pciIntervalFromScalarExpr fArrayConstraints x
          (.cmp .eq left right) false = .ok none := by
        rw [CConstraintInterval.pciIntervalFromScalarExpr,
          CConstraintInterval.pciIntervalFromScalarCmp, hleft, constOrCast_of_identOrCast hright]
      simp only [pcnstrOnColumn, hnone]
      exact ⟨none, some [], rfl, by simp⟩
  · have hdedup : [x, y].dedup = [x, y] := by simp [hxy]
    rw [hdedup]
    dsimp only
    rw [pcnstrFromScalarCmp, hleft, hright]
    dsimp only
    by_cases hcon : (!x.fConstrainable || !y.fConstrainable) = true
    · rw [if_pos hcon]
      exact ⟨none, none, rfl, by simp⟩
    · rw [if_neg hcon]
      simp only [Bool.or_eq_true, Bool.not_eq_true', not_or, Bool.not_eq_false] at hcon
      simp only [pcrIncludesNull, CConstraintInterval.pciUnbounded, hcon, Bool.false_and,
        Option.map_some, Option.toList_some, List.singleton_append, decide_true, Bool.not_false,
        Bool.and_self, if_true]
      rw [pcnstrConjDisj_intervals hxy]
      exact ⟨_, some [[x, y]], rfl, by simp⟩

/-- `[x, y]` of a true equality, or at most one column: what a conjunct that is no AND brings in is
    linked. -/
theorem linked_of_derived (hand : pexpr.fAnd = false) {o : Option (CConstraint D)}
    (h : pcnstrFromScalarExpr fArrayConstraints arrayExpansionThreshold pexpr false =
      .ok (o, some pdrgpcrs))
    (htrue : pexpr.eval I row = some true) :
    ClassesLinked pdrgpcrs row := by
  have hnil : ClassesLinked [] row := by rintro x y ⟨s, hs, -⟩; cases hs
  have hcolumn : ∀ (e : ScalarExpr D) (colref : CColRef),
      pcnstrFromColumn fArrayConstraints arrayExpansionThreshold colref e false =
        .ok (o, some pdrgpcrs) → ClassesLinked pdrgpcrs row := by
    intro e colref h
    rw [pcnstrFromColumn] at h
    split_ifs at h
    · cases h
    · simp only [bind_eq_ok, pure_eq_ok, Prod.mk.injEq, Option.some.injEq] at h
      obtain ⟨o', -, -, rfl⟩ := h
      split_ifs
      · rintro x y ⟨s, hs, hx, hy⟩
        rw [List.mem_singleton.1 hs] at hx hy
        exact .inl ((List.mem_singleton.1 hx).trans (List.mem_singleton.1 hy).symm)
      · exact hnil
  cases pexpr with
  | cmp cmpType left right =>
    simp only [pcnstrFromScalarExpr] at h
    split at h
    · cases h
    · exact hcolumn _ _ h
    · unfold pcnstrFromScalarCmp at h
      split at h
      · rename_i x y hleft hright
        split_ifs at h
        · cases h
        · simp only [bind_eq_ok, pure_eq_ok, Prod.mk.injEq, Option.some.injEq] at h
          obtain ⟨o', -, -, rfl⟩ := h
          split_ifs with heq
          · simp only [Bool.and_eq_true, decide_eq_true_eq] at heq
            obtain rfl := heq.1.1
            have hxy : IsEquality (.cmp .eq left right) x y := ⟨left, right, rfl, hleft, hright⟩
            have hrow := hxy.eval_iff.1 htrue
            refine ClassesHoldNotNull.linked fun s hs => ?_
            rw [List.mem_singleton.1 hs]
            simp [hrow.1, hrow.1 ▸ hrow.2]
          · exact hnil
      · cases h
  | boolOp op children =>
    have hop : op ≠ .and := by rintro rfl; cases hand
    simp only [pcnstrFromScalarExpr] at h
    split at h
    · cases h
    · exact hcolumn _ _ h
    · obtain hnone | ⟨kept, cls, -, hkept, hcls, -⟩ := boolOp_cases h
      · cases hnone
      · have hempty : cls = [] := boolOpChildren_noClasses hop hkept
        obtain rfl : pdrgpcrs = cls := Option.some.inj hcls
        rw [hempty]
        exact hnil
  | const value => cases h
  | nullTest child | isDistinctFrom left right | arrayCmp arr cmpType left coerced array
  | other id used =>
    unfold pcnstrFromScalarExpr at h
    split at h
    · exact hcolumn _ _ h
    · cases h

/-! ## Conjuncts -/

omit [LinearOrder D] in
/-- No conjunct is an AND. -/
theorem fAnd_of_mem_conjuncts {pexpr e : ScalarExpr D} :
    e ∈ pexpr.conjuncts → e.fAnd = false := by
  induction pexpr using ScalarExpr.induction with
  | boolOp op children ih =>
    cases op with
    | and =>
      rw [ScalarExpr.conjuncts, ScalarExpr.conjunctsAll_eq_flatMap]
      intro he
      obtain ⟨child, hchild, he⟩ := List.mem_flatMap.1 he
      exact ih child hchild he
    | or | not => exact fun he => List.mem_singleton.1 he ▸ rfl
  | _ => exact fun he => List.mem_singleton.1 he ▸ rfl

/-- A predicate is true when its conjuncts are. -/
theorem eval_iff_conjuncts :
    pexpr.eval I row = some true ↔ ∀ e ∈ pexpr.conjuncts, e.eval I row = some true := by
  induction pexpr using ScalarExpr.induction with
  | boolOp op children ih =>
    cases op with
    | and =>
      rw [ScalarExpr.conjuncts, ScalarExpr.conjunctsAll_eq_flatMap, ScalarExpr.eval,
        ScalarExpr.evalAll_eq_map, EBoolOperator.eval, ← Truth.holds_false_iff, Truth.holds_all]
      simp only [List.forall_mem_map, Truth.holds_false_iff, List.mem_flatMap, forall_exists_index,
        and_imp]
      exact ⟨fun h e child hchild he => (ih child hchild).1 (h child hchild) e he,
        fun h child hchild => (ih child hchild).2 fun e he => h e child hchild he⟩
    | or | not => simp [ScalarExpr.conjuncts]
  | _ => simp [ScalarExpr.conjuncts]

/-! ## The loop -/

/-- The columns that a conjunct brings in, where it is derived. -/
theorem conjunctClasses_of_derived {o : Option (CConstraint D)} {pdrgpcrs : Option ColRefSets}
    (h : pcnstrFromScalarExpr fArrayConstraints arrayExpansionThreshold pexpr false =
      .ok (o, pdrgpcrs)) :
    conjunctClasses fArrayConstraints arrayExpansionThreshold pexpr = pdrgpcrs.getD [] := by
  rw [conjunctClasses, h]
  cases pdrgpcrs <;> rfl

omit [LinearOrder D] in
/-- A conjunct that is skipped is an equality on columns of one class. -/
theorem together_of_skipped
    (h : (fCheckPredicateImplication pexpr && fImpliedPredicate pexpr pdrgpcrs) = true) :
    ∃ x y, IsEquality pexpr x y ∧ Together pdrgpcrs x y := by
  obtain ⟨hcheck, himplied⟩ := Bool.and_eq_true_iff.1 h
  obtain ⟨x, y, hxy⟩ := fCheckPredicateImplication_iff.1 hcheck
  exact ⟨x, y, hxy, (hxy.fImpliedPredicate_iff pdrgpcrs).1 himplied⟩

omit [LinearOrder D] in
theorem isCovered_iff :
    isCovered pdrgpcrs pexpr = true ↔ ∃ c, IsEquality pexpr c c ∧ ∃ pcrs ∈ pdrgpcrs, c ∈ pcrs := by
  simp [isCovered, Option.any_eq_true, selfEquality_iff]

theorem forall_mem_uncovered_cons {P : ScalarExpr D → Prop} {Q : ColRefSets} {e : ScalarExpr D}
    {es : List (ScalarExpr D)} :
    (∀ e' ∈ uncovered fArrayConstraints arrayExpansionThreshold Q (e :: es), P e') ↔
      (isCovered Q e = false → P e) ∧ ∀ e' ∈ uncovered fArrayConstraints arrayExpansionThreshold
        (Q ++ conjunctClasses fArrayConstraints arrayExpansionThreshold e) es, P e' := by
  rw [uncovered, List.forall_mem_append]
  cases isCovered Q e <;> simp

variable (fArrayConstraints arrayExpansionThreshold) in
/-- The columns covered after a conjunct: a skipped one brings in none that were not. -/
theorem covers_after {A Q : ColRefSets} (hdisjoint : A.Pairwise List.Disjoint)
    (hcover : ∀ c, (∃ pcrs ∈ A, c ∈ pcrs) ↔ ∃ pcrs ∈ Q, c ∈ pcrs) {e : ScalarExpr D} :
    (∀ x y, IsEquality e x y → Together A x y → ∀ c, (∃ pcrs ∈ A, c ∈ pcrs) ↔
      ∃ pcrs ∈ Q ++ conjunctClasses fArrayConstraints arrayExpansionThreshold e, c ∈ pcrs) ∧
    ∀ o pdrgpcrs, pcnstrFromScalarExpr fArrayConstraints arrayExpansionThreshold e false =
        .ok (o, pdrgpcrs) → ∀ c,
      (∃ pcrs ∈ pdrgpcrs.elim A (pdrgpcrsMergeEquivClasses A), c ∈ pcrs) ↔
      ∃ pcrs ∈ Q ++ conjunctClasses fArrayConstraints arrayExpansionThreshold e, c ∈ pcrs := by
  have hsplit : ∀ (R : ColRefSets) (c : CColRef), (∃ pcrs ∈ Q ++ R, c ∈ pcrs) ↔
      (∃ pcrs ∈ A, c ∈ pcrs) ∨ ∃ pcrs ∈ R, c ∈ pcrs := by
    intro R c
    rw [hcover]
    simp only [List.mem_append, or_and_right, exists_or]
  constructor
  · rintro x y hxy ⟨s, hs, hx, hy⟩ c
    obtain ⟨o, pdrgpcrs, hderived, hclasses⟩ :=
      hxy.derived fArrayConstraints arrayExpansionThreshold
    rw [hsplit, conjunctClasses_of_derived hderived]
    refine ⟨.inl, fun h => h.elim id fun ⟨t, ht, hc⟩ => ⟨s, hs, ?_⟩⟩
    cases pdrgpcrs with
    | none => cases ht
    | some cls =>
      rcases hclasses cls rfl with rfl | rfl
      · cases ht
      · rw [List.mem_singleton.1 ht] at hc
        rcases List.mem_cons.1 hc with rfl | hc
        · exact hx
        · exact List.mem_singleton.1 hc ▸ hy
  · intro o pdrgpcrs hderived c
    rw [hsplit, conjunctClasses_of_derived hderived]
    cases pdrgpcrs with
    | none => simp
    | some cls =>
      rw [Option.elim_some, mem_merge hdisjoint]
      simp only [List.mem_append, or_and_right, exists_or, Option.getD_some]

variable (fArrayConstraints arrayExpansionThreshold) in
/-- **What the loop keeps.** It returns when every conjunct is derived. With classes that cover the
    same columns as those of the condition, what it keeps are conjuncts that are not covered, and in
    a row where the classes are linked and the kept conjuncts are true, all of those are true: a
    skipped equality of two columns is implied. -/
theorem removeImpliedLoop_spec {es : List (ScalarExpr D)} (hes : ∀ e ∈ es, e.fAnd = false)
    {A Q : ColRefSets} (hdisjoint : A.Pairwise List.Disjoint)
    (hcover : ∀ c, (∃ pcrs ∈ A, c ∈ pcrs) ↔ ∃ pcrs ∈ Q, c ∈ pcrs) (acc : List (ScalarExpr D)) :
    ((∃ kept, removeImpliedLoop fArrayConstraints arrayExpansionThreshold es A acc = .ok kept) ↔
      ∀ e ∈ es, ∃ d, pcnstrFromScalarExpr fArrayConstraints arrayExpansionThreshold e false =
        .ok d) ∧
    ∀ kept, removeImpliedLoop fArrayConstraints arrayExpansionThreshold es A acc = .ok kept →
      ∃ new, kept = acc ++ new ∧
        ∀ (I : Interpretation D) (row : Row D), ClassesLinked A row →
          ((∀ e ∈ new, e.eval I row = some true) ↔
            ∀ e ∈ uncovered fArrayConstraints arrayExpansionThreshold Q es,
              e.eval I row = some true) := by
  induction es generalizing A Q acc with
  | nil =>
    refine ⟨by simp [removeImpliedLoop], fun kept h => ⟨[], ?_, by simp [uncovered]⟩⟩
    rw [List.append_nil]
    exact (Except.ok.inj h).symm
  | cons e es ih =>
    obtain ⟨hand, hrest⟩ := List.forall_mem_cons.1 hes
    obtain ⟨hcoverSkipped, hcoverKept⟩ :=
      covers_after fArrayConstraints arrayExpansionThreshold hdisjoint hcover (e := e)
    rw [removeImpliedLoop]
    by_cases hskip : (fCheckPredicateImplication e && fImpliedPredicate e A) = true
    · -- skipped: an equality, always derived, with both columns in one class
      obtain ⟨x, y, hxy, htogether⟩ := together_of_skipped hskip
      obtain ⟨o, pdrgpcrs, hderived, -⟩ := hxy.derived fArrayConstraints arrayExpansionThreshold
      obtain ⟨hreturns, hkept⟩ := ih hrest hdisjoint (hcoverSkipped x y hxy htogether) acc
      rw [if_pos hskip]
      refine ⟨?_, fun kept h => ?_⟩
      · rw [hreturns, List.forall_mem_cons]
        exact ⟨fun h => ⟨⟨_, hderived⟩, h⟩, fun h => h.2⟩
      · obtain ⟨new, hnew, htrue⟩ := hkept kept h
        refine ⟨new, hnew, fun I row hlinked => ?_⟩
        rw [forall_mem_uncovered_cons, htrue I row hlinked]
        refine ⟨fun h => ⟨fun huncovered => ?_, h⟩, fun h => h.2⟩
        rcases hlinked x y htogether with rfl | hrow
        · obtain ⟨s, hs, hx, -⟩ := htogether
          have hcovered : isCovered Q e = true :=
            isCovered_iff.2 ⟨x, hxy, (hcover x).1 ⟨s, hs, hx⟩⟩
          rw [hcovered] at huncovered
          cases huncovered
        · exact hxy.eval_iff.2 hrow
    · rw [if_neg hskip]
      cases hderived : pcnstrFromScalarExpr fArrayConstraints arrayExpansionThreshold e false with
      | error fault =>
        refine ⟨⟨fun ⟨kept, h⟩ => (by cases h), fun h => ?_⟩, fun kept h => (by cases h)⟩
        obtain ⟨d, hd⟩ := h e List.mem_cons_self
        rw [hderived] at hd
        cases hd
      | ok d =>
        obtain ⟨o, pdrgpcrs⟩ := d
        have hdisjoint' : (pdrgpcrs.elim A (pdrgpcrsMergeEquivClasses A)).Pairwise
            List.Disjoint := by
          cases pdrgpcrs with
          | none => exact hdisjoint
          | some cls => exact pairwise_merge hdisjoint cls
        obtain ⟨hreturns, hkept⟩ :=
          ih hrest hdisjoint' (hcoverKept o pdrgpcrs hderived) (acc ++ [e])
        rw [ok_bind]
        refine ⟨?_, fun kept h => ?_⟩
        · rw [hreturns, List.forall_mem_cons]
          exact ⟨fun h => ⟨⟨_, hderived⟩, h⟩, fun h => h.2⟩
        · obtain ⟨new, hnew, htrue⟩ := hkept kept h
          refine ⟨e :: new, by rw [hnew, List.append_assoc]; rfl, fun I row hlinked => ?_⟩
          have huncovered : isCovered Q e = false := by
            by_contra hcovered
            obtain ⟨c, hc, hmem⟩ := isCovered_iff.1 (Bool.eq_true_of_not_eq_false hcovered)
            obtain ⟨s, hs, hcs⟩ := (hcover c).2 hmem
            exact hskip (Bool.and_eq_true_iff.2 ⟨fCheckPredicateImplication_iff.2 ⟨c, c, hc⟩,
              (hc.fImpliedPredicate_iff A).2 ⟨s, hs, hcs, hcs⟩⟩)
          rw [List.forall_mem_cons, forall_mem_uncovered_cons]
          simp only [huncovered, forall_const]
          refine and_congr_right fun he => htrue I row ?_
          cases pdrgpcrs with
          | none => exact hlinked
          | some cls => exact hlinked.merge hdisjoint (linked_of_derived hand hderived he)

/-! ## The result -/

/-- All conjuncts are true when the uncovered ones are and the columns of the covered `c = c` are
    not NULL. -/
theorem forall_conjuncts_iff {es : List (ScalarExpr D)} (Q : ColRefSets) :
    (∀ e ∈ es, e.eval I row = some true) ↔
      (∀ e ∈ uncovered fArrayConstraints arrayExpansionThreshold Q es, e.eval I row = some true) ∧
        ∀ c ∈ coveredColumns fArrayConstraints arrayExpansionThreshold Q es, row c ≠ ⊥ := by
  induction es generalizing Q with
  | nil => simp [uncovered, coveredColumns]
  | cons e es ih =>
    rw [List.forall_mem_cons, ih (Q ++ conjunctClasses fArrayConstraints arrayExpansionThreshold e),
      forall_mem_uncovered_cons, coveredColumns, List.forall_mem_append]
    cases hcovered : isCovered Q e with
    | false => simp [and_assoc]
    | true =>
      obtain ⟨c, hc, -⟩ := isCovered_iff.1 hcovered
      rw [hc.eval_iff, selfEquality_iff.2 hc]
      simp [and_left_comm]

variable (fArrayConstraints arrayExpansionThreshold I)

/-- No column of a covered `c = c` is NULL where the other conjuncts accept a row of the children,
    and all conjuncts are derived. -/
def CoveredNotNull (children : List ColRefSets) (pexprScalar : ScalarExpr D) : Prop :=
  (∀ e ∈ pexprScalar.conjuncts, ∃ d, pcnstrFromScalarExpr fArrayConstraints
    arrayExpansionThreshold e false = .ok d) ∧
  ∀ row, ClassesHoldNotNull children.flatten row →
    (∀ e ∈ uncovered fArrayConstraints arrayExpansionThreshold children.flatten
      pexprScalar.conjuncts, e.eval I row = some true) →
    ∀ c ∈ coveredColumns fArrayConstraints arrayExpansionThreshold children.flatten
      pexprScalar.conjuncts, row c ≠ ⊥

/-- One predicate keeps its rows exactly when its covered comparisons are not NULL. -/
theorem removeImpliedFrom_iff (children : List ColRefSets) (pexprScalar : ScalarExpr D) :
    (∃ result, removeImpliedFrom fArrayConstraints arrayExpansionThreshold children pexprScalar =
        .ok result ∧ ∀ row, ClassesHoldNotNull children.flatten row →
          (result.eval I row = some true ↔ pexprScalar.eval I row = some true)) ↔
      CoveredNotNull fArrayConstraints arrayExpansionThreshold I children pexprScalar := by
  obtain ⟨hdisjoint, hcover, hlinked⟩ := copyChildEquivClasses_spec (D := D) children
  have hand : ∀ e ∈ pexprScalar.conjuncts, e.fAnd = false := fun e he => fAnd_of_mem_conjuncts he
  obtain ⟨hreturns, hkept⟩ := removeImpliedLoop_spec fArrayConstraints arrayExpansionThreshold
    hand hdisjoint hcover []
  have hresult : ∀ kept, removeImpliedLoop fArrayConstraints arrayExpansionThreshold
      pexprScalar.conjuncts (pdrgpcrsCopyChildEquivClasses children) [] = .ok kept →
      ∀ row, ClassesHoldNotNull children.flatten row →
        ((pexprConjDisj true kept).eval I row = some true ↔
          ∀ e ∈ uncovered fArrayConstraints arrayExpansionThreshold children.flatten
            pexprScalar.conjuncts, e.eval I row = some true) := by
    intro kept h row hrow
    obtain ⟨new, rfl, htrue⟩ := hkept kept h
    rw [← htrue I row (hlinked row hrow)]
    exact satisfied_pexprConjDisj true _
  rw [removeImpliedFrom]
  simp only [map_eq_ok]
  constructor
  · rintro ⟨result, ⟨kept, hrun, rfl⟩, hsame⟩
    refine ⟨hreturns.1 ⟨kept, hrun⟩, fun row hrow hall => ?_⟩
    have htrue := (hsame row hrow).1 ((hresult kept hrun row hrow).2 hall)
    exact ((forall_conjuncts_iff children.flatten).1 (eval_iff_conjuncts.1 htrue)).2
  · rintro ⟨hderived, hnotnull⟩
    obtain ⟨kept, hrun⟩ := hreturns.2 hderived
    refine ⟨_, ⟨kept, hrun, rfl⟩, fun row hrow => ?_⟩
    rw [hresult kept hrun row hrow, eval_iff_conjuncts]
    constructor
    · exact fun h => (forall_conjuncts_iff children.flatten).2 ⟨h, hnotnull row hrow h⟩
    · exact fun h => ((forall_conjuncts_iff children.flatten).1 h).1

/-- **Removing implied conjuncts keeps the accepted rows** exactly where every covered comparison
    `c = c` is on a column that is not NULL in the rows that the other conjuncts accept: on all rows
    of the children, whose classes hold, each predicate of the condition accepts what it accepted
    before. -/
theorem pexprRemoveImpliedConjuncts_accepts_iff (children : List ColRefSets)
    (condition : JoinCondition D) :
    (∃ result, pexprRemoveImpliedConjuncts fArrayConstraints arrayExpansionThreshold children
        condition = .ok result ∧ ∀ row, ClassesHoldNotNull children.flatten row →
          result.accepts I row = condition.accepts I row) ↔
      ∀ pexpr ∈ condition.predicates,
        CoveredNotNull fArrayConstraints arrayExpansionThreshold I children pexpr := by
  have hbeq : ∀ (e e' : ScalarExpr D) (row : Row D),
      ((e.eval I row == some true) = (e'.eval I row == some true)) ↔
        (e.eval I row = some true ↔ e'.eval I row = some true) := fun e e' row => by
    rw [Bool.eq_iff_iff, beq_iff_eq, beq_iff_eq]
  simp only [← removeImpliedFrom_iff]
  cases condition with
  | predicate pexpr =>
    simp only [pexprRemoveImpliedConjuncts, map_eq_ok, JoinCondition.accepts,
      JoinCondition.predicates, List.map_singleton, List.forall_mem_singleton]
    constructor
    · rintro ⟨_, ⟨result, hrun, rfl⟩, hsame⟩
      exact ⟨result, hrun, fun row hrow => (hbeq _ _ row).1 (List.singleton_injective
        (hsame row hrow))⟩
    · rintro ⟨result, hrun, hsame⟩
      exact ⟨_, ⟨result, hrun, rfl⟩, fun row hrow =>
        congrArg ([·]) ((hbeq result pexpr row).2 (hsame row hrow))⟩
  | naryJoinPredList pdrgpexpr =>
    simp only [pexprRemoveImpliedConjuncts, map_eq_ok, JoinCondition.predicates]
    have hlist : (∃ results, pdrgpexpr.mapM (removeImpliedFrom fArrayConstraints
        arrayExpansionThreshold children) = .ok results ∧ ∀ row,
          ClassesHoldNotNull children.flatten row →
          results.map (fun e => e.eval I row == some true) =
            pdrgpexpr.map fun e => e.eval I row == some true) ↔
        ∀ e ∈ pdrgpexpr, ∃ result, removeImpliedFrom fArrayConstraints arrayExpansionThreshold
          children e = .ok result ∧ ∀ row, ClassesHoldNotNull children.flatten row →
            (result.eval I row = some true ↔ e.eval I row = some true) := by
      simp only [← hbeq]
      exact mapM_all_iff (removeImpliedFrom fArrayConstraints arrayExpansionThreshold children)
        (fun row e => e.eval I row == some true)
        (fun row e => e.eval I row == some true) pdrgpexpr
    rw [← hlist]
    constructor
    · rintro ⟨_, ⟨results, hrun, rfl⟩, hsame⟩
      exact ⟨results, hrun, hsame⟩
    · rintro ⟨results, hrun, hsame⟩
      exact ⟨_, ⟨results, hrun, rfl⟩, hsame⟩

/-- `a IS NULL AND a = a`: the derived class `[a]` covers `a = a`, which is dropped, and the row in
    which `a` is NULL is accepted. -/
theorem pexprRemoveImpliedConjuncts_isNull :
    let a : CColRef := ⟨1, true, true, true⟩
    let condition : JoinCondition ℤ :=
      .predicate (.boolOp .and [.nullTest (.ident a), .cmp .eq (.ident a) (.ident a)])
    let I : Interpretation ℤ := ⟨fun _ _ => ⊥, fun _ _ => none, fun _ _ => none⟩
    ¬∃ result, pexprRemoveImpliedConjuncts false 25 [[]] condition = .ok result ∧
      ∀ row, ClassesHoldNotNull [[]].flatten row →
        result.accepts I row = condition.accepts I row := by
  intro a condition I
  rintro ⟨result, hrun, hsame⟩
  have hresult : pexprRemoveImpliedConjuncts false 25 [[]] condition =
      .ok (.predicate (.nullTest (.ident a))) := rfl
  cases hresult.symm.trans hrun
  have hrow := hsame (fun _ => ⊥) (by simp [ClassesHoldNotNull])
  simp [JoinCondition.accepts, JoinCondition.predicates, condition, ScalarExpr.eval,
    ScalarOperand.eval, EBoolOperator.eval, evalCmp, Truth.all, Truth.and] at hrow

end BossOptimizer

import BossOptimizer.Operators.ArrayExpansion
import BossOptimizer.Operators.IndexPredicates
import Mathlib.Algebra.Order.BigOperators.Group.List

/-!
# Bitmap access paths: `CXformUtils::PexprScalarBitmapBoolOp` (CXformUtils.cpp:2933)

A predicate of ANDs and ORs becomes a tree of bitmap index probes, a recheck condition and a
residual. A conjunction of supported predicates takes the best index and is tried again with what
that index leaves; anything else is broken down into its conjuncts or disjuncts. A residual inside a
disjunction is not a residual of the disjunction: the whole original predicate takes its place.
-/

namespace BossOptimizer

/-- `CScalarBitmapIndexProbe`, with the position of the index, and `CScalarBitmapBoolOp`. -/
inductive BitmapExpr where
  | indexProbe (ulIndex : ℕ) (pexprIndexCond : IndexScalar)
  | boolOp (fConjunction : Bool) (pexprLeft pexprRight : BitmapExpr)

/-- The relation with its indexes, the query, and what statistics say. -/
structure BitmapQuery where
  indexes : List IMDIndex
  IsAORowOrColTable : Bool
  pcrsReqd : List CColRef
  outer_refs : Option (List CColRef)
  /-- `CFilterStatsProcessor::SelectivityOfPredicate`. -/
  SelectivityOfPredicate : IndexScalar → ℚ

/-! ## Supported predicates -/

namespace IndexScalar

/-- `CPredicateUtils::FIdentCompareConstIgnoreCast` (CPredicateUtils.cpp:1110) of a `CScalarCmp`. -/
def FIdentCompareConstIgnoreCast : IndexScalar → Bool
  | .node (.other (.other (.cmp _))) (pexprLeft :: pexprRight :: _) =>
    FScalarIdentIgnoreCast pexprLeft && (FScalarConst pexprRight || FCastedConst pexprRight)
  | _ => false

/-- `CPredicateUtils::FIdentCompareOuterRefExprIgnoreCast` (CPredicateUtils.cpp:169). -/
def FIdentCompareOuterRefExprIgnoreCast (outer_refs : Option (List CColRef)) : IndexScalar → Bool
  | .node (.other (.other (.cmp _))) (pexprLeft :: pexprRight :: _) =>
    outer_refs.any fun outer_refs =>
      let colOp (pexprCol pexprExpr : IndexScalar) : Bool := FScalarIdentIgnoreCast pexprCol &&
        !(usedColumns pexprCol).any (outer_refs.contains ·) &&
        (usedColumns pexprExpr).all (outer_refs.contains ·)
      colOp pexprLeft pexprRight || colOp pexprRight pexprLeft
  | _ => false

/-- `CUtils::FScalarConstArray` (CUtils.cpp:555). -/
def FScalarConstArray : IndexScalar → Bool
  | .node (.other (.array _)) pdrgpexpr => pdrgpexpr.all FScalarConst
  | _ => false

/-- `CPredicateUtils::FArrayCompareIdentToConstIgnoreCast` (CPredicateUtils.cpp:1189). -/
def FArrayCompareIdentToConstIgnoreCast : IndexScalar → Bool
  | .node (.other (.arrayCmp _ _)) (pexprLeft :: pexprRight :: _) =>
    FScalarIdentIgnoreCast pexprLeft &&
      match pexprRight with
      | .node (.other (.array _)) _ | .node (.other (.arrayCoerce _)) _ =>
        FScalarConstArray (Predicate.PexprScalarArrayChild pexprRight)
      | _ => FScalarConst pexprRight || FCastedConst pexprRight
  | _ => false

/-- `CPredicateUtils::FNotIdent` (CPredicateUtils.cpp:2468). -/
def FNotIdent : IndexScalar → Bool
  | .node (.boolOp .not) (pexprChild :: _) => FScalarIdent pexprChild
  | _ => false

/-- The tests of `FBitmapLookupSupportedPredicateOrConjunct` on what is not a conjunction. -/
def FBitmapLookupSupportedPredicate (outer_refs : Option (List CColRef)) (pexpr : IndexScalar) :
    Bool :=
  FIdentCompareConstIgnoreCast pexpr || FIdentCompareOuterRefExprIgnoreCast outer_refs pexpr ||
    FArrayCompareIdentToConstIgnoreCast pexpr || FScalarIdentBoolType pexpr || FNotIdent pexpr

mutual

/-- `CPredicateUtils::FBitmapLookupSupportedPredicateOrConjunct` (CPredicateUtils.cpp:2753). -/
def FBitmapLookupSupportedPredicateOrConjunct (outer_refs : Option (List CColRef)) :
    IndexScalar → Bool
  | .node (.boolOp .and) pdrgpexpr => supportedEach outer_refs pdrgpexpr
  | pexpr => FBitmapLookupSupportedPredicate outer_refs pexpr

def supportedEach (outer_refs : Option (List CColRef)) : List IndexScalar → Bool
  | [] => true
  | pexpr :: pdrgpexpr => FBitmapLookupSupportedPredicateOrConjunct outer_refs pexpr &&
    supportedEach outer_refs pdrgpexpr

end

/-- `CPredicateUtils::PexprConjDisj` of two expressions (CPredicateUtils.cpp:754). -/
def PexprConjDisjTwo (fConjunction : Bool) (pexprOne pexprTwo : IndexScalar) : IndexScalar :=
  Predicate.PexprConjDisj fConjunction
    (Predicate.collect fConjunction pexprOne ++ Predicate.collect fConjunction pexprTwo)

end IndexScalar

namespace CXformUtils

open IndexScalar Predicate

variable (md : IndexCatalog) (query : BitmapQuery)

/-! ## The best index -/

/-- `AO_TABLE_BTREE_INDEX_SELECTIVITY_THRESHOLD` (CXformUtils.cpp:45). -/
def AO_TABLE_BTREE_INDEX_SELECTIVITY_THRESHOLD : ℚ := 1 / 10

/-- The variables of the loop of `PexprBitmapSelectBestIndex`. -/
structure BestIndex where
  ulBestIndex : ℕ
  pexprIndexFinal : Option IndexScalar
  pexprResidual : Option IndexScalar
  bestSelectivity : ℚ
  bestNumResiduals : ℕ
  bestNumIndexCols : ℕ

/-- The values they start with; `gpos::ulong_max` has 32 bits. -/
def BestIndex.start : BestIndex := ⟨0, none, none, 2, 2 ^ 32 - 1, 2 ^ 32 - 1⟩

/-- `altIndexType` of `PexprBitmapSelectBestIndex`. -/
def altIndexType (alsoConsiderBTreeIndexes : Bool) : EmdindexType :=
  if alsoConsiderBTreeIndexes then .EmdindBtree else .EmdindBitmap

/-- One round of `PexprBitmapSelectBestIndex`. -/
def selectIndex (pexprPred : IndexScalar) (alsoConsiderBTreeIndexes : Bool) (best : BestIndex)
    (index : IMDIndex × ℕ) : BestIndex :=
  let pmdindex := index.1
  let pcrsScalar := usedColumns pexprPred
  if pmdindex.IsPartialIndex || !FIndexApplicable pmdindex query.IsAORowOrColTable query.pcrsReqd
      pcrsScalar .EmdindBitmap (some (altIndexType alsoConsiderBTreeIndexes)) then best
  else
    let pdrgpexpr := ExtractIndexPredicates md pmdindex query.outer_refs alsoConsiderBTreeIndexes
      (collect true pexprPred)
    if pdrgpexpr.1.isEmpty || !FCompatiblePredicates pmdindex pdrgpexpr.1 then best
    else
      let pexprIndex := PexprConjDisj true pdrgpexpr.1
      let selectivity := query.SelectivityOfPredicate pexprIndex
      if AO_TABLE_BTREE_INDEX_SELECTIVITY_THRESHOLD < selectivity && query.IsAORowOrColTable &&
          pmdindex.IndexType = .EmdindBtree then best
      else if !pmdindex.pdrgpcrIndexCols.head?.any (pcrsScalar.contains ·) then best
      else
        let numResiduals := pdrgpexpr.2.length
        let numIndexCols := pmdindex.pdrgpcrIndexCols.length
        if selectivity < best.bestSelectivity || best.bestSelectivity = selectivity &&
            (numResiduals < best.bestNumResiduals || best.bestNumResiduals = numResiduals &&
              numIndexCols < best.bestNumIndexCols) then
          let pexprResidual := PexprConjDisj true pdrgpexpr.2
          ⟨index.2, some pexprIndex,
            if FScalarConstBool true pexprResidual then none else some pexprResidual,
            selectivity, numResiduals, numIndexCols⟩
        else best

/-- `PexprBitmapSelectBestIndex` (CXformUtils.cpp:3219): the probe with its recheck, and the
    residual. -/
def PexprBitmapSelectBestIndex (pexprPred : IndexScalar) (alsoConsiderBTreeIndexes : Bool) :
    Option (BitmapExpr × IndexScalar) × Option IndexScalar :=
  let best := query.indexes.zipIdx.foldl (selectIndex md query pexprPred alsoConsiderBTreeIndexes)
    BestIndex.start
  match best.pexprIndexFinal with
  | some pexprIndexFinal =>
    (some (.indexProbe best.ulBestIndex pexprIndexFinal, pexprIndexFinal), best.pexprResidual)
  | none => (none, some pexprPred)

/-! ## Boolean operators over probes -/

/-- `JoinBitmapIndexProbes` (CXformUtils.cpp:3600) of probes with their rechecks; `none` if there
    are none. -/
def JoinBitmapIndexProbes (fConjunction : Bool) :
    List (BitmapExpr × IndexScalar) → Option (BitmapExpr × IndexScalar)
  | [] => none
  | probe :: probes => some ((probes.map (·.1)).foldl (.boolOp fConjunction) probe.1,
    PexprConjDisj fConjunction ((probe :: probes).map (·.2)))

/-- `ComputeBitmapTableScanResidualPredicate` (CXformUtils.cpp:3016). -/
def ComputeBitmapTableScanResidualPredicate (fConjunction : Bool) (pexprOriginalPred : IndexScalar)
    (pexprResidual : Option IndexScalar) (pdrgpexprResidualNew : List IndexScalar) : IndexScalar :=
  if !fConjunction then pexprOriginalPred
  else
    let pexprResidualNew := PexprConjDisj true pdrgpexprResidualNew
    match pexprResidual with
    | some pexprResidual => PexprConjDisjTwo true pexprResidual pexprResidualNew
    | none => pexprResidualNew

/-- What a lookup returns: a bitmap with its recheck, and a residual; `none` where it runs out of
    rounds. -/
abbrev BitmapLookup : Type := Option (Option (BitmapExpr × IndexScalar) × Option IndexScalar)

/-- `PexprScalarBitmapBoolOp` (CXformUtils.cpp:2933), from the lookups of the predicates, with
    `CreateBitmapIndexProbeOps`. The recheck and the residual are input and output. -/
def scalarBitmapBoolOp (lookup : IndexScalar → Bool → BitmapLookup)
    (pexprOriginalPred : IndexScalar) (pdrgpexpr : List IndexScalar) (fConjunction : Bool)
    (pexprRecheck pexprResidual : Option IndexScalar) (isAPartialPredicate : Bool) :
    Option (Option BitmapExpr × Option IndexScalar × Option IndexScalar) := do
  let lookups ← pdrgpexpr.mapM (lookup · isAPartialPredicate)
  let probes := lookups.filterMap (·.1)
  let pdrgpexprResidualNew := lookups.filterMap (·.2)
  match JoinBitmapIndexProbes fConjunction probes with
  | none => return (none, pexprRecheck, pexprResidual)
  | some (pexprBitmap, pexprRecheckNew) =>
    if !fConjunction && probes.length < pdrgpexpr.length then
      return (none, pexprRecheck, pexprResidual)
    else
      return (some pexprBitmap,
        some (match pexprRecheck with
          | some pexprRecheck => PexprConjDisjTwo fConjunction pexprRecheck pexprRecheckNew
          | none => pexprRecheckNew),
        if pdrgpexprResidualNew.isEmpty then pexprResidual
        else some (ComputeBitmapTableScanResidualPredicate fConjunction pexprOriginalPred
          pexprResidual pdrgpexprResidualNew))

/-- The parts that `PexprBitmapLookupWithPredicateBreakDown` looks up: the conjuncts, the supported
    ones as one predicate, or the disjuncts. -/
def brokenDown (pexprPred : IndexScalar) : List IndexScalar :=
  if FAnd pexprPred then
    let supported := (collect true pexprPred).filter
      (FBitmapLookupSupportedPredicateOrConjunct query.outer_refs ·)
    let others := (collect true pexprPred).filter
      (!FBitmapLookupSupportedPredicateOrConjunct query.outer_refs ·)
    if supported.isEmpty then others else others ++ [PexprConjDisj true supported]
  else collect false pexprPred

/-- `PexprBitmapLookupWithPredicateBreakDown` (CXformUtils.cpp:3123), from the lookups of the
    parts. -/
def PexprBitmapLookupWithPredicateBreakDown (lookup : IndexScalar → Bool → BitmapLookup)
    (pexprOriginalPred pexprPred : IndexScalar) : BitmapLookup :=
  let pdrgpexpr := brokenDown query pexprPred
  if pdrgpexpr.length = 1 then some (none, none)
  else do
    let result ← scalarBitmapBoolOp lookup pexprOriginalPred pdrgpexpr (FAnd pexprPred) none none
      (!FAnd pexprPred)
    return (result.1.bind fun pexprBitmap => result.2.1.map (pexprBitmap, ·), result.2.2)

/-- The rounds of `CreateBitmapIndexProbesWithOrWithoutPredBreakdown` (CXformUtils.cpp:3447), from a
    predicate, the flag `retryIndexLookupWithResidual` and the probes so far. -/
def lookupRounds (pexprOriginalPred : IndexScalar) : ℕ → IndexScalar → Bool → Bool →
    List (BitmapExpr × IndexScalar) → BitmapLookup
  | 0, _, _, _, _ => none
  | fuel + 1, pexprPred, isAPartialPredicate, retryIndexLookupWithResidual, probes =>
    if FBitmapLookupSupportedPredicateOrConjunct query.outer_refs pexprPred then
      let isAPartialPredicateOrArrayCmp := isAPartialPredicate ||
        (collect true pexprPred).any FArrayCompareIdentToConstIgnoreCast
      match PexprBitmapSelectBestIndex md query pexprPred isAPartialPredicateOrArrayCmp with
      | (some probe, some pexprResidual) =>
        lookupRounds pexprOriginalPred fuel pexprResidual isAPartialPredicate true
          (probes ++ [probe])
      | (some probe, none) => some (JoinBitmapIndexProbes true (probes ++ [probe]), none)
      | (none, pexprResidual) => some (JoinBitmapIndexProbes true probes, pexprResidual)
    else do
      match ← PexprBitmapLookupWithPredicateBreakDown query
          (fun pexpr fPartial => lookupRounds pexprOriginalPred fuel pexpr fPartial false [])
          pexprOriginalPred pexprPred with
      | (some probe, pexprResidual) =>
        match retryIndexLookupWithResidual, pexprResidual with
        | true, some pexprResidual =>
          lookupRounds pexprOriginalPred fuel pexprResidual isAPartialPredicate true
            (probes ++ [probe])
        | _, pexprResidual => return (JoinBitmapIndexProbes true (probes ++ [probe]), pexprResidual)
      | (none, _) => return (JoinBitmapIndexProbes true probes, some pexprPred)

/-- `PexprScalarBitmapBoolOp` (CXformUtils.cpp:2933). -/
def PexprScalarBitmapBoolOp (fuel : ℕ) (pexprOriginalPred : IndexScalar)
    (pdrgpexpr : List IndexScalar) (fConjunction : Bool)
    (pexprRecheck pexprResidual : Option IndexScalar) (isAPartialPredicate : Bool) :
    Option (Option BitmapExpr × Option IndexScalar × Option IndexScalar) :=
  scalarBitmapBoolOp
    (fun pexpr fPartial => lookupRounds md query pexprOriginalPred fuel pexpr fPartial false [])
    pexprOriginalPred pdrgpexpr fConjunction pexprRecheck pexprResidual isAPartialPredicate

end CXformUtils

/-! ## Rows -/

section Rows

open IndexScalar

variable {md : IndexCatalog} {X Env : Type} (S : IndexSemantics md X Env) (env : Env)

/-- A row passes a predicate. -/
def IndexScalar.passes (pexpr : IndexScalar) : Prop :=
  Truth.holds false (Predicate.truth S.toSemantics pexpr env)

/-- The rows that a bitmap selects: those of the index conditions, intersected or united. -/
def BitmapExpr.selects : BitmapExpr → Prop
  | .indexProbe _ pexprIndexCond => passes S env pexprIndexCond
  | .boolOp true pexprLeft pexprRight => pexprLeft.selects ∧ pexprRight.selects
  | .boolOp false pexprLeft pexprRight => pexprLeft.selects ∨ pexprRight.selects

variable {S env}

attribute [local simp] IndexScalar.FBitmapLookupSupportedPredicateOrConjunct
  IndexScalar.supportedEach in
theorem IndexScalar.passes_pexprConjDisj {fConjunction : Bool} {pdrgpexpr : List IndexScalar} :
    passes S env (Predicate.PexprConjDisj fConjunction pdrgpexpr) ↔
      if fConjunction then ∀ pexpr ∈ pdrgpexpr, passes S env pexpr
      else ∃ pexpr ∈ pdrgpexpr, passes S env pexpr := by
  rw [passes]
  cases fConjunction
  · exact Predicate.holds_disjunction S.toSemantics
  · exact Predicate.holds_conjunction S.toSemantics

theorem IndexScalar.passes_collect (fConjunction : Bool) (pexpr : IndexScalar) :
    passes S env pexpr ↔
      if fConjunction then ∀ e ∈ Predicate.collect fConjunction pexpr, passes S env e
      else ∃ e ∈ Predicate.collect fConjunction pexpr, passes S env e := by
  rw [passes, ← Predicate.joined_collect S.toSemantics fConjunction, Truth.holds_joined]
  cases fConjunction <;> simp [passes]

theorem BitmapExpr.selects_foldl (fConjunction : Bool) (bitmaps : List BitmapExpr)
    (bitmap : BitmapExpr) : (bitmaps.foldl (.boolOp fConjunction) bitmap).selects S env ↔
      if fConjunction then bitmap.selects S env ∧ ∀ b ∈ bitmaps, b.selects S env
      else bitmap.selects S env ∨ ∃ b ∈ bitmaps, b.selects S env := by
  induction bitmaps generalizing bitmap with
  | nil => cases fConjunction <;> simp
  | cons b bitmaps ih =>
    rw [List.foldl_cons, ih]
    cases fConjunction <;> simp [selects, and_assoc, or_assoc]

variable (S env) in
/-- Probes that are joined select and recheck what all of them do, or one of them. -/
theorem CXformUtils.joinBitmapIndexProbes_spec {fConjunction : Bool}
    {probes : List (BitmapExpr × IndexScalar)} {probe : BitmapExpr × IndexScalar}
    (h : JoinBitmapIndexProbes fConjunction probes = some probe) :
    (probe.1.selects S env ↔ if fConjunction then ∀ p ∈ probes, p.1.selects S env
      else ∃ p ∈ probes, p.1.selects S env) ∧
    (passes S env probe.2 ↔ if fConjunction then ∀ p ∈ probes, passes S env p.2
      else ∃ p ∈ probes, passes S env p.2) := by
  cases probes with
  | nil => cases h
  | cons p probes =>
    cases h
    rw [BitmapExpr.selects_foldl, IndexScalar.passes_pexprConjDisj]
    cases fConjunction <;> simp [-Prod.exists, -Prod.forall]

/-! ## Lookups -/

namespace CXformUtils

variable {query : BitmapQuery} {pexprOriginalPred pexprPred : IndexScalar}
  {probes : List (BitmapExpr × IndexScalar)} {pexprResidual : Option IndexScalar}

variable (S env) in
/-- A lookup of a predicate in a row. The probes select what they recheck. Where the original
predicate is true nothing that passes the predicate is lost, and what passes the probes and the
residual passes the predicate or the original one. -/
structure Sound (pexprOriginalPred pexprPred : IndexScalar)
    (probes : List (BitmapExpr × IndexScalar)) (pexprResidual : Option IndexScalar) : Prop where
  exact : ∀ p ∈ probes, p.1.selects S env ↔ passes S env p.2
  keeps : passes S env pexprOriginalPred → passes S env pexprPred →
    (∀ p ∈ probes, passes S env p.2) ∧ ∀ e ∈ pexprResidual, passes S env e
  suffices_ : (∀ p ∈ probes, passes S env p.2) → (∀ e ∈ pexprResidual, passes S env e) →
    passes S env pexprPred ∨ passes S env pexprOriginalPred

theorem sound_refl : Sound S env pexprOriginalPred pexprPred [] (some pexprPred) :=
  ⟨by simp, fun _ h => ⟨by simp, by simpa using h⟩, fun _ h => .inl (h pexprPred rfl)⟩

/-- A lookup of the residual after the lookup of the predicate. -/
theorem Sound.trans {pexprMiddle : IndexScalar} {probes' : List (BitmapExpr × IndexScalar)}
    (h : Sound S env pexprOriginalPred pexprPred probes (some pexprMiddle))
    (h' : Sound S env pexprOriginalPred pexprMiddle probes' pexprResidual) :
    Sound S env pexprOriginalPred pexprPred (probes ++ probes') pexprResidual where
  exact := List.forall_mem_append.2 ⟨h.exact, h'.exact⟩
  keeps horiginal hpred := by
    obtain ⟨hprobes, hmiddle⟩ := h.keeps horiginal hpred
    obtain ⟨hprobes', hresidual⟩ := h'.keeps horiginal (hmiddle pexprMiddle rfl)
    exact ⟨List.forall_mem_append.2 ⟨hprobes, hprobes'⟩, hresidual⟩
  suffices_ hall hresidual := by
    obtain ⟨hprobes, hprobes'⟩ := List.forall_mem_append.1 hall
    rcases h'.suffices_ hprobes' hresidual with hmiddle | horiginal
    · exact h.suffices_ hprobes fun e he => by cases he; exact hmiddle
    · exact .inr horiginal

/-- Probes that are joined by AND. -/
theorem Sound.joined (h : Sound S env pexprOriginalPred pexprPred probes pexprResidual) :
    Sound S env pexprOriginalPred pexprPred (JoinBitmapIndexProbes true probes).toList
      pexprResidual := by
  cases hjoin : JoinBitmapIndexProbes true probes with
  | none =>
    cases probes with
    | nil => exact h
    | cons p probes => cases hjoin
  | some probe =>
    obtain ⟨hselects, hrecheck⟩ := joinBitmapIndexProbes_spec S env hjoin
    simp only [if_true] at hselects hrecheck
    constructor
    · simp only [Option.toList_some, List.mem_singleton, forall_eq]
      rw [hselects, hrecheck]
      exact forall₂_congr h.exact
    · simp only [Option.toList_some, List.mem_singleton, forall_eq, hrecheck]
      exact h.keeps
    · simp only [Option.toList_some, List.mem_singleton, forall_eq, hrecheck]
      exact h.suffices_

/-! ## The best index -/

/-- What an index gives for a predicate: the condition and the residual. -/
def OfIndex (md : IndexCatalog) (query : BitmapQuery) (pexprPred : IndexScalar) (fAllow : Bool)
    (pmdindex : IMDIndex) (pexprIndex : IndexScalar) (pexprResidual : Option IndexScalar) : Prop :=
  let pdrgpexpr := ExtractIndexPredicates md pmdindex query.outer_refs fAllow
    (Predicate.collect true pexprPred)
  pdrgpexpr.1 ≠ [] ∧ pexprIndex = Predicate.PexprConjDisj true pdrgpexpr.1 ∧
    pexprResidual = if Predicate.FScalarConstBool true (Predicate.PexprConjDisj true pdrgpexpr.2)
      then none else some (Predicate.PexprConjDisj true pdrgpexpr.2)

/-- A round keeps the best index or takes the one it looks at. -/
theorem selectIndex_cases (fAllow : Bool) (best : BestIndex) (index : IMDIndex × ℕ) :
    selectIndex md query pexprPred fAllow best index = best ∨
      ∃ pexprIndex, (selectIndex md query pexprPred fAllow best index).pexprIndexFinal =
          some pexprIndex ∧
        OfIndex md query pexprPred fAllow index.1 pexprIndex
          (selectIndex md query pexprPred fAllow best index).pexprResidual := by
  unfold selectIndex
  dsimp only
  split
  · exact .inl rfl
  · split
    · exact .inl rfl
    · next husable =>
      split
      · exact .inl rfl
      · split
        · exact .inl rfl
        · split
          · refine .inr ⟨_, rfl, ?_, rfl, rfl⟩
            simp only [Bool.or_eq_true, not_or] at husable
            simpa using husable.1
          · exact .inl rfl

/-- The best index is one of the indexes, and without one the predicate is the residual. -/
theorem pexprBitmapSelectBestIndex_cases (fAllow : Bool) :
    PexprBitmapSelectBestIndex md query pexprPred fAllow = (none, some pexprPred) ∨
      ∃ ul pmdindex pexprIndex pexprResidual,
        PexprBitmapSelectBestIndex md query pexprPred fAllow =
          (some (.indexProbe ul pexprIndex, pexprIndex), pexprResidual) ∧
        OfIndex md query pexprPred fAllow pmdindex pexprIndex pexprResidual := by
  have hbest : ∀ (indexes : List (IMDIndex × ℕ)) (best : BestIndex),
      (∀ pexprIndex ∈ best.pexprIndexFinal, ∃ pmdindex,
        OfIndex md query pexprPred fAllow pmdindex pexprIndex best.pexprResidual) →
      ∀ pexprIndex ∈ (indexes.foldl (selectIndex md query pexprPred fAllow) best).pexprIndexFinal,
        ∃ pmdindex, OfIndex md query pexprPred fAllow pmdindex pexprIndex
          (indexes.foldl (selectIndex md query pexprPred fAllow) best).pexprResidual := by
    intro indexes
    induction indexes with
    | nil => exact fun best h => h
    | cons index indexes ih =>
      intro best h
      rw [List.foldl_cons]
      refine ih _ ?_
      rcases @selectIndex_cases md query pexprPred fAllow best index with
        hkept | ⟨pexprIndex, hfinal, hindex⟩
      · rw [hkept]
        exact h
      · rw [hfinal]
        rintro _ ⟨⟩
        exact ⟨index.1, hindex⟩
  have hall := hbest query.indexes.zipIdx BestIndex.start (by simp [BestIndex.start])
  rw [PexprBitmapSelectBestIndex]
  split
  · next pexprIndex hfinal =>
    obtain ⟨pmdindex, hindex⟩ := hall pexprIndex hfinal
    exact .inr ⟨_, pmdindex, pexprIndex, _, rfl, hindex⟩
  · exact .inl rfl

/-- The condition of an index and its residual are the predicate. -/
theorem OfIndex.sound {fAllow : Bool} {pmdindex : IMDIndex} {pexprIndex : IndexScalar} {ul : ℕ}
    (h : OfIndex md query pexprPred fAllow pmdindex pexprIndex pexprResidual) :
    Sound S env pexprOriginalPred pexprPred [(.indexProbe ul pexprIndex, pexprIndex)]
      pexprResidual := by
  obtain ⟨-, rfl, rfl⟩ := h
  have hsplit : passes S env pexprPred ↔
      ∀ e ∈ (ExtractIndexPredicates md pmdindex query.outer_refs fAllow
          (Predicate.collect true pexprPred)).1 ++
        (ExtractIndexPredicates md pmdindex query.outer_refs fAllow
          (Predicate.collect true pexprPred)).2, passes S env e :=
    (passes_collect true pexprPred).trans (holds_extractIndexPredicates S _ env false)
  have hconj : ∀ pdrgpexpr, passes S env (Predicate.PexprConjDisj true pdrgpexpr) ↔
      ∀ e ∈ pdrgpexpr, passes S env e := fun _ => passes_pexprConjDisj
  generalize ExtractIndexPredicates md pmdindex query.outer_refs fAllow
    (Predicate.collect true pexprPred) = pdrgpexpr at *
  rw [List.forall_mem_append, ← hconj, ← hconj] at hsplit
  -- a residual that is constant TRUE is discarded
  have hresidual : (∀ e ∈ (if Predicate.FScalarConstBool true
        (Predicate.PexprConjDisj true pdrgpexpr.2) then none
      else some (Predicate.PexprConjDisj true pdrgpexpr.2)), passes S env e) ↔
      passes S env (Predicate.PexprConjDisj true pdrgpexpr.2) := by
    split
    · next hconst =>
      exact iff_of_true (by simp) (Predicate.truth_of_fScalarConstBool S.toSemantics hconst env)
    · simp
  constructor
  · simp [BitmapExpr.selects]
  · rw [hresidual, hsplit]
    simp
  · rw [hresidual, hsplit]
    simp only [List.mem_singleton, forall_eq]
    exact fun hindex hrest => .inl ⟨hindex, hrest⟩

/-! ## Boolean operators -/

variable {lookup : IndexScalar → Bool → BitmapLookup} {pdrgpexpr : List IndexScalar}
  {fConjunction fPartial : Bool}
  {lookups : List (Option (BitmapExpr × IndexScalar) × Option IndexScalar)}

variable (S env) in
/-- Each predicate has its lookup, and each lookup is that of a predicate. -/
structure LookedUp (pexprOriginalPred : IndexScalar) (pdrgpexpr : List IndexScalar)
    (lookups : List (Option (BitmapExpr × IndexScalar) × Option IndexScalar)) : Prop where
  ofPred : ∀ pexpr ∈ pdrgpexpr, ∃ result ∈ lookups,
    Sound S env pexprOriginalPred pexpr result.1.toList result.2
  ofResult : ∀ result ∈ lookups, ∃ pexpr ∈ pdrgpexpr,
    Sound S env pexprOriginalPred pexpr result.1.toList result.2

theorem mem_probes {p : BitmapExpr × IndexScalar} :
    p ∈ lookups.filterMap (·.1) ↔ ∃ result ∈ lookups, p ∈ result.1.toList := by
  simp [List.mem_filterMap]

theorem LookedUp.exact (h : LookedUp S env pexprOriginalPred pdrgpexpr lookups) :
    ∀ p ∈ lookups.filterMap (·.1), p.1.selects S env ↔ passes S env p.2 := by
  intro p hp
  obtain ⟨result, hresult, hp⟩ := mem_probes.1 hp
  obtain ⟨pexpr, -, hsound⟩ := h.ofResult result hresult
  exact hsound.exact p hp

/-- The probes of conjuncts together, with all residuals. -/
theorem LookedUp.conjunction (h : LookedUp S env pexprOriginalPred pdrgpexpr lookups)
    (hpred : passes S env pexprPred ↔ ∀ pexpr ∈ pdrgpexpr, passes S env pexpr)
    (hresidual : (∀ e ∈ pexprResidual, passes S env e) ↔
      ∀ result ∈ lookups, ∀ e ∈ result.2, passes S env e) :
    Sound S env pexprOriginalPred pexprPred (lookups.filterMap (·.1)) pexprResidual where
  exact := h.exact
  keeps horiginal hall := by
    rw [hpred] at hall
    rw [hresidual]
    have hkeeps : ∀ result ∈ lookups, (∀ p ∈ result.1.toList, passes S env p.2) ∧
        ∀ e ∈ result.2, passes S env e := fun result hresult => by
      obtain ⟨pexpr, hpexpr, hsound⟩ := h.ofResult result hresult
      exact hsound.keeps horiginal (hall pexpr hpexpr)
    refine ⟨fun p hp => ?_, fun result hresult => (hkeeps result hresult).2⟩
    obtain ⟨result, hresult, hp⟩ := mem_probes.1 hp
    exact (hkeeps result hresult).1 p hp
  suffices_ hprobes hleft := by
    rw [hresidual] at hleft
    by_cases horiginal : passes S env pexprOriginalPred
    · exact .inr horiginal
    · refine .inl (hpred.2 fun pexpr hpexpr => ?_)
      obtain ⟨result, hresult, hsound⟩ := h.ofPred pexpr hpexpr
      refine (hsound.suffices_ (fun p hp => ?_) (hleft result hresult)).resolve_right horiginal
      exact hprobes p (mem_probes.2 ⟨result, hresult, hp⟩)

/-- The probes of disjuncts joined by OR, with the original predicate as residual if a disjunct
leaves one. -/
theorem LookedUp.disjunction (h : LookedUp S env pexprOriginalPred pdrgpexpr lookups)
    (hpred : passes S env pexprPred ↔ ∃ pexpr ∈ pdrgpexpr, passes S env pexpr)
    (hcovered : ∀ result ∈ lookups, result.1 ≠ none) {probe : BitmapExpr × IndexScalar}
    (hjoin : JoinBitmapIndexProbes false (lookups.filterMap (·.1)) = some probe)
    (hresidual : pexprResidual =
      if (lookups.filterMap (·.2)).isEmpty then none else some pexprOriginalPred) :
    Sound S env pexprOriginalPred pexprPred [probe] pexprResidual := by
  obtain ⟨hselects, hrecheck⟩ := joinBitmapIndexProbes_spec S env hjoin
  simp only [Bool.false_eq_true, if_false] at hselects hrecheck
  constructor
  · simp only [List.mem_singleton, forall_eq]
    rw [hselects, hrecheck]
    exact exists_congr fun p => and_congr_right fun hp => h.exact p hp
  · intro horiginal hpexpr
    simp only [List.mem_singleton, forall_eq, hrecheck]
    obtain ⟨pexpr, hmem, htrue⟩ := hpred.1 hpexpr
    obtain ⟨result, hresult, hsound⟩ := h.ofPred pexpr hmem
    obtain ⟨p, hp⟩ := Option.ne_none_iff_exists'.1 (hcovered result hresult)
    refine ⟨⟨p, mem_probes.2 ⟨result, hresult, by simp [hp]⟩,
      (hsound.keeps horiginal htrue).1 p (by simp [hp])⟩, fun e he => ?_⟩
    rw [hresidual] at he
    split at he
    · cases he
    · cases he
      exact horiginal
  · intro hprobe hleft
    simp only [List.mem_singleton, forall_eq, hrecheck] at hprobe
    obtain ⟨p, hp, htrue⟩ := hprobe
    obtain ⟨result, hresult, hp⟩ := mem_probes.1 hp
    obtain ⟨pexpr, hmem, hsound⟩ := h.ofResult result hresult
    rw [hresidual] at hleft
    split at hleft
    · next hempty =>
      have hnone : ∀ e ∈ result.2, passes S env e := by
        intro e he
        rw [List.isEmpty_iff, List.filterMap_eq_nil_iff] at hempty
        rw [hempty result hresult] at he
        cases he
      have hall : ∀ p' ∈ result.1.toList, passes S env p'.2 := by
        intro p' hp'
        rw [Option.mem_toList] at hp hp'
        cases Option.some.inj (hp.symm.trans hp')
        exact htrue
      exact (hsound.suffices_ hall hnone).imp_left fun hpexpr => hpred.2 ⟨pexpr, hmem, hpexpr⟩
    · exact .inr (hleft pexprOriginalPred rfl)

variable {pexprRecheck : Option IndexScalar}

/-- **Probes for the conjuncts or disjuncts, joined.** -/
theorem scalarBitmapBoolOp_sound
    (hlookup : ∀ pexpr ∈ pdrgpexpr, ∀ result, lookup pexpr fPartial = some result →
      Sound S env pexprOriginalPred pexpr result.1.toList result.2)
    (hpred : passes S env pexprPred ↔
      if fConjunction then ∀ pexpr ∈ pdrgpexpr, passes S env pexpr
      else ∃ pexpr ∈ pdrgpexpr, passes S env pexpr)
    {pexprBitmap : BitmapExpr}
    (h : scalarBitmapBoolOp lookup pexprOriginalPred pdrgpexpr fConjunction none none fPartial =
      some (some pexprBitmap, pexprRecheck, pexprResidual)) :
    ∃ pexpr, pexprRecheck = some pexpr ∧
      Sound S env pexprOriginalPred pexprPred [(pexprBitmap, pexpr)] pexprResidual := by
  unfold scalarBitmapBoolOp at h
  obtain ⟨lookups, hlookups, h⟩ := Option.bind_eq_some_iff.1 h
  rw [mapM_eq_some_iff] at hlookups
  have hlooked : LookedUp S env pexprOriginalPred pdrgpexpr lookups :=
    ⟨fun pexpr hmem => by
      obtain ⟨result, hresult, hlook⟩ := exists_of_forall₂_left hlookups hmem
      exact ⟨result, hresult, hlookup pexpr hmem result hlook⟩,
    fun result hmem => by
      obtain ⟨pexpr, hpexpr, hlook⟩ := exists_of_forall₂_right hlookups hmem
      exact ⟨pexpr, hpexpr, hlookup pexpr hpexpr result hlook⟩⟩
  dsimp only at h
  split at h
  · cases h
  · next pexprBitmap' pexprRecheckNew hjoin =>
    split at h
    · cases h
    · next hcovered =>
      cases h
      refine ⟨pexprRecheckNew, rfl, ?_⟩
      cases fConjunction with
      | true =>
        have hall : Sound S env pexprOriginalPred pexprPred (lookups.filterMap (·.1))
            (if (lookups.filterMap (·.2)).isEmpty then none
              else some (Predicate.PexprConjDisj true (lookups.filterMap (·.2)))) := by
          refine hlooked.conjunction hpred ?_
          have hmem : (∀ result ∈ lookups, ∀ e ∈ result.2, passes S env e) ↔
              ∀ e ∈ lookups.filterMap (·.2), passes S env e := by
            simp only [List.mem_filterMap, forall_exists_index, and_imp, Option.mem_def]
            exact ⟨fun hall e result hresult he => hall result hresult e he,
              fun hall result hresult e he => hall e result hresult he⟩
          rw [hmem]
          split
          · next hempty =>
            rw [List.isEmpty_iff.1 hempty]
            simp
          · simp only [Option.mem_def, Option.some.injEq, forall_eq']
            exact passes_pexprConjDisj
        have hjoined := hall.joined
        rw [hjoin] at hjoined
        exact hjoined
      | false =>
        refine hlooked.disjunction hpred (fun result hresult hnone => hcovered ?_) hjoin rfl
        rw [hlookups.length_eq, Bool.and_eq_true, decide_eq_true_eq,
          List.length_filterMap_lt_length_iff_exists]
        exact ⟨rfl, result, hresult, hnone⟩

/-! ## The rounds -/

/-- The parts of a predicate are the predicate. -/
theorem passes_brokenDown (query : BitmapQuery) (pexprPred : IndexScalar) : passes S env pexprPred ↔
    if Predicate.FAnd pexprPred then ∀ pexpr ∈ brokenDown query pexprPred, passes S env pexpr
    else ∃ pexpr ∈ brokenDown query pexprPred, passes S env pexpr := by
  rw [brokenDown]
  cases hand : Predicate.FAnd pexprPred with
  | false => exact passes_collect false pexprPred
  | true =>
    have hconj : ∀ pdrgpexpr, passes S env (Predicate.PexprConjDisj true pdrgpexpr) ↔
        ∀ e ∈ pdrgpexpr, passes S env e := fun _ => passes_pexprConjDisj
    rw [passes_collect true pexprPred]
    simp only [if_true]
    generalize Predicate.collect true pexprPred = pdrgpexpr
    have hsplit : (∀ e ∈ pdrgpexpr, passes S env e) ↔
        (∀ e ∈ pdrgpexpr.filter (!FBitmapLookupSupportedPredicateOrConjunct query.outer_refs ·),
          passes S env e) ∧
        ∀ e ∈ pdrgpexpr.filter (FBitmapLookupSupportedPredicateOrConjunct query.outer_refs ·),
          passes S env e := by
      simp only [List.mem_filter, and_imp, ← forall_and]
      refine forall₂_congr fun e _ => ?_
      cases FBitmapLookupSupportedPredicateOrConjunct query.outer_refs e <;> simp
    rw [hsplit]
    split
    · next hempty =>
      rw [List.isEmpty_iff.1 hempty]
      simp
    · rw [List.forall_mem_append, List.forall_mem_singleton, hconj]

/-- A predicate that is broken down, when the lookups of its parts are sound. -/
theorem pexprBitmapLookupWithPredicateBreakDown_sound
    (hlookup : ∀ pexpr ∈ brokenDown query pexprPred, ∀ fPartial result,
      lookup pexpr fPartial = some result →
        Sound S env pexprOriginalPred pexpr result.1.toList result.2)
    {result : Option (BitmapExpr × IndexScalar) × Option IndexScalar}
    (h : PexprBitmapLookupWithPredicateBreakDown query lookup pexprOriginalPred pexprPred =
      some result) :
    ∀ probe ∈ result.1, Sound S env pexprOriginalPred pexprPred [probe] result.2 := by
  unfold PexprBitmapLookupWithPredicateBreakDown at h
  dsimp only at h
  split at h
  · cases h
    simp
  · obtain ⟨⟨pexprBitmap, pexprRecheck, pexprResidual⟩, hbool, h⟩ := Option.bind_eq_some_iff.1 h
    cases h
    cases pexprBitmap with
    | none => simp
    | some pexprBitmap =>
      obtain ⟨pexpr, rfl, hsound⟩ := scalarBitmapBoolOp_sound
        (fun pexpr hmem result => hlookup pexpr hmem _ result)
        (passes_brokenDown query pexprPred) hbool
      rintro _ ⟨⟩
      exact hsound

/-- **The rounds add probes**: with these and the residual the predicate is looked up. -/
theorem lookupRounds_sound (fuel : ℕ) : ∀ {pexprPred : IndexScalar} {fPartial fRetry : Bool}
    {probes : List (BitmapExpr × IndexScalar)}
    {result : Option (BitmapExpr × IndexScalar) × Option IndexScalar},
    lookupRounds md query pexprOriginalPred fuel pexprPred fPartial fRetry probes = some result →
    ∃ new, result.1 = JoinBitmapIndexProbes true (probes ++ new) ∧
      Sound S env pexprOriginalPred pexprPred new result.2 := by
  induction fuel with
  | zero => exact fun h => by cases h
  | succ fuel ih =>
    intro pexprPred fPartial fRetry probes result h
    have hend : ∃ new, JoinBitmapIndexProbes true probes =
          JoinBitmapIndexProbes true (probes ++ new) ∧
        Sound S env pexprOriginalPred pexprPred new (some pexprPred) :=
      ⟨[], by rw [List.append_nil], sound_refl⟩
    -- the residual of a probe in the next round
    have hnext : ∀ {probe pexprResidual fRetry},
        Sound S env pexprOriginalPred pexprPred [probe] (some pexprResidual) →
        lookupRounds md query pexprOriginalPred fuel pexprResidual fPartial fRetry
          (probes ++ [probe]) = some result →
        ∃ new, result.1 = JoinBitmapIndexProbes true (probes ++ new) ∧
          Sound S env pexprOriginalPred pexprPred new result.2 := by
      intro probe pexprResidual fRetry hsound hrounds
      obtain ⟨new, hresult, hnew⟩ := ih hrounds
      exact ⟨probe :: new, by rw [hresult, List.append_assoc, List.singleton_append],
        hsound.trans hnew⟩
    rw [lookupRounds] at h
    split at h
    · rcases @pexprBitmapSelectBestIndex_cases md query pexprPred (fPartial ||
        (Predicate.collect true pexprPred).any FArrayCompareIdentToConstIgnoreCast) with
        hnone | ⟨ul, pmdindex, pexprIndex, pexprResidual, hbest, hindex⟩
      · simp only [hnone] at h
        cases h
        exact hend
      · simp only [hbest] at h
        cases pexprResidual with
        | none =>
          cases h
          exact ⟨[_], rfl, hindex.sound⟩
        | some pexprResidual => exact hnext hindex.sound h
    · obtain ⟨⟨probe, pexprResidual⟩, hbroken, h⟩ := Option.bind_eq_some_iff.1 h
      have hsound := pexprBitmapLookupWithPredicateBreakDown_sound (S := S)
        (fun pexpr _ fPartial result hresult => by
          obtain ⟨new, hjoin, hnew⟩ := ih hresult
          rw [hjoin]
          exact hnew.joined) hbroken
      cases probe with
      | none =>
        cases h
        exact hend
      | some probe =>
        have hprobe := hsound probe rfl
        cases fRetry with
        | false =>
          cases h
          exact ⟨[_], rfl, hprobe⟩
        | true =>
          cases pexprResidual with
          | none =>
            cases h
            exact ⟨[_], rfl, hprobe⟩
          | some pexprResidual => exact hnext hprobe h

/-! ## Termination -/

variable {outer_refs : Option (List CColRef)}

/-- A constant is no supported predicate. -/
theorem fScalarConstBool_of_supported {pexpr : IndexScalar}
    (h : FBitmapLookupSupportedPredicateOrConjunct outer_refs pexpr = true) (value : Bool) :
    Predicate.FScalarConstBool value pexpr = false := by
  cases hconst : Predicate.FScalarConstBool value pexpr with
  | false => rfl
  | true =>
    unfold Predicate.FScalarConstBool at hconst
    split at hconst
    · cases h
    · cases hconst

theorem supportedEach_iff {pdrgpexpr : List IndexScalar} :
    supportedEach outer_refs pdrgpexpr = true ↔
      ∀ pexpr ∈ pdrgpexpr, FBitmapLookupSupportedPredicateOrConjunct outer_refs pexpr = true := by
  induction pdrgpexpr with
  | nil => simp [supportedEach]
  | cons pexpr pdrgpexpr ih => simp [supportedEach, ih]

/-- The conjuncts of a supported predicate are supported. -/
theorem supported_of_mem_collect :
    FBitmapLookupSupportedPredicateOrConjunct outer_refs pexprPred = true →
    ∀ e ∈ Predicate.collect true pexprPred,
      FBitmapLookupSupportedPredicateOrConjunct outer_refs e = true := by
  induction pexprPred using CExpression.induction with
  | node pop l ih =>
    intro h
    cases hand : Predicate.FConnective true (.node pop l) with
    | false =>
      rw [Predicate.collect_of_other hand]
      simpa using h
    | true =>
      obtain rfl : pop = .boolOp .and := Predicate.fConnective_iff.1 hand
      rw [Predicate.collect_of_connective hand]
      intro e he
      obtain ⟨child, hchild, he⟩ := List.mem_flatMap.1 he
      exact ih child hchild (supportedEach_iff.1 h child hchild) e he

/-- A conjunct has no conjuncts. -/
theorem collect_of_mem_collect :
    ∀ e ∈ Predicate.collect true pexprPred, Predicate.collect true e = [e] := by
  induction pexprPred using CExpression.induction with
  | node pop l ih =>
    cases hand : Predicate.FConnective true (.node pop l) with
    | false =>
      rw [Predicate.collect_of_other hand]
      simpa using Predicate.collect_of_other hand
    | true =>
      rw [Predicate.collect_of_connective hand]
      intro e he
      obtain ⟨child, hchild, he⟩ := List.mem_flatMap.1 he
      exact ih child hchild e he

/-- The conjunction of supported conjuncts is supported and has them as conjuncts. -/
theorem supported_pexprConjDisj (hne : pdrgpexpr ≠ [])
    (h : ∀ e ∈ pdrgpexpr, FBitmapLookupSupportedPredicateOrConjunct outer_refs e = true ∧
      Predicate.collect true e = [e]) :
    FBitmapLookupSupportedPredicateOrConjunct outer_refs
        (Predicate.PexprConjDisj true pdrgpexpr) = true ∧
      Predicate.collect true (Predicate.PexprConjDisj true pdrgpexpr) = pdrgpexpr := by
  have hany : pdrgpexpr.any (Predicate.FScalarConstBool !true) = false :=
    List.any_eq_false.2 fun e he => by simp [fScalarConstBool_of_supported (h e he).1]
  have hfilter : pdrgpexpr.filter (!Predicate.FScalarConstBool true ·) = pdrgpexpr :=
    List.filter_eq_self.2 fun e he => by simp [fScalarConstBool_of_supported (h e he).1]
  rw [Predicate.PexprConjDisj, hany, hfilter]
  match pdrgpexpr, hne, h with
  | [e], _, h => exact h e List.mem_cons_self
  | e :: e' :: l, _, h =>
    refine ⟨supportedEach_iff.2 fun e he => (h e he).1, ?_⟩
    rw [Predicate.collect_of_connective (Predicate.fConnective_iff.2 rfl)]
    exact (List.flatMap_congr fun e he => (h e he).2).trans (List.flatMap_singleton' _)

/-- **The retries on residuals terminate**: each leaves fewer conjuncts. -/
theorem isSome_lookupRounds_of_supported (fuel : ℕ) : ∀ {pexprPred : IndexScalar}
    {fPartial fRetry : Bool} {probes : List (BitmapExpr × IndexScalar)},
    FBitmapLookupSupportedPredicateOrConjunct query.outer_refs pexprPred = true →
    (Predicate.collect true pexprPred).length < fuel →
    (lookupRounds md query pexprOriginalPred fuel pexprPred fPartial fRetry probes).isSome := by
  induction fuel with
  | zero => exact fun _ h => absurd h (Nat.not_lt_zero _)
  | succ fuel ih =>
    intro pexprPred fPartial fRetry probes hsupported hlen
    rw [lookupRounds, if_pos hsupported]
    rcases @pexprBitmapSelectBestIndex_cases md query pexprPred (fPartial ||
      (Predicate.collect true pexprPred).any FArrayCompareIdentToConstIgnoreCast) with
      hnone | ⟨ul, pmdindex, pexprIndex, pexprResidual, hbest, hne, -, hresidual⟩
    · simp [hnone]
    · obtain ⟨hsub, hcount⟩ := @extractIndexPredicates_residual md pmdindex query.outer_refs
        (fPartial || (Predicate.collect true pexprPred).any FArrayCompareIdentToConstIgnoreCast)
        (Predicate.collect true pexprPred)
      generalize ExtractIndexPredicates md pmdindex query.outer_refs (fPartial ||
        (Predicate.collect true pexprPred).any FArrayCompareIdentToConstIgnoreCast)
        (Predicate.collect true pexprPred) = pdrgpexpr at hne hresidual hsub hcount
      have hfewer : pdrgpexpr.2.length < (Predicate.collect true pexprPred).length := by
        have := List.length_pos_iff.2 hne
        omega
      simp only [hbest]
      cases pexprResidual with
      | none => rfl
      | some pexprResidual =>
        split at hresidual
        · cases hresidual
        · next hconst =>
          cases hresidual
          have hleft : pdrgpexpr.2 ≠ [] := fun hnil => hconst (by rw [hnil]; rfl)
          obtain ⟨hagain, hcollect⟩ := supported_pexprConjDisj hleft fun e he =>
            ⟨supported_of_mem_collect hsupported e (hsub.subset he),
              collect_of_mem_collect e (hsub.subset he)⟩
          exact ih hagain (by rw [hcollect]; omega)

theorem isSome_scalarBitmapBoolOp (h : ∀ pexpr ∈ pdrgpexpr, (lookup pexpr fPartial).isSome) :
    (scalarBitmapBoolOp lookup pexprOriginalPred pdrgpexpr fConjunction pexprRecheck pexprResidual
      fPartial).isSome := by
  have hmapM : ∃ lookups, pdrgpexpr.mapM (lookup · fPartial) = some lookups := by
    induction pdrgpexpr with
    | nil => exact ⟨[], rfl⟩
    | cons pexpr pdrgpexpr ih =>
      obtain ⟨result, hresult⟩ := Option.isSome_iff_exists.1 (h pexpr List.mem_cons_self)
      obtain ⟨lookups, hlookups⟩ := ih fun e he => h e (List.mem_cons_of_mem _ he)
      exact ⟨result :: lookups, by rw [List.mapM_cons, hresult, hlookups]; rfl⟩
  obtain ⟨lookups, hlookups⟩ := hmapM
  rw [scalarBitmapBoolOp, hlookups]
  simp only [Option.bind_eq_bind, Option.bind_some]
  split
  · rfl
  · split <;> rfl

/-- **A lookup returns**, by induction on the height: the parts of a predicate that is broken down
are lower, but for the supported conjuncts, which are not broken down. -/
theorem exists_isSome_lookupRounds (n : ℕ) : ∀ {pexprPred : IndexScalar}, pexprPred.depth < n →
    ∃ bound, ∀ fuel ≥ bound, ∀ fPartial probes,
      (lookupRounds md query pexprOriginalPred fuel pexprPred fPartial false probes).isSome := by
  induction n with
  | zero => exact fun h => absurd h (Nat.not_lt_zero _)
  | succ n ih =>
    intro pexprPred hdepth
    by_cases hsupported :
      FBitmapLookupSupportedPredicateOrConjunct query.outer_refs pexprPred = true
    · exact ⟨(Predicate.collect true pexprPred).length + 1, fun fuel hfuel fPartial probes =>
        isSome_lookupRounds_of_supported fuel hsupported hfuel⟩
    have hparts : ∃ bound, (brokenDown query pexprPred).length ≠ 1 → ∀ fuel ≥ bound,
        ∀ pexpr ∈ brokenDown query pexprPred, ∀ fPartial probes,
          (lookupRounds md query pexprOriginalPred fuel pexpr fPartial false probes).isSome := by
      have hall : (brokenDown query pexprPred).length ≠ 1 → ∀ pexpr ∈ brokenDown query pexprPred,
          ∃ bound, ∀ fuel ≥ bound, ∀ fPartial probes, (lookupRounds md query pexprOriginalPred fuel
            pexpr fPartial false probes).isSome := by
        intro hlen pexpr hpexpr
        rw [brokenDown] at hlen hpexpr
        split at hpexpr
        · next hand =>
          have hconn : Predicate.FConnective true pexprPred = true := hand
          have hlower : ∀ e ∈ Predicate.collect true pexprPred, e.depth < n := fun e he =>
            (Predicate.depth_lt_of_mem_collect hconn e he).trans_le (Nat.le_of_lt_succ hdepth)
          dsimp only at hpexpr
          split at hpexpr
          · exact ih (hlower pexpr (List.mem_of_mem_filter hpexpr))
          · next hne =>
            rcases List.mem_append.1 hpexpr with hother | hconj
            · exact ih (hlower pexpr (List.mem_of_mem_filter hother))
            · obtain rfl := List.mem_singleton.1 hconj
              obtain ⟨hagain, -⟩ := supported_pexprConjDisj
                (fun hnil => hne (List.isEmpty_iff.2 hnil)) fun e he =>
                ⟨(List.mem_filter.1 he).2, collect_of_mem_collect e (List.mem_of_mem_filter he)⟩
              exact ⟨_, fun fuel hfuel fPartial probes =>
                isSome_lookupRounds_of_supported fuel hagain (Nat.lt_of_succ_le hfuel)⟩
        · next hand =>
          rw [if_neg hand] at hlen
          cases hor : Predicate.FConnective false pexprPred with
          | true =>
            exact ih ((Predicate.depth_lt_of_mem_collect hor pexpr hpexpr).trans_le
              (Nat.le_of_lt_succ hdepth))
          | false =>
            rw [Predicate.collect_of_other hor] at hlen
            exact absurd rfl hlen
      generalize brokenDown query pexprPred = pdrgpexpr at hall ⊢
      by_cases hone : pdrgpexpr.length = 1
      · exact ⟨0, fun hlen => absurd hone hlen⟩
      choose! bound hbound using hall hone
      refine ⟨(pdrgpexpr.map bound).sum, fun _ fuel hfuel pexpr hpexpr => ?_⟩
      exact hbound pexpr hpexpr fuel
        ((List.single_le_sum (by simp) _ (List.mem_map_of_mem hpexpr)).trans hfuel)
    obtain ⟨bound, hbound⟩ := hparts
    refine ⟨bound + 1, fun fuel hfuel fPartial probes => ?_⟩
    obtain ⟨fuel, rfl⟩ := Nat.exists_eq_succ_of_ne_zero (Nat.ne_of_gt (Nat.zero_lt_of_lt hfuel))
    rw [lookupRounds, if_neg hsupported]
    have hbroken : (PexprBitmapLookupWithPredicateBreakDown query (fun pexpr fPartial =>
        lookupRounds md query pexprOriginalPred fuel pexpr fPartial false []) pexprOriginalPred
        pexprPred).isSome := by
      rw [PexprBitmapLookupWithPredicateBreakDown]
      split
      · rfl
      · next hlen =>
        have hsome := hbound hlen fuel (Nat.le_of_succ_le_succ hfuel)
        obtain ⟨result, hresult⟩ := Option.isSome_iff_exists.1 (@isSome_scalarBitmapBoolOp
          pexprOriginalPred none (fun pexpr fPartial => lookupRounds md query pexprOriginalPred fuel
            pexpr fPartial false []) (brokenDown query pexprPred) (Predicate.FAnd pexprPred)
          (!Predicate.FAnd pexprPred) none fun pexpr hpexpr => hsome pexpr hpexpr _ [])
        rw [hresult]
        rfl
    obtain ⟨⟨probe, pexprResidual⟩, hresult⟩ := Option.isSome_iff_exists.1 hbroken
    rw [hresult]
    cases probe <;> rfl

/-- A bitmap comes with a recheck. -/
theorem exists_recheck {pexprBitmap : BitmapExpr}
    (h : scalarBitmapBoolOp lookup pexprOriginalPred pdrgpexpr fConjunction none none fPartial =
      some (some pexprBitmap, pexprRecheck, pexprResidual)) : ∃ r, pexprRecheck = some r := by
  unfold scalarBitmapBoolOp at h
  obtain ⟨lookups, -, h⟩ := Option.bind_eq_some_iff.1 h
  dsimp only at h
  split at h
  · cases h
  · split at h <;> cases h
    exact ⟨_, rfl⟩

/-- **Bitmap access paths neither lose nor add rows, and the lookups return**: a bitmap comes with a
recheck, and the predicate is true of exactly the rows that the bitmap selects and that pass the
recheck and the residual. -/
theorem pexprScalarBitmapBoolOp_sound (md : IndexCatalog) (query : BitmapQuery)
    (pexprOriginalPred : IndexScalar) (fConjunction isAPartialPredicate : Bool) :
    ∃ bound, ∀ fuel ≥ bound, ∃ pexprBitmap pexprRecheck pexprResidual,
      PexprScalarBitmapBoolOp md query fuel pexprOriginalPred [pexprOriginalPred] fConjunction none
        none isAPartialPredicate = some (pexprBitmap, pexprRecheck, pexprResidual) ∧
      ∀ b ∈ pexprBitmap, ∃ r, pexprRecheck = some r ∧
        ∀ (X Env : Type) (S : IndexSemantics md X Env) (env : Env),
          passes S env pexprOriginalPred ↔
            b.selects S env ∧ passes S env r ∧ ∀ e ∈ pexprResidual, passes S env e := by
  obtain ⟨bound, hbound⟩ := exists_isSome_lookupRounds _ (Nat.lt_succ_self pexprOriginalPred.depth)
  refine ⟨bound, fun fuel hfuel => ?_⟩
  have hsome : (PexprScalarBitmapBoolOp md query fuel pexprOriginalPred [pexprOriginalPred]
      fConjunction none none isAPartialPredicate).isSome :=
    isSome_scalarBitmapBoolOp fun pexpr hpexpr => by
      obtain rfl := List.mem_singleton.1 hpexpr
      exact hbound fuel hfuel _ []
  obtain ⟨⟨pexprBitmap, pexprRecheck, pexprResidual⟩, hresult⟩ := Option.isSome_iff_exists.1 hsome
  refine ⟨pexprBitmap, pexprRecheck, pexprResidual, hresult, fun b hb => ?_⟩
  obtain rfl : pexprBitmap = some b := hb
  obtain ⟨r, rfl⟩ := exists_recheck hresult
  refine ⟨r, rfl, fun X Env S env => ?_⟩
  have hpred : passes S env pexprOriginalPred ↔
      if fConjunction then ∀ pexpr ∈ [pexprOriginalPred], passes S env pexpr
      else ∃ pexpr ∈ [pexprOriginalPred], passes S env pexpr := by
    cases fConjunction <;> simp
  obtain ⟨r', heq, hsound⟩ := scalarBitmapBoolOp_sound (fun pexpr _ result hlookup => by
    obtain ⟨new, hjoin, hnew⟩ := lookupRounds_sound fuel hlookup
    rw [hjoin]
    exact hnew.joined) hpred hresult
  obtain rfl := Option.some.inj heq
  have hselects := hsound.exact (b, r) List.mem_cons_self
  constructor
  · intro htrue
    obtain ⟨hrecheck, hresidual⟩ := hsound.keeps htrue htrue
    have hr := hrecheck (b, r) List.mem_cons_self
    exact ⟨hselects.2 hr, hr, hresidual⟩
  · rintro ⟨-, hr, hresidual⟩
    exact or_self_iff.1 (hsound.suffices_ (by simpa using hr) hresidual)

/-! ## A bitmap index on one of two columns -/

/-- A comparison of a column with a number. -/
def columnIs (id : ℕ) (n : ℕ) : IndexScalar :=
  .node (.other (.other (.cmp 0))) [.node (.other (.other (.ident ⟨id, true, true, true⟩ 23))) [],
    .node (.other (.other (.const 23 n))) []]

/-- A bitmap index on column 0. -/
def indexedFirst : BitmapQuery where
  indexes := [⟨.EmdindBitmap, [⟨0, true, true, true⟩], [⟨0, true, true, true⟩], false,
    fun _ _ => true⟩]
  IsAORowOrColTable := false
  pcrsReqd := []
  outer_refs := none
  SelectivityOfPredicate _ := 1

/-- The index is probed for its conjunct, and the other one is the residual. -/
theorem pexprScalarBitmapBoolOp_sound_twoColumns :
    passes intSemantics (fun c => some c.id)
        (.node (.boolOp .and) [columnIs 0 5, columnIs 1 3]) ↔
      (BitmapExpr.indexProbe 0 (columnIs 0 5)).selects intSemantics (fun c => some c.id) ∧
        passes intSemantics (fun c => some c.id) (columnIs 0 5) ∧
        passes intSemantics (fun c => some c.id) (columnIs 1 3) := by
  obtain ⟨bound, hbound⟩ := pexprScalarBitmapBoolOp_sound intCatalog indexedFirst
    (.node (.boolOp .and) [columnIs 0 5, columnIs 1 3]) true false
  obtain ⟨pexprBitmap, pexprRecheck, pexprResidual, hresult, hsound⟩ :=
    hbound (bound + 3) (Nat.le_add_right _ _)
  have hrounds : PexprScalarBitmapBoolOp intCatalog indexedFirst (bound + 3)
      (.node (.boolOp .and) [columnIs 0 5, columnIs 1 3])
      [.node (.boolOp .and) [columnIs 0 5, columnIs 1 3]] true none none false =
        some (some (.indexProbe 0 (columnIs 0 5)), some (columnIs 0 5), some (columnIs 1 3)) := by
    with_unfolding_all rfl
  rw [hrounds] at hresult
  cases hresult
  obtain ⟨_, ⟨⟩, hiff⟩ := hsound _ rfl
  simpa using hiff _ _ intSemantics fun c => some c.id

end CXformUtils

end Rows

end BossOptimizer

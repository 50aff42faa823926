import BossOptimizer.Xforms.ApplyExpr

/-!
# Unnesting a subquery in a value context: `CSubqueryHandler`

A subquery whose value is wanted for each outer row becomes an outer apply, a group-by and a
scalar that reads the groups. `none` is the answer of a function that gives up; the subquery then
gets correlated execution. Columns come from the column factory, whose next id is `pcf`.

The scalar child of a quantified subquery contains no further subquery, so that
`PexprSubqueryPred` compares it as it is.
-/

namespace BossOptimizer

variable {D : Type}

/-- What the handler reads from the optimization context and from column references. -/
structure COptCtxt where
  /-- `CColRef::GetUsage` is `EUsed`. -/
  fUsed : CColRef → Bool
  fSystemCol : CColRef → Bool
  /-- The type of the column is hashable. -/
  fHashable : CColRef → Bool
  /-- The system columns in the output of the query. -/
  pdrgpcrSystemCols : List CColRef
  pcf : ℕ

/-- `CColumnFactory::PcrCreate` of a computed column. -/
def pcrCreate (id : ℕ) : CColRef := ⟨id, true, false, true⟩

/-- A `CScalarCmp` with its children. -/
structure CScalarCmp (D : Type) where
  mdidOp : ℕ
  left : ApplyScalar D
  right : ApplyScalar D

def CScalarCmp.pexpr (this : CScalarCmp D) : ApplyScalar D := .cmp this.mdidOp this.left this.right

/-- `CScalarSubqueryAny` or, with `fAll`, `CScalarSubqueryAll`: the comparison of a scalar with
    the column `pcr` of a logical child. -/
structure CScalarSubqueryQuantified (D : Type) where
  fAll : Bool
  mdidOp : ℕ
  pcr : CColRef
  pexprInner : LogicalLeaf D
  pexprScalar : ApplyScalar D
  /-- The derived function properties of the subquery are `EfsVolatile`. -/
  fVolatile : Bool

/-- A subquery node without its logical child. -/
inductive ScalarSubquery (D : Type) where
  /-- `CScalarSubqueryExists` or, with `fNot`, `CScalarSubqueryNotExists`. -/
  | existential (fNot : Bool)
  | quantified (popSubquery : CScalarSubqueryQuantified D)

/-! ## Predicates -/

namespace CPredicateUtils

/-- `FBuiltInComparisonIsVeryStrict` (CPredicateUtils.cpp:2787): the comparisons of int2, int4,
    int8, bool and text. -/
def fBuiltInComparisonIsVeryStrict (mdid : ℕ) : Bool :=
  mdid ∈ [94, 519, 95, 522, 520, 524,
    96, 518, 97, 523, 521, 525,
    410, 411, 412, 414, 413, 415,
    91, 85, 58, 1694, 59, 1695,
    98, 531, 664, 665, 666, 667]

/-- `FSimpleEqualityUsingCols` (CPredicateUtils.cpp:2357). A scalar here is its only conjunct. -/
def fSimpleEqualityUsingCols (cat : Catalog D) (pexprScalar : ApplyScalar D)
    (pcrs : List CColRef) : Bool :=
  match pexprScalar with
  | .cmp mdidOp (.ident left) (.ident right) =>
    cat.isEquality mdidOp && (decide (left ∈ pcrs) || decide (right ∈ pcrs))
  | _ => false

end CPredicateUtils

namespace CXformUtils

/-- `PexprInversePred` (CXformUtils.cpp:1196): the comparison of an ALL subquery, negated. There
    is none when the operator has no negator. -/
def pexprInversePred (cat : Catalog D) (popSqAll : CScalarSubqueryQuantified D) :
    Option (CScalarCmp D) :=
  (cat.getInverseOpMdid popSqAll.mdidOp).map fun pmdidInverseOp =>
    ⟨pmdidInverseOp, popSqAll.pexprScalar, .ident popSqAll.pcr⟩

/-- `PexprNullIndicator` (CXformUtils.cpp:1232): case when `pexpr` is null then 1 else 0 end. -/
def pexprNullIndicator (pexpr : ApplyScalar D) : ApplyScalar D :=
  .scalarIf (.isNull pexpr) (.constInt 1) (.constInt 0)

end CXformUtils

/-- `CUtils::PdrgpcrGroupingKey` (CUtils.cpp:2387): the used columns without system columns, and a
    key, a hashable one if there is one. -/
def pdrgpcrGroupingKey (ctxt : COptCtxt) (pexpr : LogicalLeaf D) : Option (List CColRef) := do
  let pkc ← pexpr.keyCollection
  let pdrgpcrKey ← (pkc.find? fun key => key.all ctxt.fHashable) <|> pkc.head?
  return CPropConstraint.colRefSetIter
    ((pexpr.output.filter fun c => ctxt.fUsed c && !ctxt.fSystemCol c) ++ pdrgpcrKey)

namespace CSubqueryHandler

/-- `PexprSubqueryPred` (CSubqueryHandler.cpp:157). -/
def pexprSubqueryPred (popSqQuantified : CScalarSubqueryQuantified D) : CScalarCmp D :=
  ⟨popSqQuantified.mdidOp, popSqQuantified.pexprScalar, .ident popSqQuantified.pcr⟩

/-- The test of `PexprInnerSelect`: the inner column is not nullable, and the comparison is one of
    the built-in ones. -/
def useNotNullableInnerOpt (pcrInner : CColRef) (pexprInner : LogicalLeaf D) (mdidOp : ℕ) : Bool :=
  decide (pcrInner ∈ pexprInner.notNullColumns) &&
    CPredicateUtils.fBuiltInComparisonIsVeryStrict mdidOp

/-- `PexprInnerSelect` (CSubqueryHandler.cpp:652): the inner rows for which the comparison is not
    false, or true where the optimization applies. -/
def pexprInnerSelect (pcrInner : CColRef) (pexprInner : LogicalLeaf D)
    (pexprPredicate : CScalarCmp D) : ApplyExpr D × Bool :=
  if useNotNullableInnerOpt pcrInner pexprInner pexprPredicate.mdidOp then
    (.select (.leaf pexprInner) pexprPredicate.pexpr, true)
  else (.select (.leaf pexprInner) (.isNotFalse pexprPredicate.pexpr), false)

/-! ## Grouping -/

/-- The second half of `FCreateGrpCols`, for a group-by above the apply. -/
def grpColsOnOuter (ctxt : COptCtxt) (pexprOuter : LogicalLeaf D) : Option (List CColRef) :=
  if pexprOuter.keyCollection.isNone then none
  -- bail out if system columns from outer's output are required
  else if ctxt.pdrgpcrSystemCols.any fun c => c ∈ pexprOuter.output.filter ctxt.fUsed then none
  else pdrgpcrGroupingKey ctxt pexprOuter

/-- `FCreateGrpCols` (CSubqueryHandler.cpp:786): the grouping columns, and whether the group-by is
    placed on the inner expression. -/
def fCreateGrpCols (ctxt : COptCtxt) (cat : Catalog D) (pexprOuter : LogicalLeaf D)
    (pexprInner : ApplyExpr D) (fExistential fOuterRefsUnderInner : Bool) :
    Option (List CColRef × Bool) :=
  match !fExistential && !fOuterRefsUnderInner, pexprInner with
  | true, .select child pexprScalar =>
    if CPredicateUtils.fSimpleEqualityUsingCols cat pexprScalar child.outputColumns then
      some (CPropConstraint.colRefSetIter (pexprScalar.usedColumns.filter
        (· ∉ pexprOuter.output.filter ctxt.fUsed)), true)
    else (grpColsOnOuter ctxt pexprOuter).map (·, false)
  | _, _ => (grpColsOnOuter ctxt pexprOuter).map (·, false)

/-- `AddProjectNode` (CSubqueryHandler.cpp:1708), with the new column. -/
def addProjectNode (pcf : ℕ) (pexpr : ApplyExpr D) : ApplyExpr D × CColRef :=
  (.project pexpr (pcrCreate pcf) (.constBool (some true)), pcrCreate pcf)

/-- The columns `CreateGroupByNode` adds for a quantified subquery. -/
structure GroupColumns where
  pcrCount : CColRef
  colrefForSum : CColRef
  pcrSum : CColRef

/-- In the order of their creation. -/
def groupColumns (pcf : ℕ) : GroupColumns :=
  ⟨pcrCreate pcf, pcrCreate (pcf + 1), pcrCreate (pcf + 2)⟩

/-- `CreateGroupByNode` (CSubqueryHandler.cpp:904). An existential subquery has no predicate. -/
def createGroupByNode (pcf : ℕ) (pexprChild : ApplyExpr D) (colref_array : List CColRef)
    (colref : CColRef) (pexprPredicate : Option (ApplyScalar D)) : ApplyExpr D :=
  match pexprPredicate with
  | none => .gbAgg (colref_array ++ [colref]) pexprChild []
  | some pexprPredicate =>
    let cols := groupColumns pcf
    .gbAgg colref_array
      (.project pexprChild cols.colrefForSum (CXformUtils.pexprNullIndicator pexprPredicate))
      [(cols.pcrCount, .count colref), (cols.pcrSum, .sum cols.colrefForSum)]

/-! ## The residual scalar -/

/-- The part of `PexprScalarIf` that reads the aggregates of a quantified subquery. -/
def pexprNestedIf (pcrSum pcrCount : CColRef) (value : Bool) : ApplyScalar D :=
  .scalarIf (.gCmp (.ident pcrCount) (.constInt 0))
    (.scalarIf (.eqCmp (.ident pcrSum) (.ident pcrCount)) (.constBool none)
      (.constBool (some value)))
    (.constBool (some !value))

/-- `PexprScalarIf` (CSubqueryHandler.cpp:1730). -/
def pexprScalarIf (pcrBool pcrSum pcrCount : CColRef) (pexprSubquery : ScalarSubquery D)
    (useNotNullableInnerOpt : Bool) : ApplyScalar D :=
  match pexprSubquery with
  | .existential fNot =>
    let value := !fNot
    .scalarIf (.boolNot (.isNull (.ident pcrBool))) (.constBool (some value))
      (.constBool (some !value))
  | .quantified popSubquery =>
    let result := pexprNestedIf pcrSum pcrCount !popSubquery.fAll
    if useNotNullableInnerOpt then
      .scalarIf (.isNull popSubquery.pexprScalar) (.constBool none) result
    else result

/-! ## The outer apply -/

/-- `FCreateOuterApplyForExistOrQuant` (CSubqueryHandler.cpp:1069): the new outer expression and
    the residual scalar. -/
def fCreateOuterApplyForExistOrQuant (ctxt : COptCtxt) (cat : Catalog D)
    (pexprOuter : LogicalLeaf D) (pexprInner : ApplyExpr D) (pexprSubquery : ScalarSubquery D)
    (pexprPredicate : Option (ApplyScalar D)) (fOuterRefsUnderInner useNotNullableInnerOpt : Bool) :
    Option (ApplyExpr D × ApplyScalar D) := do
  let fExistential := match pexprSubquery with
    | .existential _ => true
    | .quantified _ => false
  let (colref_array, fGbOnInner) ←
    fCreateGrpCols ctxt cat pexprOuter pexprInner fExistential fOuterRefsUnderInner
  let (pexprPrjInner, colref) := addProjectNode ctxt.pcf pexprInner
  let pcrSubquery := match pexprSubquery with
    | .existential _ => colref
    | .quantified popSubquery => popSubquery.pcr
  let cols := groupColumns (ctxt.pcf + 1)
  let pexprNewOuter :=
    if fGbOnInner then
      .leftOuterApply (.leaf pexprOuter)
        (createGroupByNode (ctxt.pcf + 1) pexprPrjInner colref_array colref pexprPredicate)
        pcrSubquery
    else
      createGroupByNode (ctxt.pcf + 1) (.leftOuterApply (.leaf pexprOuter) pexprPrjInner pcrSubquery)
        colref_array colref pexprPredicate
  return (pexprNewOuter,
    pexprScalarIf colref cols.pcrSum cols.pcrCount pexprSubquery useNotNullableInnerOpt)

/-- `FRemoveAnySubquery` (CSubqueryHandler.cpp:1399) in a value context; `none` is correlated
    execution. -/
def fRemoveAnySubquery (ctxt : COptCtxt) (cat : Catalog D) (fEnforceCorrelatedApply : Bool)
    (pexprOuter : LogicalLeaf D) (pexprSubquery : CScalarSubqueryQuantified D) :
    Option (ApplyExpr D × ApplyScalar D) :=
  if fEnforceCorrelatedApply then none
  else
    let pexprPredicate := pexprSubqueryPred pexprSubquery
    let (pexprSelect, fUseNotNullableInnerOpt) :=
      pexprInnerSelect pexprSubquery.pcr pexprSubquery.pexprInner pexprPredicate
    -- the comparison would be evaluated twice per outer row
    if cat.fVolatile pexprSubquery.mdidOp || pexprSubquery.fVolatile then none
    else
      fCreateOuterApplyForExistOrQuant ctxt cat pexprOuter pexprSelect (.quantified pexprSubquery)
        (some pexprPredicate.pexpr) pexprSubquery.pexprInner.hasOuterRefs fUseNotNullableInnerOpt

/-- `FRemoveAllSubquery` (CSubqueryHandler.cpp:1571) in a value context; `none` is correlated
    execution, also with outer references under the inner child. -/
def fRemoveAllSubquery (ctxt : COptCtxt) (cat : Catalog D) (fEnforceCorrelatedApply : Bool)
    (pexprOuter : LogicalLeaf D) (pexprSubquery : CScalarSubqueryQuantified D) :
    Option (ApplyExpr D × ApplyScalar D) :=
  if fEnforceCorrelatedApply then none
  else do
    let fOuterRefsUnderInner := pexprSubquery.pexprInner.hasOuterRefs
    let pexprPredicate ← CXformUtils.pexprInversePred cat pexprSubquery
    let (pexprInnerSelect, fUseNotNullOptimization) :=
      pexprInnerSelect pexprSubquery.pcr pexprSubquery.pexprInner pexprPredicate
    if fOuterRefsUnderInner || cat.fVolatile pexprPredicate.mdidOp then none
    else
      fCreateOuterApplyForExistOrQuant ctxt cat pexprOuter pexprInnerSelect
        (.quantified pexprSubquery) (some pexprPredicate.pexpr) fOuterRefsUnderInner
        fUseNotNullOptimization

/-- The cases of `FProcessScalarOperator` (CSubqueryHandler.cpp:2110) for quantified subqueries. -/
def fRemoveQuantifiedSubquery (ctxt : COptCtxt) (cat : Catalog D) (fEnforceCorrelatedApply : Bool)
    (pexprOuter : LogicalLeaf D) (pexprSubquery : CScalarSubqueryQuantified D) :
    Option (ApplyExpr D × ApplyScalar D) :=
  if pexprSubquery.fAll then
    fRemoveAllSubquery ctxt cat fEnforceCorrelatedApply pexprOuter pexprSubquery
  else fRemoveAnySubquery ctxt cat fEnforceCorrelatedApply pexprOuter pexprSubquery

end CSubqueryHandler

end BossOptimizer

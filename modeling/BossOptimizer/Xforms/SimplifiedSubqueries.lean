import BossOptimizer.Xforms.QuantifiedUnnesting

/-!
# Subqueries replaced by aggregates

`CXformSimplifySubquery` replaces EXISTS, ANY and ALL by a comparison of an aggregate over the inner
rows. `count(*)` of the inner rows decides EXISTS. For ANY it is the count of the comparisons that
are true and of the inner NULLs; -1 stands for unknown. For ALL a nested IF looks at the number of
inner NULLs, at the outer value, and then at the number of comparisons that are false.

A NULL outer value makes all comparisons unknown, but none is counted for ANY; an inner NULL makes
ALL unknown even where another comparison is false.
-/

namespace BossOptimizer

variable {D : Type}

/-! ## Scalars with subqueries -/

/-- A scalar tree with subqueries. The scalar child of a quantified subquery contains no further
    subquery. -/
inductive SubqueryScalar (D : Type) where
  | leaf (pexpr : ApplyScalar D)
  /-- Any other operator. -/
  | node (id : ℕ) (children : List (SubqueryScalar D))
  | gCmp (left right : SubqueryScalar D)
  | eqCmp (left right : SubqueryScalar D)
  /-- `CScalarSubqueryExists` or, with `fNot`, `CScalarSubqueryNotExists`. -/
  | existential (fNot : Bool) (pexprInner : LogicalLeaf D)
  | quantified (popSubquery : CScalarSubqueryQuantified D)
  | scalarSubquery (pcr : CColRef) (fGeneratedByExist fGeneratedByQuantified : Bool)
      (pexpr : ApplyExpr D)

namespace SubqueryScalar

mutual

/-- The quantified subqueries of a tree. -/
def quantifiedSubqueries : SubqueryScalar D → List (CScalarSubqueryQuantified D)
  | .leaf _ | .existential _ _ | .scalarSubquery _ _ _ _ => []
  | .node _ children => quantifiedEach children
  | .gCmp left right | .eqCmp left right =>
    left.quantifiedSubqueries ++ right.quantifiedSubqueries
  | .quantified popSubquery => [popSubquery]

def quantifiedEach : List (SubqueryScalar D) → List (CScalarSubqueryQuantified D)
  | [] => []
  | child :: children => child.quantifiedSubqueries ++ quantifiedEach children

end

end SubqueryScalar

/-- Which subqueries a pass of the transformation replaces (`m_pfnmatch`). -/
inductive SubqueryKind where
  | existential
  | quantified
  deriving DecidableEq, Repr

/-! ## The new subqueries -/

/-- `CUtils::FUsesNullableCol` (CUtils.cpp:812). -/
def fUsesNullableCol (pexprScalar : ApplyScalar D) (pexprLogical : LogicalLeaf D) : Bool :=
  !(pexprScalar.usedColumns.filter (· ∈ pexprLogical.output)).all (· ∈ pexprLogical.notNullColumns)

/-- `CUtils::PexprCmpWithZero` with `EcmptG` or `EcmptEq` (CUtils.cpp:668). -/
def pexprCmpWithZero (fEq : Bool) (pexprLeft : SubqueryScalar D) : SubqueryScalar D :=
  if fEq then .eqCmp pexprLeft (.leaf (.constInt 0)) else .gCmp pexprLeft (.leaf (.constInt 0))

namespace CXformUtils

/-- `ExistentialToAgg` (CXformUtils.cpp:702), and the next column number. -/
def ExistentialToAgg (pcf : ℕ) (fNot : Bool) (pexprInner : LogicalLeaf D) : SubqueryScalar D × ℕ :=
  let pcrCount := pcrCreate pcf
  (pexprCmpWithZero fNot (.scalarSubquery pcrCount true false
    (.gbAgg [] (.leaf pexprInner) [(pcrCount, .countStar)])), pcf + 1)

/-- The column of the subquery for ANY with NULLs: the count, or -1 where all rows counted are
    NULLs. -/
def countOrNegOne (pcrCount pcrSum : CColRef) : ApplyScalar D :=
  .scalarIf (.eqCmp (.ident pcrCount) (.constInt 0)) (.constInt 0)
    (.scalarIf (.eqCmp (.ident pcrCount) (.ident pcrSum)) (.constInt (-1)) (.ident pcrCount))

/-- The test of `SubqueryAnyToAgg`. -/
def fCanEvaluateToNull (popSubquery : CScalarSubqueryQuantified D) : Bool :=
  fUsesNullableCol (CSubqueryHandler.pexprSubqueryPred popSubquery).pexpr popSubquery.pexprInner ||
    !CPredicateUtils.fBuiltInComparisonIsVeryStrict popSubquery.mdidOp

/-- `SubqueryAnyToAgg` (CXformUtils.cpp:806), and the next column number. -/
def SubqueryAnyToAgg (pcf : ℕ) (popSubquery : CScalarSubqueryQuantified D) :
    SubqueryScalar D × ℕ :=
  let pexprSubqPred := (CSubqueryHandler.pexprSubqueryPred popSubquery).pexpr
  if fCanEvaluateToNull popSubquery then
    let pcrNullIndicator := pcrCreate pcf
    let pcrCount := pcrCreate (pcf + 1)
    let pcrSum := pcrCreate (pcf + 2)
    let pcrSubquery := pcrCreate (pcf + 3)
    let pexprSelect := .select
      (.project (.leaf popSubquery.pexprInner) pcrNullIndicator
        (pexprNullIndicator (.ident popSubquery.pcr)))
      (.boolOr pexprSubqPred (.isNull (.ident popSubquery.pcr)))
    (pexprCmpWithZero false (.scalarSubquery pcrSubquery false true
      (.project (.gbAgg [] pexprSelect [(pcrCount, .countStar), (pcrSum, .sum pcrNullIndicator)])
        pcrSubquery (countOrNegOne pcrCount pcrSum))), pcf + 4)
  else
    let pcrCount := pcrCreate pcf
    (pexprCmpWithZero false (.scalarSubquery pcrCount false true
      (.gbAgg [] (.select (.leaf popSubquery.pexprInner) pexprSubqPred) [(pcrCount, .countStar)])),
      pcf + 1)

/-- The nested IF of `SubqueryAllToAgg`. -/
def allNestedIf (pcrSum pcrSumNulls : CColRef) (pexprScalarOuter : ApplyScalar D) :
    ApplyScalar D :=
  .scalarIf (.isNull (.ident pcrSum)) (.constBool (some true))
    (.scalarIf (.gCmp (.ident pcrSumNulls) (.constInt 0)) (.constBool none)
      (.scalarIf (.isNull pexprScalarOuter) (.constBool none)
        (.scalarIf (.eqCmp (.ident pcrSum) (.constInt 0)) (.constBool (some true))
          (.constBool (some false)))))

/-- `SubqueryAllToAgg` (CXformUtils.cpp:949), and the next column number. There is no result when
    the comparison has no negator. -/
def SubqueryAllToAgg (cat : Catalog D) (pcf : ℕ) (popSubquery : CScalarSubqueryQuantified D) :
    Option (SubqueryScalar D × ℕ) :=
  (pexprInversePred cat popSubquery).map fun pexprSubqPred =>
    let pcrSubqTest := pcrCreate pcf
    let pcrInnerNullTest := pcrCreate (pcf + 1)
    let pcrSum := pcrCreate (pcf + 2)
    let pcrSumNulls := pcrCreate (pcf + 3)
    let pcrSubquery := pcrCreate (pcf + 4)
    let pexprPrj := .projects (.leaf popSubquery.pexprInner)
      [(pcrSubqTest, .scalarIf pexprSubqPred.pexpr (.constInt 1) (.constInt 0)),
        (pcrInnerNullTest, pexprNullIndicator (.ident popSubquery.pcr))]
    (.eqCmp (.scalarSubquery pcrSubquery false true
      (.project (.gbAgg [] pexprPrj [(pcrSum, .sum pcrSubqTest), (pcrSumNulls, .sum pcrInnerNullTest)])
        pcrSubquery (allNestedIf pcrSum pcrSumNulls popSubquery.pexprScalar)))
      (.leaf (.constBool (some true))), pcf + 5)

/-- `QuantifiedToAgg` (CXformUtils.cpp:750). -/
def QuantifiedToAgg (cat : Catalog D) (pcf : ℕ) (popSubquery : CScalarSubqueryQuantified D) :
    Option (SubqueryScalar D × ℕ) :=
  if popSubquery.fAll then SubqueryAllToAgg cat pcf popSubquery
  else some (SubqueryAnyToAgg pcf popSubquery)

end CXformUtils

/-! ## The transformation -/

namespace CXformSimplifySubquery

mutual

/-- `FSimplify` (CXformSimplifySubquery.cpp:152), and the next column number. -/
def FSimplify (cat : Catalog D) (kind : SubqueryKind) :
    ℕ → SubqueryScalar D → Option (SubqueryScalar D × ℕ)
  | pcf, .leaf pexpr => some (.leaf pexpr, pcf)
  | pcf, .node id children =>
    (simplifyEach cat kind pcf children).map fun p => (.node id p.1, p.2)
  | pcf, .gCmp left right => do
    let (left', pcf) ← FSimplify cat kind pcf left
    let (right', pcf) ← FSimplify cat kind pcf right
    return (.gCmp left' right', pcf)
  | pcf, .eqCmp left right => do
    let (left', pcf) ← FSimplify cat kind pcf left
    let (right', pcf) ← FSimplify cat kind pcf right
    return (.eqCmp left' right', pcf)
  | pcf, .existential fNot pexprInner =>
    if kind = .existential then some (CXformUtils.ExistentialToAgg pcf fNot pexprInner)
    else some (.existential fNot pexprInner, pcf)
  | pcf, .quantified popSubquery =>
    if kind = .quantified then CXformUtils.QuantifiedToAgg cat pcf popSubquery
    else some (.quantified popSubquery, pcf)
  | pcf, .scalarSubquery pcr fGeneratedByExist fGeneratedByQuantified pexpr =>
    some (.scalarSubquery pcr fGeneratedByExist fGeneratedByQuantified pexpr, pcf)

def simplifyEach (cat : Catalog D) (kind : SubqueryKind) :
    ℕ → List (SubqueryScalar D) → Option (List (SubqueryScalar D) × ℕ)
  | pcf, [] => some ([], pcf)
  | pcf, child :: children => do
    let (child', pcf) ← FSimplify cat kind pcf child
    let (children', pcf) ← simplifyEach cat kind pcf children
    return (child' :: children', pcf)

end

end CXformSimplifySubquery

/-! ## Values -/

/-- `CUtils::FHasCountAggMatchingColumn` (CUtils.cpp:1894), with the grouping columns of the
    aggregate. -/
def fHasCountAggMatchingColumn (colref : CColRef) : ApplyExpr D → Option (List CColRef)
  | .leaf _ => none
  | .select child _ | .project child _ _ | .projects child _ =>
    fHasCountAggMatchingColumn colref child
  | .gbAgg pdrgpcr _ pexprPrL =>
    if pexprPrL.any fun el => decide (el.1 = colref) &&
      (match el.2 with | .countStar | .count _ => true | .sum _ => false) then some pdrgpcr
    else none
  | .leftOuterApply outer inner _ =>
    fHasCountAggMatchingColumn colref outer <|> fHasCountAggMatchingColumn colref inner

/-- Integers and Booleans are equal or not; NULL is neither. -/
def sqlEq : Datum (SqlValue D) → Datum (SqlValue D) → Truth
  | some (.int m), some (.int n) => some (m == n)
  | some (.bool a), some (.bool b) => some (a == b)
  | _, _ => none

section

variable [DecidableEq D]

/-- The value of the residual scalar of `FCreateOuterApplyForScalarSubquery`
    (CSubqueryHandler.cpp:697). With `fNegOne` -1 is read as NULL for every subquery that comes from
    a quantified one, as the comment of `SubqueryAnyToAgg` says; the source does so only if the
    column of the subquery is a count. -/
def residualValue (fNegOne : Bool) (pcr : CColRef) (fGeneratedByQuantified : Bool)
    (pexpr : ApplyExpr D) (value : Datum (SqlValue D)) : Datum (SqlValue D) :=
  let zero : Datum (SqlValue D) := (.int 0 : SqlValue D)
  let coalesce := if value = ⊥ then zero else value
  let negOne : Datum (SqlValue D) := (.int (-1) : SqlValue D)
  match fHasCountAggMatchingColumn pcr pexpr with
  | none => if fNegOne && fGeneratedByQuantified && decide (value = negOne) then ⊥ else value
  | some pdrgpcr =>
    if fGeneratedByQuantified then if value = negOne then ⊥ else coalesce
    else if pdrgpcr = [] then coalesce
    else value

/-- The column of a subquery that returns at most one row. -/
def subqueryColumn (cat : Catalog D) (row : Row (SqlValue D)) (pcr : CColRef)
    (pexpr : ApplyExpr D) : Datum (SqlValue D) :=
  ((pexpr.rows cat row).head?.map (· pcr)).getD ⊥

namespace SubqueryScalar

mutual

/-- The value in an outer row. -/
def eval (cat : Catalog D) (fNegOne : Bool) (row : Row (SqlValue D)) :
    SubqueryScalar D → Datum (SqlValue D)
  | .leaf pexpr => pexpr.eval cat row
  | .node id children => cat.scalar id (evalEach cat fNegOne row children)
  | .gCmp left right => SqlValue.ofTruth
    (int8Cmp (· > ·) (left.eval cat fNegOne row) (right.eval cat fNegOne row))
  | .eqCmp left right => SqlValue.ofTruth
    (sqlEq (left.eval cat fNegOne row) (right.eval cat fNegOne row))
  | .existential fNot pexprInner =>
    (.bool (decide (pexprInner.rows row = []) == fNot) : SqlValue D)
  | .quantified popSubquery => SqlValue.ofTruth (CSubqueryHandler.sqlValue cat popSubquery row)
  | .scalarSubquery pcr _ fGeneratedByQuantified pexpr =>
    residualValue fNegOne pcr fGeneratedByQuantified pexpr (subqueryColumn cat row pcr pexpr)

def evalEach (cat : Catalog D) (fNegOne : Bool) (row : Row (SqlValue D)) :
    List (SubqueryScalar D) → List (Datum (SqlValue D))
  | [] => []
  | child :: children => child.eval cat fNegOne row :: evalEach cat fNegOne row children

end

end SubqueryScalar

/-! ## The value of a new subquery -/

variable {cat : Catalog D} {fNegOne : Bool} {row : Row (SqlValue D)} {pcf : ℕ}

variable {pcr : CColRef}

attribute [local simp] SubqueryScalar.quantifiedSubqueries SubqueryScalar.quantifiedEach
  CXformSimplifySubquery.FSimplify CXformSimplifySubquery.simplifyEach SubqueryScalar.eval
  SubqueryScalar.evalEach in
theorem eval_scalarSubquery {fExist fQuant : Bool} {pexpr : ApplyExpr D} :
    (SubqueryScalar.scalarSubquery pcr fExist fQuant pexpr).eval cat fNegOne row =
      residualValue fNegOne pcr fQuant pexpr (subqueryColumn cat row pcr pexpr) := by
  rw [SubqueryScalar.eval]

/-- A scalar aggregate returns one row. -/
theorem subqueryColumn_gbAgg {child : ApplyExpr D} {pexprPrL : List (CColRef × CScalarAggFunc)} :
    subqueryColumn cat row pcr (.gbAgg [] child pexprPrL) =
      ApplyExpr.groupRow row [] pexprPrL (child.rows cat row) row pcr := rfl

theorem subqueryColumn_project {child : ApplyExpr D} {pexprPrL : List (CColRef × CScalarAggFunc)}
    {pexprScalar : ApplyScalar D} :
    subqueryColumn cat row pcr (.project (.gbAgg [] child pexprPrL) pcr pexprScalar) =
      pexprScalar.eval cat (ApplyExpr.groupRow row [] pexprPrL (child.rows cat row) row) :=
  Function.update_self _ _ _

theorem groupRow_single {agg : CScalarAggFunc} {group : List (Row (SqlValue D))} :
    ApplyExpr.groupRow row [] [(pcr, agg)] group row pcr = agg.eval group := by
  have hnd : ([(pcr, agg)].map (·.1)).Nodup := List.nodup_singleton pcr
  exact ApplyExpr.groupRow_getElem hnd Nat.zero_lt_one

theorem eval_pexprCmpWithZero (fEq : Bool) {pexprLeft : SubqueryScalar D} {n : ℤ}
    (hvalue : pexprLeft.eval cat fNegOne row = (.int n : SqlValue D)) :
    (pexprCmpWithZero fEq pexprLeft).eval cat fNegOne row =
      (.bool (if fEq then n == 0 else decide (n > 0)) : SqlValue D) := by
  cases fEq with
  | true =>
    rw [pexprCmpWithZero, if_pos rfl, SubqueryScalar.eval, hvalue, SubqueryScalar.eval]
    rfl
  | false =>
    rw [pexprCmpWithZero, if_neg Bool.false_ne_true, SubqueryScalar.eval, hvalue,
      SubqueryScalar.eval]
    rfl

/-- The count of a scalar aggregate decides whether there are rows. -/
theorem eval_cmpWithZero_count {fEq fExist fQuant : Bool} {child : ApplyExpr D} :
    (pexprCmpWithZero fEq (.scalarSubquery pcr fExist fQuant
      (.gbAgg [] child [(pcr, .countStar)]))).eval cat fNegOne row =
      (.bool (decide (child.rows cat row = []) == fEq) : SqlValue D) := by
  have hcount : subqueryColumn cat row pcr (.gbAgg [] child [(pcr, .countStar)]) =
      (.int (child.rows cat row).length : SqlValue D) := groupRow_single
  have hvalue : (SubqueryScalar.scalarSubquery pcr fExist fQuant
      (.gbAgg [] child [(pcr, .countStar)])).eval cat fNegOne row =
      (.int (child.rows cat row).length : SqlValue D) := by
    rw [SubqueryScalar.eval, hcount]
    simp [residualValue, fHasCountAggMatchingColumn]
  rw [eval_pexprCmpWithZero fEq hvalue]
  cases fEq <;> cases child.rows cat row <;> simp <;> omega

/-- **EXISTS and NOT EXISTS keep their value**. -/
theorem eval_ExistentialToAgg (fNot : Bool) (pexprInner : LogicalLeaf D) :
    (CXformUtils.ExistentialToAgg pcf fNot pexprInner).1.eval cat fNegOne row =
      (SubqueryScalar.existential fNot pexprInner).eval cat fNegOne row :=
  eval_cmpWithZero_count

/-! ## ANY -/

/-- The comparison is strict: with a NULL it is unknown. -/
def Catalog.Strict (cat : Catalog D) (op : ℕ) : Prop :=
  ∀ a b, a = ⊥ ∨ b = ⊥ → cat.compare op a b = none

/-- The subquery compares a column of its inner child with a scalar over other columns, all of them
    older than new columns. -/
structure WellFormedSubquery (pcf : ℕ) (sq : CScalarSubqueryQuantified D) : Prop where
  pcr_mem : sq.pcr ∈ sq.pexprInner.output
  scalar_notMem : ∀ c ∈ sq.pexprScalar.usedColumns, c ∉ sq.pexprInner.output
  old_inner : ∀ c ∈ sq.pexprInner.output, c.id < pcf
  old_scalar : ∀ c ∈ sq.pexprScalar.usedColumns, c.id < pcf

variable {sq : CScalarSubqueryQuantified D} {inner : Row (SqlValue D)}

open CSubqueryHandler

omit [DecidableEq D] in
theorem ne_pcrCreate {c : CColRef} {k : ℕ} (hc : c.id < pcf) : c ≠ pcrCreate (pcf + k) := by
  rintro rfl
  simp [pcrCreate] at hc

/-- An inner row with new columns is compared as before. -/
theorem WellFormedSubquery.eval_predicate (h : WellFormedSubquery pcf sq) {op : ℕ}
    (hinner : inner ∈ sq.pexprInner.rows row) {joined : Row (SqlValue D)}
    (hjoined : ∀ c : CColRef, c.id < pcf → joined c = inner c) :
    (predicate op sq).pexpr.eval cat joined = SqlValue.ofTruth (comparison cat op sq row inner) :=
  CSubqueryHandler.eval_predicate
    (fun c hc => (hjoined c (h.old_scalar c hc)).trans
      (LogicalLeaf.rows_of_notMem hinner (h.scalar_notMem c hc)))
    (hjoined sq.pcr (h.old_inner _ h.pcr_mem))

/-- A sum of indicators counts; over no rows it is NULL. -/
theorem eval_sum_indicator {q : Row (SqlValue D) → Bool} {rows : List (Row (SqlValue D))}
    {f : Row (SqlValue D) → Row (SqlValue D)}
    (h : ∀ r ∈ rows, f r pcr = (.int (if q r then 1 else 0) : SqlValue D)) :
    (CScalarAggFunc.sum pcr).eval (rows.map f) =
      if rows = [] then (⊥ : Datum (SqlValue D))
      else ((.int (rows.countP q) : SqlValue D) : Datum (SqlValue D)) := by
  have hvals : (rows.map f).filterMap (fun row => CScalarAggFunc.toInt (row pcr)) =
      rows.map fun r => if q r then 1 else 0 := by
    rw [List.filterMap_map, ← List.filterMap_eq_map]
    refine List.filterMap_congr fun r hr => ?_
    rw [Function.comp_apply, h r hr]
    rfl
  have hsum : ∀ l : List (Row (SqlValue D)),
      (l.map fun r => if q r then (1 : ℤ) else 0).sum = l.countP q := by
    intro l
    induction l with
    | nil => rfl
    | cons r l ih =>
      rw [List.map_cons, List.sum_cons, ih, List.countP_cons]
      by_cases hr : q r <;> simp [hr, add_comm]
  rw [CScalarAggFunc.eval, hvals]
  cases rows with
  | nil => rfl
  | cons r rows =>
    rw [if_neg (List.cons_ne_nil _ _), ← hsum]
    rfl

theorem eval_pexprNullIndicator {c : CColRef} {r : Row (SqlValue D)} :
    (CXformUtils.pexprNullIndicator (.ident c)).eval cat r =
      (.int (if decide (r c = ⊥) then 1 else 0) : SqlValue D) := by
  by_cases hc : r c = ⊥ <;> simp [CXformUtils.pexprNullIndicator, ApplyScalar.eval, hc]

/-- Without inner NULLs ANY becomes whether a comparison is true. -/
theorem eval_SubqueryAnyToAgg_of_not (h : WellFormedSubquery pcf sq)
    (hnull : CXformUtils.fCanEvaluateToNull sq = false) :
    (CXformUtils.SubqueryAnyToAgg pcf sq).1.eval cat fNegOne row =
      SqlValue.ofTruth (some (decide (some true ∈ comparisons cat sq.mdidOp sq row))) := by
  rw [CXformUtils.SubqueryAnyToAgg, if_neg (by simp [hnull]), eval_cmpWithZero_count,
    SqlValue.ofTruth_some]
  have hrows : (ApplyExpr.select (.leaf sq.pexprInner) (pexprSubqueryPred sq).pexpr).rows cat row =
      (sq.pexprInner.rows row).filter fun inner =>
        comparison cat sq.mdidOp sq row inner = some true := by
    rw [ApplyExpr.rows]
    refine List.filter_congr fun inner hinner => ?_
    have hpred : (pexprSubqueryPred sq).pexpr.eval cat inner =
        SqlValue.ofTruth (comparison cat sq.mdidOp sq row inner) :=
      h.eval_predicate hinner fun _ _ => rfl
    rw [ApplyScalar.isTrue, hpred]
    exact decide_eq_decide.2 (SqlValue.ofTruth_injective.eq_iff (b := some true))
  have hnil : (ApplyExpr.select (.leaf sq.pexprInner) (pexprSubqueryPred sq).pexpr).rows cat row =
      [] ↔ some true ∉ comparisons cat sq.mdidOp sq row := by
    rw [hrows, List.filter_eq_nil_iff, comparisons, List.mem_map]
    simp
  by_cases htrue : some true ∈ comparisons cat sq.mdidOp sq row <;> simp [hnil, htrue]

/-- The rows counted for ANY: the comparison is true, or the inner value is NULL. -/
def countedForAny (cat : Catalog D) (sq : CScalarSubqueryQuantified D) (row : Row (SqlValue D)) :
    List (Row (SqlValue D)) :=
  (sq.pexprInner.rows row).filter fun inner =>
    comparison cat sq.mdidOp sq row inner = some true ∨ inner sq.pcr = ⊥

/-- A row with a null indicator. -/
def withIndicator (cat : Catalog D) (sq : CScalarSubqueryQuantified D) (pcr : CColRef)
    (inner : Row (SqlValue D)) : Row (SqlValue D) :=
  Function.update inner pcr ((CXformUtils.pexprNullIndicator (.ident sq.pcr)).eval cat inner)

theorem rows_selectAny (h : WellFormedSubquery pcf sq) :
    (ApplyExpr.select (.project (.leaf sq.pexprInner) (pcrCreate pcf)
      (CXformUtils.pexprNullIndicator (.ident sq.pcr)))
      (.boolOr (pexprSubqueryPred sq).pexpr (.isNull (.ident sq.pcr)))).rows cat row =
      (countedForAny cat sq row).map (withIndicator cat sq (pcrCreate pcf)) := by
  rw [ApplyExpr.rows, ApplyExpr.rows, countedForAny, List.filter_map]
  refine congrArg _ (List.filter_congr fun inner hinner => ?_)
  have hold : ∀ c : CColRef, c.id < pcf → withIndicator cat sq (pcrCreate pcf) inner c = inner c :=
    fun c hc => Function.update_of_ne (ne_pcrCreate (k := 0) hc) _ _
  have hpred : (pexprSubqueryPred sq).pexpr.eval cat
      (withIndicator cat sq (pcrCreate pcf) inner) =
      SqlValue.ofTruth (comparison cat sq.mdidOp sq row inner) := h.eval_predicate hinner hold
  have hpcr := hold sq.pcr (h.old_inner _ h.pcr_mem)
  change ApplyScalar.isTrue cat _ (withIndicator cat sq (pcrCreate pcf) inner) = _
  rw [ApplyScalar.isTrue, ApplyScalar.eval, hpred, ApplyScalar.eval, ApplyScalar.eval, hpcr]
  generalize comparison cat sq.mdidOp sq row inner = t
  by_cases hbot : inner sq.pcr = ⊥ <;> rcases t with _ | _ | _ <;>
    simp [hbot, SqlValue.toTruth, Truth.any, Truth.or]

/-- The column of the subquery for ANY. -/
theorem subqueryColumn_any (h : WellFormedSubquery pcf sq) :
    subqueryColumn cat row (pcrCreate (pcf + 3))
      (.project (.gbAgg [] (.select (.project (.leaf sq.pexprInner) (pcrCreate pcf)
        (CXformUtils.pexprNullIndicator (.ident sq.pcr)))
        (.boolOr (pexprSubqueryPred sq).pexpr (.isNull (.ident sq.pcr))))
        [(pcrCreate (pcf + 1), .countStar), (pcrCreate (pcf + 2), .sum (pcrCreate pcf))])
        (pcrCreate (pcf + 3))
        (CXformUtils.countOrNegOne (pcrCreate (pcf + 1)) (pcrCreate (pcf + 2)))) =
      (.int (if countedForAny cat sq row = [] then 0
        else if ∀ inner ∈ countedForAny cat sq row, inner sq.pcr = ⊥ then -1
        else (countedForAny cat sq row).length) : SqlValue D) := by
  rw [subqueryColumn_project, rows_selectAny h]
  set counted := countedForAny cat sq row with hcounted
  set groupRow := ApplyExpr.groupRow row []
    [(pcrCreate (pcf + 1), .countStar), (pcrCreate (pcf + 2), .sum (pcrCreate pcf))]
    (counted.map (withIndicator cat sq (pcrCreate pcf))) row with hgroupRow
  have hnd : ([(pcrCreate (pcf + 1), CScalarAggFunc.countStar),
      (pcrCreate (pcf + 2), .sum (pcrCreate pcf))].map (·.1)).Nodup := by
    have hne : pcrCreate (pcf + 1) ≠ pcrCreate (pcf + 2) := fun heq => by
      simpa using pcrCreate_injective heq
    simpa using hne
  have hcount : groupRow (pcrCreate (pcf + 1)) = (.int counted.length : SqlValue D) := by
    refine (ApplyExpr.groupRow_getElem hnd (i := 0) (by simp)).trans ?_
    rw [List.getElem_cons_zero, CScalarAggFunc.eval, List.length_map]
  have hsum : groupRow (pcrCreate (pcf + 2)) = if counted = [] then (⊥ : Datum (SqlValue D)) else
      ((.int (counted.countP fun inner => inner sq.pcr = ⊥) : SqlValue D) : Datum (SqlValue D)) := by
    refine (ApplyExpr.groupRow_getElem hnd (i := 1) (by simp)).trans (eval_sum_indicator ?_)
    exact fun inner _ => (Function.update_self _ _ _).trans eval_pexprNullIndicator
  clear_value groupRow
  rw [CXformUtils.countOrNegOne]
  simp only [ApplyScalar.eval, hcount, hsum]
  by_cases hnil : counted = []
  · simp [hnil, int8Cmp]
  · have hall : counted.length = counted.countP (fun inner => inner sq.pcr = ⊥) ↔
        ∀ inner ∈ counted, inner sq.pcr = ⊥ := by
      rw [eq_comm, List.countP_eq_length]
      simp
    by_cases hnull : ∀ inner ∈ counted, inner sq.pcr = ⊥
    · simp only [if_neg hnil, if_pos hnull, ← hall.2 hnull]
      simp [int8Cmp, hnil]
    · have hne := mt hall.1 hnull
      simp only [if_neg hnil, if_neg hnull]
      simp [int8Cmp, hnil, hne]

/-- A comparison with zero of a column that is not a count. -/
theorem eval_gZero {fExist : Bool} {pexpr : ApplyExpr D} {n : ℤ}
    (hcolumn : subqueryColumn cat row pcr pexpr = (.int n : SqlValue D))
    (hnone : fHasCountAggMatchingColumn pcr pexpr = none) :
    (pexprCmpWithZero false (.scalarSubquery pcr fExist true pexpr)).eval cat fNegOne row =
      SqlValue.ofTruth (if fNegOne = true ∧ n = -1 then none else some (decide (n > 0))) := by
  have hvalue : residualValue fNegOne pcr true pexpr (.int n : SqlValue D) =
      if fNegOne = true ∧ n = -1 then ⊥ else ((.int n : SqlValue D) : Datum (SqlValue D)) := by
    simp only [residualValue, hnone]
    simp
  rw [pexprCmpWithZero, if_neg Bool.false_ne_true, SubqueryScalar.eval, eval_scalarSubquery,
    hcolumn, hvalue, SubqueryScalar.eval]
  split <;> rfl

/-- **What ANY becomes** where it can be unknown: true where a comparison is, and where there is an
    inner NULL -1, whatever the outer value is. -/
theorem eval_SubqueryAnyToAgg_of_null (h : WellFormedSubquery pcf sq)
    (hstrict : cat.Strict sq.mdidOp) (hnull : CXformUtils.fCanEvaluateToNull sq = true) :
    (CXformUtils.SubqueryAnyToAgg pcf sq).1.eval cat fNegOne row =
      SqlValue.ofTruth (if some true ∈ comparisons cat sq.mdidOp sq row then some true
        else if fNegOne = true ∧ ∃ inner ∈ sq.pexprInner.rows row, inner sq.pcr = ⊥ then none
        else some false) := by
  have hcounted : ∀ inner, inner ∈ countedForAny cat sq row ↔ inner ∈ sq.pexprInner.rows row ∧
      (comparison cat sq.mdidOp sq row inner = some true ∨ inner sq.pcr = ⊥) := by
    simp [countedForAny, List.mem_filter]
  -- a comparison with an inner NULL is not true
  have htrue : some true ∈ comparisons cat sq.mdidOp sq row ↔
      ∃ inner ∈ countedForAny cat sq row, inner sq.pcr ≠ ⊥ := by
    rw [comparisons, List.mem_map]
    constructor
    · rintro ⟨inner, hinner, heq⟩
      refine ⟨inner, (hcounted inner).2 ⟨hinner, .inl heq⟩, fun hbot => ?_⟩
      rw [comparison, hstrict _ _ (.inr hbot)] at heq
      cases heq
    · rintro ⟨inner, hinner, hne⟩
      obtain ⟨hmem, heq⟩ := (hcounted inner).1 hinner
      exact ⟨inner, hmem, heq.resolve_right hne⟩
  have hne : pcrCreate (pcf + 1) ≠ pcrCreate (pcf + 3) := fun heq => by
    simpa using pcrCreate_injective heq
  rw [CXformUtils.SubqueryAnyToAgg, if_pos hnull]
  refine (eval_gZero (subqueryColumn_any h) (by simp [fHasCountAggMatchingColumn, hne])).trans
    (congrArg _ ?_)
  by_cases hnil : countedForAny cat sq row = []
  · have hnone : ¬∃ inner ∈ sq.pexprInner.rows row, inner sq.pcr = ⊥ := by
      rintro ⟨inner, hinner, hbot⟩
      exact List.ne_nil_of_mem ((hcounted inner).2 ⟨hinner, .inr hbot⟩) hnil
    simp [htrue, hnil, hnone]
  · by_cases hall : ∀ inner ∈ countedForAny cat sq row, inner sq.pcr = ⊥
    · obtain ⟨inner, hinner⟩ := List.exists_mem_of_ne_nil _ hnil
      have hsome : ∃ inner ∈ sq.pexprInner.rows row, inner sq.pcr = ⊥ :=
        ⟨inner, ((hcounted inner).1 hinner).1, hall inner hinner⟩
      have hnot : some true ∉ comparisons cat sq.mdidOp sq row := by
        rw [htrue]
        rintro ⟨inner, hinner, hne⟩
        exact hne (hall inner hinner)
      rw [if_neg hnil, if_pos hall, if_neg hnot]
      cases fNegOne <;> simp [hsome]
    · have hpos : 0 < (countedForAny cat sq row).length := List.length_pos_iff.2 hnil
      have hmem : some true ∈ comparisons cat sq.mdidOp sq row := by
        rw [htrue]
        push Not at hall
        exact hall
      rw [if_neg hnil, if_neg hall, if_pos hmem, if_neg (by omega)]
      simpa using hpos

/-! ## ALL -/

/-- The value of the nested IF: an inner NULL comes before the comparisons. -/
def allValue (cat : Catalog D) (sq : CScalarSubqueryQuantified D) (row : Row (SqlValue D)) :
    Truth :=
  if sq.pexprInner.rows row = [] then some true
  else if ∃ inner ∈ sq.pexprInner.rows row, inner sq.pcr = ⊥ then none
  else if sq.pexprScalar.eval cat row = ⊥ then none
  else some (decide (some false ∉ comparisons cat sq.mdidOp sq row))

/-- The projection under the sums of ALL: hits of the inverse predicate and null indicators. -/
def projectAll (pcf : ℕ) (sq : CScalarSubqueryQuantified D) (inv : ℕ) : ApplyExpr D :=
  .projects (.leaf sq.pexprInner)
    [(pcrCreate pcf, .scalarIf (predicate inv sq).pexpr (.constInt 1) (.constInt 0)),
      (pcrCreate (pcf + 1), CXformUtils.pexprNullIndicator (.ident sq.pcr))]

/-- The column of the subquery for ALL. -/
theorem subqueryColumn_all (h : WellFormedSubquery pcf sq) {inv : ℕ}
    (hinv : ∀ a b, cat.compare inv a b = (cat.compare sq.mdidOp a b).not) :
    subqueryColumn cat row (pcrCreate (pcf + 4))
      (.project (.gbAgg [] (projectAll pcf sq inv)
        [(pcrCreate (pcf + 2), .sum (pcrCreate pcf)),
          (pcrCreate (pcf + 3), .sum (pcrCreate (pcf + 1)))])
        (pcrCreate (pcf + 4))
        (CXformUtils.allNestedIf (pcrCreate (pcf + 2)) (pcrCreate (pcf + 3)) sq.pexprScalar)) =
      SqlValue.ofTruth (allValue cat sq row) := by
  rw [subqueryColumn_project, projectAll, ApplyExpr.rows]
  set f : Row (SqlValue D) → Row (SqlValue D) := fun inner =>
    assign [pcrCreate pcf, pcrCreate (pcf + 1)]
      [ApplyScalar.eval cat inner (.scalarIf (predicate inv sq).pexpr (.constInt 1) (.constInt 0)),
        ApplyScalar.eval cat inner (CXformUtils.pexprNullIndicator (.ident sq.pcr))] inner with hf
  have hdiff : ∀ i j : ℕ, i ≠ j → pcrCreate (pcf + i) ≠ pcrCreate (pcf + j) := fun i j hij heq =>
    hij (by simpa using pcrCreate_injective heq)
  have hhit : ∀ inner ∈ sq.pexprInner.rows row, f inner (pcrCreate pcf) =
      (.int (if decide (comparison cat sq.mdidOp sq row inner = some false) then 1 else 0) :
        SqlValue D) := by
    intro inner hinner
    have hpred : (predicate inv sq).pexpr.eval cat inner =
        SqlValue.ofTruth (comparison cat sq.mdidOp sq row inner).not := by
      rw [h.eval_predicate hinner fun _ _ => rfl, comparison, hinv]
      rfl
    have hassign : f inner (pcrCreate pcf) = ApplyScalar.eval cat inner
        (.scalarIf (predicate inv sq).pexpr (.constInt 1) (.constInt 0)) := by
      refine (assign_of_mem (by simp)).trans ?_
      rw [List.idxOf_cons_self]
      rfl
    rw [hassign, ApplyScalar.eval, hpred]
    generalize comparison cat sq.mdidOp sq row inner = t
    rcases t with _ | _ | _ <;> simp [Truth.not, ApplyScalar.eval]
  have hnull : ∀ inner ∈ sq.pexprInner.rows row, f inner (pcrCreate (pcf + 1)) =
      (.int (if decide (inner sq.pcr = ⊥) then 1 else 0) : SqlValue D) := by
    intro inner _
    have hassign : f inner (pcrCreate (pcf + 1)) =
        ApplyScalar.eval cat inner (CXformUtils.pexprNullIndicator (.ident sq.pcr)) := by
      refine (assign_of_mem (by simp)).trans ?_
      have hne : pcrCreate pcf ≠ pcrCreate (pcf + 1) := hdiff 0 1 (by decide)
      rw [List.idxOf_cons_ne _ hne, List.idxOf_cons_self]
      rfl
    rw [hassign, eval_pexprNullIndicator]
  set pexprPrL : List (CColRef × CScalarAggFunc) :=
    [(pcrCreate (pcf + 2), .sum (pcrCreate pcf)), (pcrCreate (pcf + 3), .sum (pcrCreate (pcf + 1)))]
    with hpexprPrL
  have hnd : (pexprPrL.map (·.1)).Nodup := by simpa [hpexprPrL] using hdiff 2 3 (by decide)
  change (CXformUtils.allNestedIf _ _ _).eval cat
    (ApplyExpr.groupRow row [] pexprPrL ((sq.pexprInner.rows row).map f) row) = _
  set groupRow := ApplyExpr.groupRow row [] pexprPrL ((sq.pexprInner.rows row).map f) row
    with hgroupRow
  have hsum : groupRow (pcrCreate (pcf + 2)) = _ :=
    (ApplyExpr.groupRow_getElem hnd (i := 0) (by simp [hpexprPrL])).trans (eval_sum_indicator hhit)
  have hsumNulls : groupRow (pcrCreate (pcf + 3)) = _ :=
    (ApplyExpr.groupRow_getElem hnd (i := 1) (by simp [hpexprPrL])).trans (eval_sum_indicator hnull)
  have houter : sq.pexprScalar.eval cat groupRow = sq.pexprScalar.eval cat row := by
    refine ApplyScalar.eval_congr fun c hc => ApplyExpr.groupRow_of_notMem (by simp) ?_
    have hc2 := ne_pcrCreate (k := 2) (h.old_scalar c hc)
    have hc3 := ne_pcrCreate (k := 3) (h.old_scalar c hc)
    simp [hpexprPrL, hc2, hc3]
  clear_value groupRow
  rw [CXformUtils.allNestedIf, allValue]
  simp only [ApplyScalar.eval, hsum, hsumNulls, houter]
  by_cases hnil : sq.pexprInner.rows row = []
  · simp [hnil]
  · have hnulls : (∃ inner ∈ sq.pexprInner.rows row, inner sq.pcr = ⊥) ↔
        0 < (sq.pexprInner.rows row).countP fun inner => inner sq.pcr = ⊥ := by
      rw [List.countP_pos_iff]
      simp
    have hhits : (sq.pexprInner.rows row).countP (fun inner =>
        decide (comparison cat sq.mdidOp sq row inner = some false)) = 0 ↔
        some false ∉ comparisons cat sq.mdidOp sq row := by
      rw [List.countP_eq_zero, comparisons, List.mem_map]
      simp
    simp only [if_neg hnil]
    by_cases hex : ∃ inner ∈ sq.pexprInner.rows row, inner sq.pcr = ⊥
    · have hpos := hnulls.1 hex
      rw [if_pos hex]
      simp [int8Cmp, hpos]
    · have hzero := Nat.eq_zero_of_not_pos (mt hnulls.2 hex)
      rw [if_neg hex, hzero]
      by_cases hbot : sq.pexprScalar.eval cat row = ⊥
      · simp [hbot, int8Cmp]
      · by_cases hfalse : some false ∈ comparisons cat sq.mdidOp sq row
        · have hne := mt hhits.1 (not_not.2 hfalse)
          simp [hbot, int8Cmp, hfalse, hne]
        · simp [hbot, int8Cmp, hfalse, hhits.2 hfalse]

/-- A comparison with TRUE of a Boolean column. -/
theorem eval_eqTrue {fExist : Bool} {pexpr : ApplyExpr D} {t : Truth}
    (hcolumn : subqueryColumn cat row pcr pexpr = SqlValue.ofTruth t)
    (hnone : fHasCountAggMatchingColumn pcr pexpr = none) :
    (SubqueryScalar.eqCmp (.scalarSubquery pcr fExist true pexpr)
      (.leaf (.constBool (some true)))).eval cat fNegOne row = SqlValue.ofTruth t := by
  have hvalue : residualValue fNegOne pcr true pexpr (SqlValue.ofTruth t) = SqlValue.ofTruth t := by
    simp only [residualValue, hnone]
    rcases t with _ | b <;> simp
  rw [SubqueryScalar.eval, eval_scalarSubquery, hcolumn, hvalue, SubqueryScalar.eval]
  rcases t with _ | _ | _ <;> rfl

variable {p : SubqueryScalar D × ℕ}

/-- **What ALL becomes**. -/
theorem eval_SubqueryAllToAgg (h : WellFormedSubquery pcf sq)
    (hinverse : ∀ inv, cat.getInverseOpMdid sq.mdidOp = some inv → ∀ a b,
      cat.compare inv a b = (cat.compare sq.mdidOp a b).not)
    (hsome : CXformUtils.SubqueryAllToAgg cat pcf sq = some p) :
    p.1.eval cat fNegOne row = SqlValue.ofTruth (allValue cat sq row) := by
  unfold CXformUtils.SubqueryAllToAgg CXformUtils.pexprInversePred at hsome
  rw [Option.map_map] at hsome
  obtain ⟨inv, hinv, rfl⟩ := Option.map_eq_some_iff.1 hsome
  have hcolumn := @subqueryColumn_all _ _ _ row _ _ h _ (hinverse inv hinv)
  have hnone : fHasCountAggMatchingColumn (pcrCreate (pcf + 4))
      (.project (.gbAgg [] (projectAll pcf sq inv)
        [(pcrCreate (pcf + 2), .sum (pcrCreate pcf)),
          (pcrCreate (pcf + 3), .sum (pcrCreate (pcf + 1)))])
        (pcrCreate (pcf + 4))
        (CXformUtils.allNestedIf (pcrCreate (pcf + 2)) (pcrCreate (pcf + 3)) sq.pexprScalar)) =
      none := by
    simp [fHasCountAggMatchingColumn]
  exact eval_eqTrue hcolumn hnone

/-! ## The value kept -/

/-- Where a quantified subquery keeps its value. ALL: with an inner NULL no comparison is false;
    without one a comparison is false, or none is unknown, unless the outer value is NULL. ANY: a
    comparison is true, or none is unknown, or -1 is read as NULL and there is an inner NULL. -/
def KeepsTruth (cat : Catalog D) (fNegOne : Bool) (row : Row (SqlValue D))
    (sq : CScalarSubqueryQuantified D) : Prop :=
  if sq.fAll then
    if ∃ inner ∈ sq.pexprInner.rows row, inner sq.pcr = ⊥ then
      some false ∉ comparisons cat sq.mdidOp sq row
    else sq.pexprScalar.eval cat row = ⊥ ∨ some false ∈ comparisons cat sq.mdidOp sq row ∨
      none ∉ comparisons cat sq.mdidOp sq row
  else some true ∈ comparisons cat sq.mdidOp sq row ∨ none ∉ comparisons cat sq.mdidOp sq row ∨
    (fNegOne = true ∧ CXformUtils.fCanEvaluateToNull sq = true ∧
      ∃ inner ∈ sq.pexprInner.rows row, inner sq.pcr = ⊥)

/-- An inner NULL is not comparable. -/
theorem none_mem_comparisons_of_inner (hstrict : cat.Strict sq.mdidOp)
    (hex : ∃ inner ∈ sq.pexprInner.rows row, inner sq.pcr = ⊥) :
    none ∈ comparisons cat sq.mdidOp sq row := by
  obtain ⟨inner, hinner, hbot⟩ := hex
  exact List.mem_map.2 ⟨inner, hinner, hstrict _ _ (.inr hbot)⟩

theorem allValue_eq_iff (hstrict : cat.Strict sq.mdidOp) (hall : sq.fAll = true) :
    allValue cat sq row = sqlValue cat sq row ↔ KeepsTruth cat fNegOne row sq := by
  rw [sqlValue, if_pos hall, KeepsTruth, if_pos hall, Truth.all_eq, allValue]
  by_cases hnil : sq.pexprInner.rows row = []
  · simp [hnil, comparisons]
  · rw [if_neg hnil]
    by_cases hex : ∃ inner ∈ sq.pexprInner.rows row, inner sq.pcr = ⊥
    · have hnone := none_mem_comparisons_of_inner hstrict hex
      rw [if_pos hex, if_pos hex]
      by_cases hfalse : some false ∈ comparisons cat sq.mdidOp sq row <;> simp [hfalse, hnone]
    · rw [if_neg hex, if_neg hex]
      by_cases hbot : sq.pexprScalar.eval cat row = ⊥
      · -- all comparisons are unknown
        have hunknown : ∀ t ∈ comparisons cat sq.mdidOp sq row, t = none := by
          intro t ht
          obtain ⟨inner, -, rfl⟩ := List.mem_map.1 ht
          exact hstrict _ _ (.inl hbot)
        have hfalse : some false ∉ comparisons cat sq.mdidOp sq row := fun hmem => by
          cases hunknown _ hmem
        obtain ⟨inner, hinner⟩ := List.exists_mem_of_ne_nil _ hnil
        have hnone : none ∈ comparisons cat sq.mdidOp sq row :=
          List.mem_map.2 ⟨inner, hinner, hstrict _ _ (.inl hbot)⟩
        simp [hbot, hfalse, hnone]
      · by_cases hfalse : some false ∈ comparisons cat sq.mdidOp sq row <;>
          by_cases hnone : none ∈ comparisons cat sq.mdidOp sq row <;> simp [hbot, hfalse, hnone]

/-- **When a quantified subquery keeps its value**. -/
theorem eval_QuantifiedToAgg_iff (h : WellFormedSubquery pcf sq) (hstrict : cat.Strict sq.mdidOp)
    (hinverse : ∀ inv, cat.getInverseOpMdid sq.mdidOp = some inv → ∀ a b,
      cat.compare inv a b = (cat.compare sq.mdidOp a b).not)
    (hsome : CXformUtils.QuantifiedToAgg cat pcf sq = some p) :
    p.1.eval cat fNegOne row = (SubqueryScalar.quantified sq).eval cat fNegOne row ↔
      KeepsTruth cat fNegOne row sq := by
  rw [SubqueryScalar.eval]
  unfold CXformUtils.QuantifiedToAgg at hsome
  split at hsome
  · next hall =>
    rw [eval_SubqueryAllToAgg h hinverse hsome, SqlValue.ofTruth_injective.eq_iff,
      allValue_eq_iff hstrict hall]
  · next hany =>
    cases hsome
    rw [KeepsTruth, if_neg hany, sqlValue, if_neg hany, Truth.any_eq]
    cases hnull : CXformUtils.fCanEvaluateToNull sq with
    | false =>
      rw [eval_SubqueryAnyToAgg_of_not h hnull, SqlValue.ofTruth_injective.eq_iff]
      by_cases htrue : some true ∈ comparisons cat sq.mdidOp sq row <;>
        by_cases hnone : none ∈ comparisons cat sq.mdidOp sq row <;> simp [htrue, hnone]
    | true =>
      rw [eval_SubqueryAnyToAgg_of_null h hstrict hnull, SqlValue.ofTruth_injective.eq_iff]
      by_cases hex : ∃ inner ∈ sq.pexprInner.rows row, inner sq.pcr = ⊥
      · have hnone := none_mem_comparisons_of_inner hstrict hex
        by_cases htrue : some true ∈ comparisons cat sq.mdidOp sq row <;> cases fNegOne <;>
          simp [htrue, hnone, hex]
      · by_cases htrue : some true ∈ comparisons cat sq.mdidOp sq row <;>
          by_cases hnone : none ∈ comparisons cat sq.mdidOp sq row <;> simp [htrue, hnone, hex]

/-! ## In a tree -/

/-- What a pass relies on of a quantified subquery: its columns, and that its comparison is strict
    and negated by the inverse operator. -/
structure RegularSubquery (cat : Catalog D) (pcf : ℕ) (sq : CScalarSubqueryQuantified D) :
    Prop where
  wellFormed : WellFormedSubquery pcf sq
  strict : cat.Strict sq.mdidOp
  inverse : ∀ inv, cat.getInverseOpMdid sq.mdidOp = some inv → ∀ a b,
    cat.compare inv a b = (cat.compare sq.mdidOp a b).not

omit [DecidableEq D] in
theorem RegularSubquery.mono {pcf' : ℕ} (h : RegularSubquery cat pcf sq) (hle : pcf ≤ pcf') :
    RegularSubquery cat pcf' sq :=
  { h with wellFormed := { h.wellFormed with
      old_inner := fun c hc => (h.wellFormed.old_inner c hc).trans_le hle
      old_scalar := fun c hc => (h.wellFormed.old_scalar c hc).trans_le hle } }

omit [DecidableEq D] in
theorem le_of_QuantifiedToAgg
    (h : CXformUtils.QuantifiedToAgg cat pcf sq = some p) : pcf ≤ p.2 := by
  unfold CXformUtils.QuantifiedToAgg at h
  split at h
  · obtain ⟨_, -, rfl⟩ := Option.map_eq_some_iff.1 h
    exact Nat.le_add_right _ _
  · cases h
    unfold CXformUtils.SubqueryAnyToAgg
    dsimp only
    split <;> exact Nat.le_add_right _ _

variable {kind : SubqueryKind}

open CXformSimplifySubquery

mutual

/-- A pass keeps the value of a tree when it keeps that of every quantified subquery it replaces;
    the induction is on the tree, and new columns are numbered from left to right. -/
theorem eval_FSimplify {pcf : ℕ} : ∀ {pexpr : SubqueryScalar D} {p : SubqueryScalar D × ℕ},
    FSimplify cat kind pcf pexpr = some p →
    (∀ sq ∈ pexpr.quantifiedSubqueries, RegularSubquery cat pcf sq) →
    (kind = .quantified → ∀ sq ∈ pexpr.quantifiedSubqueries, KeepsTruth cat fNegOne row sq) →
    p.1.eval cat fNegOne row = pexpr.eval cat fNegOne row ∧ pcf ≤ p.2
  | .leaf pexpr, p, h, _, _ | .scalarSubquery pcr fExist fQuant pexpr, p, h, _, _ => by
    cases h
    exact ⟨rfl, le_rfl⟩
  | .node id children, p, h, hregular, hkeeps => by
    obtain ⟨q, hq, rfl⟩ := Option.map_eq_some_iff.1 h
    obtain ⟨hvalues, hle⟩ := eval_simplifyEach hq hregular hkeeps
    rw [SubqueryScalar.eval, SubqueryScalar.eval, hvalues]
    exact ⟨rfl, hle⟩
  | .gCmp left right, p, h, hregular, hkeeps | .eqCmp left right, p, h, hregular, hkeeps => by
    rw [FSimplify] at h
    obtain ⟨⟨left', pcf₁⟩, hleft, h⟩ := Option.bind_eq_some_iff.1 h
    obtain ⟨⟨right', pcf₂⟩, hright, h⟩ := Option.bind_eq_some_iff.1 h
    cases h
    rw [SubqueryScalar.quantifiedSubqueries] at hregular hkeeps
    obtain ⟨hvalLeft, hle⟩ := eval_FSimplify hleft
      (fun sq hsq => hregular sq (List.mem_append_left _ hsq))
      fun hkind sq hsq => hkeeps hkind sq (List.mem_append_left _ hsq)
    obtain ⟨hvalRight, hle'⟩ := eval_FSimplify hright
      (fun sq hsq => (hregular sq (List.mem_append_right _ hsq)).mono hle)
      fun hkind sq hsq => hkeeps hkind sq (List.mem_append_right _ hsq)
    rw [SubqueryScalar.eval, SubqueryScalar.eval, hvalLeft, hvalRight]
    exact ⟨rfl, hle.trans hle'⟩
  | .existential fNot pexprInner, p, h, _, _ => by
    rw [FSimplify] at h
    split at h
    · cases h
      exact ⟨eval_ExistentialToAgg fNot pexprInner, Nat.le_succ _⟩
    · cases h
      exact ⟨rfl, le_rfl⟩
  | .quantified sq, p, h, hregular, hkeeps => by
    rw [FSimplify] at h
    split at h
    · next hkind =>
      have hsq : sq ∈ (SubqueryScalar.quantified sq).quantifiedSubqueries := by
        rw [SubqueryScalar.quantifiedSubqueries]
        exact List.mem_singleton_self sq
      obtain ⟨hform, hstrict, hinverse⟩ := hregular sq hsq
      exact ⟨(eval_QuantifiedToAgg_iff hform hstrict hinverse h).2 (hkeeps hkind sq hsq),
        le_of_QuantifiedToAgg h⟩
    · cases h
      exact ⟨rfl, le_rfl⟩

theorem eval_simplifyEach {pcf : ℕ} : ∀ {children : List (SubqueryScalar D)}
    {p : List (SubqueryScalar D) × ℕ}, simplifyEach cat kind pcf children = some p →
    (∀ sq ∈ SubqueryScalar.quantifiedEach children, RegularSubquery cat pcf sq) →
    (kind = .quantified →
      ∀ sq ∈ SubqueryScalar.quantifiedEach children, KeepsTruth cat fNegOne row sq) →
    SubqueryScalar.evalEach cat fNegOne row p.1 = SubqueryScalar.evalEach cat fNegOne row children ∧
      pcf ≤ p.2
  | [], p, h, _, _ => by
    cases h
    exact ⟨rfl, le_rfl⟩
  | child :: children, p, h, hregular, hkeeps => by
    rw [simplifyEach] at h
    obtain ⟨⟨child', pcf₁⟩, hchild, h⟩ := Option.bind_eq_some_iff.1 h
    obtain ⟨⟨children', pcf₂⟩, hchildren, h⟩ := Option.bind_eq_some_iff.1 h
    cases h
    rw [SubqueryScalar.quantifiedEach] at hregular hkeeps
    obtain ⟨hval, hle⟩ := eval_FSimplify hchild
      (fun sq hsq => hregular sq (List.mem_append_left _ hsq))
      fun hkind sq hsq => hkeeps hkind sq (List.mem_append_left _ hsq)
    obtain ⟨hvals, hle'⟩ := eval_simplifyEach hchildren
      (fun sq hsq => (hregular sq (List.mem_append_right _ hsq)).mono hle)
      fun hkind sq hsq => hkeeps hkind sq (List.mem_append_right _ hsq)
    rw [SubqueryScalar.evalEach, SubqueryScalar.evalEach, hval, hvals]
    exact ⟨rfl, hle.trans hle'⟩

end

/-- **Subqueries keep their value wherever they occur** when every quantified one that is replaced
    does, and a quantified subquery does exactly then. -/
theorem FSimplify_value_iff (cat : Catalog D) (fNegOne : Bool) (row : Row (SqlValue D))
    {pexpr : SubqueryScalar D} {p : SubqueryScalar D × ℕ}
    (hsimplify : FSimplify cat kind pcf pexpr = some p)
    (hregular : ∀ sq ∈ pexpr.quantifiedSubqueries, RegularSubquery cat pcf sq) :
    ((kind = .quantified → ∀ sq ∈ pexpr.quantifiedSubqueries, KeepsTruth cat fNegOne row sq) →
      p.1.eval cat fNegOne row = pexpr.eval cat fNegOne row) ∧
    ∀ sq, kind = .quantified → pexpr = .quantified sq →
      (p.1.eval cat fNegOne row = pexpr.eval cat fNegOne row ↔ KeepsTruth cat fNegOne row sq) := by
  refine ⟨fun hkeeps => (eval_FSimplify hsimplify hregular hkeeps).1, ?_⟩
  rintro sq rfl rfl
  obtain ⟨hform, hstrict, hinverse⟩ := hregular sq (by
    rw [SubqueryScalar.quantifiedSubqueries]
    exact List.mem_singleton_self sq)
  rw [FSimplify, if_pos rfl] at hsimplify
  exact eval_QuantifiedToAgg_iff hform hstrict hinverse hsimplify

end

/-- `a = ANY (select b from S)`, with `b` not null. -/
theorem regularSubquery_subqueryS {vals : List (Datum (SqlValue ℤ))} (hnn : ⊥ ∉ vals)
    (fAll : Bool) :
    RegularSubquery CSubqueryHandler.int4Catalog 2 (CSubqueryHandler.subqueryS fAll vals hnn) := by
  refine ⟨⟨?_, ?_, ?_, ?_⟩, ?_, CSubqueryHandler.int4Catalog_lawful.inverse _⟩
  · simp [CSubqueryHandler.subqueryS, CSubqueryHandler.leafS]
  · simp [CSubqueryHandler.subqueryS, CSubqueryHandler.leafS, ApplyScalar.usedColumns,
      CSubqueryHandler.colA, CSubqueryHandler.colB]
  · simp [CSubqueryHandler.subqueryS, CSubqueryHandler.leafS, CSubqueryHandler.colB]
  · simp [CSubqueryHandler.subqueryS, ApplyScalar.usedColumns, CSubqueryHandler.colA]
  · intro a b hbot
    exact (CSubqueryHandler.int4Catalog_lawful.veryStrict 96 (by decide) a b).2 hbot

theorem FSimplify_value_iff_any :
    let pexpr : SubqueryScalar ℤ :=
      .quantified (CSubqueryHandler.subqueryS false [(.data 5 : SqlValue ℤ)] (by simp))
    ∃ p, CXformSimplifySubquery.FSimplify CSubqueryHandler.int4Catalog .quantified 2 pexpr =
      some p ∧
    ((SubqueryKind.quantified = .quantified → ∀ sq ∈ pexpr.quantifiedSubqueries,
        KeepsTruth CSubqueryHandler.int4Catalog true (fun _ => (.data 5 : SqlValue ℤ)) sq) →
      p.1.eval CSubqueryHandler.int4Catalog true (fun _ => (.data 5 : SqlValue ℤ)) =
        pexpr.eval CSubqueryHandler.int4Catalog true (fun _ => (.data 5 : SqlValue ℤ))) ∧
    ∀ sq, SubqueryKind.quantified = .quantified → pexpr = .quantified sq →
      (p.1.eval CSubqueryHandler.int4Catalog true (fun _ => (.data 5 : SqlValue ℤ)) =
          pexpr.eval CSubqueryHandler.int4Catalog true (fun _ => (.data 5 : SqlValue ℤ)) ↔
        KeepsTruth CSubqueryHandler.int4Catalog true (fun _ => (.data 5 : SqlValue ℤ)) sq) := by
  intro pexpr
  refine ⟨_, rfl, FSimplify_value_iff CSubqueryHandler.int4Catalog true
    (fun _ => (.data 5 : SqlValue ℤ)) rfl fun sq hsq => ?_⟩
  rw [SubqueryScalar.quantifiedSubqueries] at hsq
  rw [List.mem_singleton.1 hsq]
  exact regularSubquery_subqueryS _ false

/-- `NULL = ANY (select b from S)` is unknown when `S` has a row; its count is zero, and the new
    scalar false. -/
theorem FSimplify_null_outer :
    let pexpr : SubqueryScalar ℤ :=
      .quantified (CSubqueryHandler.subqueryS false [(.data 5 : SqlValue ℤ)] (by simp))
    (∀ sq ∈ pexpr.quantifiedSubqueries, RegularSubquery CSubqueryHandler.int4Catalog 2 sq) ∧
    ∃ p, CXformSimplifySubquery.FSimplify CSubqueryHandler.int4Catalog .quantified 2 pexpr =
      some p ∧
    p.1.eval CSubqueryHandler.int4Catalog true (fun _ => ⊥) = (.bool false : SqlValue ℤ) ∧
    pexpr.eval CSubqueryHandler.int4Catalog true (fun _ => ⊥) = ⊥ := by
  intro pexpr
  refine ⟨fun sq hsq => ?_, _, rfl, ?_, ?_⟩
  · rw [SubqueryScalar.quantifiedSubqueries] at hsq
    rw [List.mem_singleton.1 hsq]
    exact regularSubquery_subqueryS _ false
  · decide +kernel
  · decide +kernel

end BossOptimizer

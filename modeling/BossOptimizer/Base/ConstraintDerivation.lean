import BossOptimizer.Base.Constraint

/-!
# Deriving a constraint from a predicate: `PcnstrFromScalarExpr` (CConstraint.cpp:189)

A predicate over one column becomes an interval or, for an array comparison without one, a
conjunction or disjunction of intervals. Over several columns a comparison of two columns becomes
"both are not NULL", AND and OR combine the constraints of their children, and NOT negates the
constraint of its child. The second result is the array of column equivalence classes, `none`
where the source leaves its output pointer NULL.

`EopttraceArrayConstraints` and the hint `UlArrayExpansionThreshold` are parameters. The
predicate list of an n-ary join, for which the first predicate stands, is not part of the predicates
modelled.
-/

namespace BossOptimizer

/-- `CColRefSetArray`. -/
abbrev ColRefSets := List (List CColRef)

/-! ## Equivalence classes -/

/-- The loop of `CUtils::AddEquivClassToArray` (CUtils.cpp:2441): a class that meets the new one is
    absorbed by it. -/
def addEquivClassLoop (pcrsCopy : List CColRef) : ColRefSets → ColRefSets → ColRefSets
  | [], pdrgpcrsNew => pdrgpcrsNew ++ [pcrsCopy]
  | pcrs :: pdrgpcrs, pdrgpcrsNew =>
    if pcrsCopy.all (· ∉ pcrs) then addEquivClassLoop pcrsCopy pdrgpcrs (pdrgpcrsNew ++ [pcrs])
    else addEquivClassLoop (pcrsCopy ++ pcrs) pdrgpcrs pdrgpcrsNew

/-- `CUtils::AddEquivClassToArray` (CUtils.cpp:2441). -/
def addEquivClassToArray (pcrsNew : List CColRef) (pdrgpcrs : ColRefSets) : ColRefSets :=
  addEquivClassLoop pcrsNew pdrgpcrs []

/-- `CUtils::PdrgpcrsMergeEquivClasses` (CUtils.cpp:2469). -/
def pdrgpcrsMergeEquivClasses (pdrgpcrsFst pdrgpcrsSnd : ColRefSets) : ColRefSets :=
  pdrgpcrsSnd.foldl (fun pdrgpcrsMerged pcrs => addEquivClassToArray pcrs pdrgpcrsMerged)
    pdrgpcrsFst

/-- The probe loop of `PdrgpcrsIntersectEquivClasses` (CUtils.cpp:2536) over the columns of one
    class: the map holds the first class of every column, `phmcscrDone` the columns put out. -/
def intersectProbe (pdrgpcrsFst : ColRefSets) (pcrsSnd : List CColRef) :
    List CColRef → ColRefSets × List CColRef → ColRefSets × List CColRef
  | [], state => state
  | colref :: rest, (pdrgpcrs, phmcscrDone) =>
    match pdrgpcrsFst.find? (colref ∈ ·) with
    | some pcrs =>
      if colref ∈ phmcscrDone then intersectProbe pdrgpcrsFst pcrsSnd rest (pdrgpcrs, phmcscrDone)
      else
        let pcrsNew := pcrsSnd.filter (· ∈ pcrs)
        intersectProbe pdrgpcrsFst pcrsSnd rest (pdrgpcrs ++ [pcrsNew], phmcscrDone ++ pcrsNew)
    | none => intersectProbe pdrgpcrsFst pcrsSnd rest (pdrgpcrs, phmcscrDone)

/-- `CUtils::PdrgpcrsIntersectEquivClasses` (CUtils.cpp:2492). -/
def pdrgpcrsIntersectEquivClasses (pdrgpcrsFst pdrgpcrsSnd : ColRefSets) : ColRefSets :=
  if pdrgpcrsSnd.isEmpty || pdrgpcrsFst.isEmpty then []
  else
    (pdrgpcrsSnd.foldl (fun state pcrsSnd =>
      intersectProbe pdrgpcrsFst pcrsSnd (pcrsSnd.insertionSort (·.id ≤ ·.id)) state) ([], [])).1

/-- `CConstraint::PdrgpcrsMergeFromBoolOp` (CConstraint.cpp:569). -/
def pdrgpcrsMergeFromBoolOp (op : EBoolOperator) (pdrgpcrsFst pdrgpcrsSnd : ColRefSets) :
    ColRefSets :=
  match op with
  | .and => pdrgpcrsMergeEquivClasses pdrgpcrsFst pdrgpcrsSnd
  | .or => pdrgpcrsIntersectEquivClasses pdrgpcrsFst pdrgpcrsSnd
  | .not => []

namespace CConstraint

variable {D : Type} [LinearOrder D] (fArrayConstraints : Bool) (arrayExpansionThreshold : ℕ)

/-! ## Leaves -/

/-- The constraint and the equivalence classes. -/
abbrev Derived (D : Type) := Option (CConstraint D) × Option ColRefSets

/-- `CConstraint::PcnstrFromScalarArrayCmp` (CConstraint.cpp:74): one interval for each element. -/
def pcnstrFromScalarArrayCmp (colref : CColRef) (arr : EArrCmpType) (cmpType : ECmpType)
    (left : ScalarOperand D) (coerced : Bool) (array : List (ScalarOperand D))
    (inferNullsAs : Bool) : Except Fault (Option (CConstraint D)) :=
  match CConstraintInterval.compareIdentToConstArray left coerced array with
  | none => .ok none
  | some datums =>
    if cmpType = .other then .ok none
    else if arrayExpansionThreshold < datums.length then .ok none
    else if datums.length = 0 then
      .ok (if arr = .any then some (.interval ⟨colref, [], false⟩) else none)
    else do
      let pdrgpcnstr := datums.filterMap fun datum =>
        (CConstraintInterval.pciIntervalFromColConstCmp colref cmpType datum inferNullsAs).map
          interval
      some <$> ofConjDisj fArrayConstraints (arr = .all) pdrgpcnstr

/-- An interval or, failing that, the constraint of an array comparison (CConstraint.cpp:223). -/
def pcnstrOnColumn (colref : CColRef) (pexpr : ScalarExpr D) (inferNullsAs : Bool) :
    Except Fault (Option (CConstraint D)) := do
  match ← CConstraintInterval.pciIntervalFromScalarExpr fArrayConstraints colref pexpr
    inferNullsAs with
  | some pci => return some (.interval pci)
  | none =>
    match pexpr with
    | .arrayCmp arr cmpType left coerced array =>
      pcnstrFromScalarArrayCmp fArrayConstraints arrayExpansionThreshold colref arr cmpType left
        coerced array inferNullsAs
    | _ => return none

/-- The case of one column (CConstraint.cpp:212). -/
def pcnstrFromColumn (colref : CColRef) (pexpr : ScalarExpr D) (inferNullsAs : Bool) :
    Except Fault (Derived D) :=
  if !colref.fConstrainable then .ok (none, none)
  else do
    let pcnstr ← pcnstrOnColumn fArrayConstraints arrayExpansionThreshold colref pexpr inferNullsAs
    return (pcnstr, some (if pcnstr.isSome then [[colref]] else []))

/-- Whether the interval of a column in a comparison includes NULL (CConstraint.cpp:414). -/
def pcrIncludesNull (colref : CColRef) (inferNullsAs : Bool) : Bool :=
  inferNullsAs && colref.fTable && colref.isNullable

/-- `CConstraint::PcnstrFromScalarCmp` (CConstraint.cpp:373). -/
def pcnstrFromScalarCmp (cmpType : ECmpType) (left right : ScalarOperand D)
    (inferNullsAs : Bool) : Except Fault (Derived D) :=
  match left.identOrCast, right.identOrCast with
  | some pcrLeft, some pcrRight =>
    if !pcrLeft.fConstrainable || !pcrRight.fConstrainable then .ok (none, none)
    else do
      let pcrLeftIncludesNull := pcrIncludesNull pcrLeft inferNullsAs
      let pcrRightIncludesNull := pcrIncludesNull pcrRight inferNullsAs
      let checkEquality := cmpType = .eq && !pcrLeftIncludesNull && !pcrRightIncludesNull
      let pdrgpcnstr :=
        ((CConstraintInterval.pciUnbounded pcrLeft pcrLeftIncludesNull).map interval).toList ++
        ((CConstraintInterval.pciUnbounded pcrRight pcrRightIncludesNull).map interval).toList
      return (← pcnstrConjDisj fArrayConstraints true pdrgpcnstr,
        some (if checkEquality then [[pcrLeft, pcrRight]] else []))
  | _, _ => .ok (none, none)

/-! ## The recursion -/

/-- The columns of a predicate as a set (`DeriveUsedColumns`). -/
def exprColumns (pexpr : ScalarExpr D) : List CColRef := pexpr.usedColumns.dedup

/-- The end of `PcnstrFromScalarBoolOp` (CConstraint.cpp:526), for the constraints that were kept. -/
def pcnstrOfKept (op : EBoolOperator) (pdrgpcnstr : List (CConstraint D)) :
    Except Fault (Option (CConstraint D)) :=
  match pdrgpcnstr, op with
  | [], _ => .ok none
  | [pcnstrChild], .not => .ok (some (.negation pcnstrChild))
  | [pcnstrChild], _ => .ok (some pcnstrChild)
  | _, .and => some <$> ofConjDisj fArrayConstraints true pdrgpcnstr
  | _, .or => some <$> ofConjDisj fArrayConstraints false pdrgpcnstr
  | _, .not => .ok none

mutual

/-- `CConstraint::PcnstrFromScalarExpr` (CConstraint.cpp:189). -/
def pcnstrFromScalarExpr : ScalarExpr D → Bool → Except Fault (Derived D)
  | .boolOp op children, inferNullsAs =>
    match exprColumns (.boolOp op children) with
    | [] => .ok (none, none)
    | [colref] =>
      pcnstrFromColumn fArrayConstraints arrayExpansionThreshold colref (.boolOp op children)
        inferNullsAs
    | _ =>
      -- `PcnstrFromScalarBoolOp` (CConstraint.cpp:471)
      if op = .or && arrayExpansionThreshold < children.length then .ok (none, none)
      else do
        let (kept, pdrgpcrs) ← boolOpChildren op children inferNullsAs [] []
        match kept with
        | none => return (none, some pdrgpcrs)
        | some pdrgpcnstr =>
          return (← pcnstrOfKept fArrayConstraints op pdrgpcnstr, some pdrgpcrs)
  | .cmp cmpType left right, inferNullsAs =>
    match exprColumns (.cmp cmpType left right) with
    | [] => .ok (none, none)
    | [colref] =>
      pcnstrFromColumn fArrayConstraints arrayExpansionThreshold colref (.cmp cmpType left right)
        inferNullsAs
    | _ => pcnstrFromScalarCmp fArrayConstraints cmpType left right inferNullsAs
  | pexpr, inferNullsAs =>
    match exprColumns pexpr with
    | [colref] =>
      pcnstrFromColumn fArrayConstraints arrayExpansionThreshold colref pexpr inferNullsAs
    | _ => .ok (none, none)

/-- The loop of `PcnstrFromScalarBoolOp` (CConstraint.cpp:502): children without a constraint, or
    with an unbounded one, end an OR and are dropped otherwise. -/
def boolOpChildren (op : EBoolOperator) : List (ScalarExpr D) → Bool → List (CConstraint D) →
    ColRefSets → Except Fault (Option (List (CConstraint D)) × ColRefSets)
  | [], _, pdrgpcnstr, pdrgpcrs => .ok (some pdrgpcnstr, pdrgpcrs)
  | child :: children, inferNullsAs, pdrgpcnstr, pdrgpcrs => do
    match ← pcnstrFromScalarExpr child inferNullsAs with
    | (none, _) =>
      if op = .or then return (none, pdrgpcrs)
      else boolOpChildren op children inferNullsAs pdrgpcnstr pdrgpcrs
    | (some pcnstrChild, pdrgpcrsChild) =>
      if pcnstrChild.isConstraintUnbounded then
        if op = .or then return (none, pdrgpcrs)
        else boolOpChildren op children inferNullsAs pdrgpcnstr pdrgpcrs
      else
        match pdrgpcrsChild with
        | none => .error .nullDeref
        | some pdrgpcrsChild =>
          boolOpChildren op children inferNullsAs (pdrgpcnstr ++ [pcnstrChild])
            (pdrgpcrsMergeFromBoolOp op pdrgpcrs pdrgpcrsChild)

end

end CConstraint

end BossOptimizer

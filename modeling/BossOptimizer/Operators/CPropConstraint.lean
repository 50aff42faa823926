import BossOptimizer.Base.ConstraintDerivation
import BossOptimizer.Base.ConstraintRemap
import BossOptimizer.Operators.DerivedKeys

/-!
# Derived property constraints: `DerivePropertyConstraint` of the operators

A property is an array of column equivalence classes and a constraint, `none` the NULL pointer.
Each rule takes the properties of the logical children; the recursion over the tree stands at the
end. Loops that collect classes and constraints side by side are one accumulator, `Collected`.
-/

namespace BossOptimizer

/-! ## Conjuncts -/

namespace ScalarExpr

variable {D : Type}

mutual

/-- `CPredicateUtils::CollectConjuncts`, behind `PdrgpexprConjuncts` (CPredicateUtils.cpp:334). -/
def conjuncts : ScalarExpr D → List (ScalarExpr D)
  | .boolOp .and children => conjunctsAll children
  | pexpr => [pexpr]

def conjunctsAll : List (ScalarExpr D) → List (ScalarExpr D)
  | [] => []
  | e :: es => e.conjuncts ++ conjunctsAll es

end

attribute [local simp] conjuncts conjunctsAll in
theorem conjunctsAll_eq_flatMap (es : List (ScalarExpr D)) :
    conjunctsAll es = es.flatMap conjuncts := by
  induction es with
  | nil => rfl
  | cons e es ih => simp [conjunctsAll, ih]

/-- `CPredicateUtils::FAnd`. -/
def fAnd : ScalarExpr D → Bool
  | .boolOp .and _ => true
  | _ => false

/-- `CUtils::FPredicate` (CUtils.cpp:2958). -/
def fPredicate : ScalarExpr D → Bool
  | .const _ => false
  | .other _ _ => false
  | _ => true

end ScalarExpr

/-- `CPropConstraint`. -/
structure CPropConstraint (D : Type) where
  pdrgpcrs : ColRefSets
  pcnstr : Option (CConstraint D)

/-- `CColRefSet::Replace` (CColRefSet.cpp:262): one column after the other. -/
def replaceColumns : List (CColRef × CColRef) → List CColRef → List CColRef
  | [], pcrs => pcrs
  | (pcrOut, pcrIn) :: rest, pcrs =>
    replaceColumns rest
      (if pcrOut ∈ pcrs then pcrs.filter (· ≠ pcrOut) ++ [pcrIn] else pcrs)

namespace CPropConstraint

variable {D : Type} [LinearOrder D] (fArrayConstraints : Bool) (arrayExpansionThreshold : ℕ)

/-- `CPropConstraint::FContradiction` (CPropConstraint.cpp:99). -/
def fContradiction (this : CPropConstraint D) : Bool := this.pcnstr.any (·.fContradiction)

/-- Classes and constraints collected so far. -/
abbrev Collected (D : Type) := ColRefSets × List (CConstraint D)

/-- The property of a relational child is added. -/
def addChild (acc : Collected D) (ppc : CPropConstraint D) : Collected D :=
  (pdrgpcrsMergeEquivClasses acc.1 ppc.pdrgpcrs, acc.2 ++ ppc.pcnstr.toList)

/-- The constraint of a predicate is added, if there is one. -/
def addPredicate (inferNullsAs : Bool) (acc : Collected D) (pexpr : ScalarExpr D) :
    Except Fault (Collected D) := do
  match ← CConstraint.pcnstrFromScalarExpr fArrayConstraints arrayExpansionThreshold pexpr
    inferNullsAs with
  | (none, _) => return acc
  | (some pcnstr, some pdrgpcrs) =>
    return (pdrgpcrsMergeEquivClasses acc.1 pdrgpcrs, acc.2 ++ [pcnstr])
  | (some _, none) => .error .nullDeref

/-- The property of what was collected. -/
def ofCollected (acc : Collected D) : Except Fault (CPropConstraint D) := do
  return ⟨acc.1, ← CConstraint.pcnstrConjDisj fArrayConstraints true acc.2⟩

/-- `CLogical::PpcDeriveConstraintFromPredicates` (CLogical.cpp:596). -/
def fromPredicates (children : List (CPropConstraint D)) (pexprScalar : ScalarExpr D) :
    Except Fault (CPropConstraint D) := do
  let acc := children.foldl addChild ([], [])
  if pexprScalar.fPredicate then
    ofCollected fArrayConstraints
      (← addPredicate fArrayConstraints arrayExpansionThreshold false acc pexprScalar)
  else ofCollected fArrayConstraints acc

/-- One column of `PpcDeriveConstraintFromTable` (CLogical.cpp:694). -/
def addTableColumn (pdrgpcrUnused : List CColRef) (acc : Collected D)
    (col : CColRef × CColumnDescriptor) : Collected D :=
  if col.2.isSystemColumn || col.2.isNullable || decide (col.1 ∈ pdrgpcrUnused) then acc
  else
    match CConstraintInterval.pciUnbounded col.1 false with
    | none => acc
    | some pci => (acc.1 ++ [[col.1]], acc.2 ++ [.interval pci])

/-- `CLogical::PpcDeriveConstraintFromTable` (CLogical.cpp:680). -/
def fromTable (ptabdesc : CTableDescriptor D) (pdrgpcrOutput pdrgpcrUnused : List CColRef) :
    Except Fault (CPropConstraint D) := do
  let acc := (pdrgpcrOutput.zip ptabdesc.pdrgpcoldesc).foldl (addTableColumn pdrgpcrUnused) ([], [])
  ofCollected fArrayConstraints (← (ptabdesc.checkConstraints.map
    fun check => check (LogicalExpr.nonSystemColumns ptabdesc pdrgpcrOutput)).foldlM
      (addPredicate fArrayConstraints arrayExpansionThreshold true) acc)

/-- A column set iterated in the order of the ids (`CColRefSetIter`). -/
def colRefSetIter (cols : List CColRef) : List CColRef :=
  cols.dedup.insertionSort (·.id ≤ ·.id)

/-- The columns of a class that belong to a set; empty classes are dropped. -/
def intersectClasses (pdrgpcrs : ColRefSets) (pcrs : List CColRef) : ColRefSets :=
  pdrgpcrs.filterMap fun cls =>
    let clsNew := cls.filter (· ∈ pcrs)
    if clsNew = [] then none else some clsNew

/-- The loop of `PpcDeriveConstraintRestrict` over the columns (CLogical.cpp:884). -/
def constraintsOn (pcnstrChild : CConstraint D) : List CColRef → Except Fault (List (CConstraint D))
  | [] => .ok []
  | colref :: rest => do
    match ← pcnstrChild.pcnstr fArrayConstraints colref with
    | none => constraintsOn pcnstrChild rest
    | some pcnstrCol =>
      if pcnstrCol.isConstraintUnbounded then constraintsOn pcnstrChild rest
      else return pcnstrCol :: (← constraintsOn pcnstrChild rest)

/-- `CLogical::PpcDeriveConstraintRestrict` (CLogical.cpp:845). -/
def restrict (ppc : CPropConstraint D) (pcrsOutput : List CColRef) :
    Except Fault (CPropConstraint D) :=
  let pdrgpcrsNew := intersectClasses ppc.pdrgpcrs pcrsOutput
  match ppc.pcnstr with
  | none => .ok ⟨pdrgpcrsNew, none⟩
  | some pcnstrChild => do
    ofCollected fArrayConstraints
      (pdrgpcrsNew, ← constraintsOn fArrayConstraints pcnstrChild (colRefSetIter pcrsOutput))

/-! ## Projections -/

/-- One element of the loop of `CLogicalProject::DerivePropertyConstraint`
    (CLogicalProject.cpp:235): `ExtractConstraintFromScConst` for a constant,
    `PdrgpcrsEquivClassFromScIdent` for a column. -/
def addProjectElement (notNullColumns : List CColRef) (acc : Collected D)
    (el : CScalarProjectElement D) : Collected D :=
  match el.scalar with
  | .operand (.const datum) =>
    if !el.pcr.fConstrainable then acc
    else
      let pdrgprng := if datum = ⊥ then [] else [CRange.ofCmp .eq datum]
      (acc.1 ++ [[el.pcr]], acc.2 ++ [.interval ⟨el.pcr, pdrgprng, decide (datum = ⊥)⟩])
  | .operand (.ident pcrScIdent) =>
    if el.pcr.fConstrainable && pcrScIdent.fTable && decide (pcrScIdent ∈ notNullColumns) then
      (pdrgpcrsMergeEquivClasses acc.1 [[el.pcr, pcrScIdent]], acc.2)
    else acc
  | _ => acc

/-- `CLogicalProject::DerivePropertyConstraint` (CLogicalProject.cpp:217). -/
def fromProject (ppcChild : CPropConstraint D) (notNullColumns : List CColRef)
    (pexprPrL : List (CScalarProjectElement D)) : Except Fault (CPropConstraint D) :=
  let acc := pexprPrL.foldl (addProjectElement notNullColumns) ([], [])
  if acc.1.isEmpty && acc.2.isEmpty then .ok ppcChild
  else ofCollected fArrayConstraints (addChild acc ppcChild)

/-! ## Set operations -/

/-- `CLogicalSetOp::PcnstrColumn` (CLogicalSetOp.cpp:393). -/
def pcnstrColumn (ppc : CPropConstraint D) (pcrInput pcrOutput : CColRef) :
    Except Fault (Option (CConstraint D)) :=
  match ppc.pcnstr with
  | none => .ok none
  | some pcnstrChild => do
    match ← pcnstrChild.pcnstr fArrayConstraints pcrInput with
    | none => return none
    | some pcnstrCol => pcnstrCol.pcnstrRemapForColumn fArrayConstraints pcrOutput

/-- `CLogicalSetOp::PdrgpcnstrColumn` (CLogicalSetOp.cpp:357), from the first child on. -/
def pdrgpcnstrColumn (ulColIndex : ℕ) (colref : CColRef) :
    List (CPropConstraint D × List CColRef) → Except Fault (List (CConstraint D))
  | [] => .ok []
  | (ppc, pdrgpcrInput) :: rest => do
    let pcnstr ← match ← pcnstrColumn fArrayConstraints ppc (pdrgpcrInput.getD ulColIndex colref)
        colref with
      | none => CConstraint.pciUnboundedDeref colref
      | some pcnstr => .ok pcnstr
    return pcnstr :: (← pdrgpcnstrColumn ulColIndex colref rest)

/-- The loop of `PpcDeriveConstraintIntersectUnion` over the output columns
    (CLogicalSetOp.cpp:436). Columns of other types have no constraints. -/
def columnConstraints (fIntersect : Bool) (children : List (CPropConstraint D × List CColRef)) :
    List (CColRef × ℕ) → Except Fault (List (CConstraint D))
  | [] => .ok []
  | (colref, ulColIndex) :: rest => do
    let pdrgpcnstrCol ← if colref.fConstrainable then
        pdrgpcnstrColumn fArrayConstraints ulColIndex colref children
      else .ok []
    let pcnstrCol ← CConstraint.pcnstrConjDisj fArrayConstraints fIntersect pdrgpcnstrCol
    return pcnstrCol.toList ++ (← columnConstraints fIntersect children rest)

/-- `CLogicalSetOp::PdrgpcrsInputMapped` (CLogicalSetOp.cpp:315). -/
def pdrgpcrsInputMapped (pdrgpcrOutput : List CColRef)
    (child : CPropConstraint D × List CColRef) : ColRefSets :=
  (intersectClasses child.1.pdrgpcrs child.2).map (replaceColumns (child.2.zip pdrgpcrOutput))

/-- `CLogicalSetOp::PdrgpcrsOutputEquivClasses` (CLogicalSetOp.cpp:273). -/
def pdrgpcrsOutputEquivClasses (fIntersect : Bool) (pdrgpcrOutput : List CColRef) :
    List (CPropConstraint D × List CColRef) → ColRefSets
  | [] => []
  | first :: rest =>
    rest.foldl (fun pdrgpcrs child =>
      if fIntersect then
        pdrgpcrsMergeEquivClasses pdrgpcrs (pdrgpcrsInputMapped pdrgpcrOutput child)
      else pdrgpcrsIntersectEquivClasses pdrgpcrs (pdrgpcrsInputMapped pdrgpcrOutput child))
      (pdrgpcrsInputMapped pdrgpcrOutput first)

/-- `CLogicalSetOp::PpcDeriveConstraintIntersectUnion` (CLogicalSetOp.cpp:429). -/
def intersectUnion (fIntersect : Bool) (pdrgpcrOutput : List CColRef)
    (children : List (CPropConstraint D × List CColRef)) : Except Fault (CPropConstraint D) := do
  let pdrgpcnstr ← columnConstraints fArrayConstraints fIntersect children pdrgpcrOutput.zipIdx
  ofCollected fArrayConstraints
    (pdrgpcrsOutputEquivClasses fIntersect pdrgpcrOutput children, pdrgpcnstr)

/-- The set operations: differences pass the property of their first child through. -/
def fromSetOp (op : ESetOp) (pdrgpcrOutput : List CColRef)
    (pdrgpdrgpcrInput : List (List CColRef)) (children : List (CPropConstraint D)) :
    Except Fault (CPropConstraint D) :=
  match op with
  | .union | .unionAll =>
    intersectUnion fArrayConstraints false pdrgpcrOutput (children.zip pdrgpdrgpcrInput)
  | .intersect | .intersectAll =>
    intersectUnion fArrayConstraints true pdrgpcrOutput (children.zip pdrgpdrgpcrInput)
  | .difference | .differenceAll =>
    match children with
    | [] => .error .nullDeref
    | ppc :: _ => .ok ppc

/-! ## n-ary joins -/

/-- `CLogicalNAryJoin::GetTrueInnerJoinPreds` (CLogicalNAryJoin.cpp:245) with outer join children,
    whose output columns are given: the conjuncts that use none of them. -/
def getTrueInnerJoinPreds (nijOutputCols : List (List CColRef)) (innerJoinPreds : ScalarExpr D) :
    ScalarExpr D :=
  match innerJoinPreds.conjuncts.filter fun pred =>
    nijOutputCols.all fun cols => pred.usedColumns.all (· ∉ cols) with
  | [] => .const (some true)
  | trueInnerJoinPreds => pexprConjDisj innerJoinPreds.fAnd trueInnerJoinPreds

/-- The inner join children among the children of an n-ary join, or the others. -/
def childrenOf {α : Type} (fInner : Bool) (idx : Option (List ℕ)) : ℕ → List α → List α
  | _, [] => []
  | j, x :: xs =>
    if LogicalExpr.isInnerJoinChild idx j = fInner then x :: childrenOf fInner idx (j + 1) xs
    else childrenOf fInner idx (j + 1) xs

/-- `CLogicalNAryJoin::DerivePropertyConstraint` (CLogicalNAryJoin.cpp:134). -/
def fromNAryJoin (idx : Option (List ℕ)) (outputCols : List (List CColRef))
    (innerJoinPreds : ScalarExpr D) (children : List (CPropConstraint D)) :
    Except Fault (CPropConstraint D) :=
  match idx with
  | none => fromPredicates fArrayConstraints arrayExpansionThreshold children innerJoinPreds
  | some _ => do
    let acc := (childrenOf true idx 0 children).foldl addChild ([], [])
    ofCollected fArrayConstraints (← addPredicate fArrayConstraints arrayExpansionThreshold false acc
      (getTrueInnerJoinPreds (childrenOf false idx 0 outputCols) innerJoinPreds))

end CPropConstraint

/-! ## The recursion -/

namespace LogicalExpr

variable {D : Type} [LinearOrder D] (fArrayConstraints : Bool) (arrayExpansionThreshold : ℕ)

open CPropConstraint

mutual

/-- `DerivePropertyConstraint`. -/
def derivePropertyConstraint : LogicalExpr D → Except Fault (CPropConstraint D)
  | .get ptabdesc out unused =>
    fromTable fArrayConstraints arrayExpansionThreshold ptabdesc out unused
  | .constTableGet _ _ => .ok ⟨[], none⟩
  | .select child pexprScalar => do
    fromPredicates fArrayConstraints arrayExpansionThreshold [← child.derivePropertyConstraint]
      pexprScalar
  | .project child pexprPrL => do
    fromProject fArrayConstraints (← child.derivePropertyConstraint) child.deriveNotNullColumns
      pexprPrL
  | .gbAgg pdrgpcr child _ => do
    restrict fArrayConstraints (← child.derivePropertyConstraint) pdrgpcr
  | .limit _ child _ _ => child.derivePropertyConstraint
  | .setOp op out input children => do
    fromSetOp fArrayConstraints op out input (← derivePropertyConstraintAll children)
  | .join .inner left right pexprScalar => do
    fromPredicates fArrayConstraints arrayExpansionThreshold
      [← left.derivePropertyConstraint, ← right.derivePropertyConstraint] pexprScalar
  | .join .leftOuter left _ _ => left.derivePropertyConstraint
  | .join .fullOuter _ _ _ => .ok ⟨[], none⟩
  | .naryJoin children idx innerJoinPreds _ => do
    fromNAryJoin fArrayConstraints arrayExpansionThreshold idx (children.map deriveOutputColumns)
      innerJoinPreds (← derivePropertyConstraintAll children)

def derivePropertyConstraintAll :
    List (LogicalExpr D) → Except Fault (List (CPropConstraint D))
  | [] => .ok []
  | e :: es => do
    return (← e.derivePropertyConstraint) :: (← derivePropertyConstraintAll es)

end

end LogicalExpr

end BossOptimizer

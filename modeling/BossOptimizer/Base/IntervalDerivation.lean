import BossOptimizer.Base.ScalarExpr
import Mathlib.Data.List.Sort

/-!
# Deriving an interval from a predicate: `PciIntervalFromScalarExpr` (CConstraintInterval.cpp:138)

The recursion over the predicate that turns comparisons, null tests, array comparisons and
Boolean operators into one interval on one column. A NULL result means "no interval"; AND drops
children without one, OR gives up, NOT complements the interval of its child in the other null
mode. `EopttraceArrayConstraints` is the parameter `fArrayConstraints`.
-/

namespace BossOptimizer

namespace CConstraintInterval

variable {D : Type} [LinearOrder D]

/-- `CConstraintInterval::PciRangeFromColConstCmp` (CConstraintInterval.cpp:1478). -/
def pciRangeFromColConstCmp (cmpType : ECmpType) (datum : Datum D) :
    Option (List (CRange (Datum D))) :=
  match cmpType with
  | .other => none
  | .neq | .idf => some [CRange.ofCmp .l datum, CRange.ofCmp .g datum]
  | _ => some [CRange.ofCmp cmpType datum]

/-- `CConstraintInterval::PciIntervalFromColConstCmp` (CConstraintInterval.cpp:392). -/
def pciIntervalFromColConstCmp (colref : CColRef) (cmpType : ECmpType) (datum : Datum D)
    (inferNullsAs : Bool) : Option (CConstraintInterval (Datum D)) :=
  (pciRangeFromColConstCmp cmpType datum).map fun pdrngprng => ⟨colref, pdrngprng, inferNullsAs⟩

/-- The de-duplication loop of `CDatumSortedSet` (CDatumSortedSet.cpp:44). -/
def dedupSorted (pdatumPrev : Datum D) : List (Datum D) → List (Datum D)
  | [] => []
  | datum :: rest =>
    if datum ≠ pdatumPrev then datum :: dedupSorted datum rest else dedupSorted pdatumPrev rest

/-- `CDatumSortedSet` (CDatumSortedSet.cpp:14): NULLs are set aside, and the first of the sorted
    datums is read without asking whether there is one. -/
def datumSortedSet (datums : List (Datum D)) : Except Fault (List (Datum D)) :=
  match (datums.filter (· ≠ ⊥)).insertionSort (· ≤ ·) with
  | [] => .error .outOfBounds
  | pdatumPrev :: rest => .ok (pdatumPrev :: dedupSorted pdatumPrev rest)

/-- The NOT IN ranges (CConstraintInterval.cpp:266): `(-inf, X) (X, Y) (Y, Z) (Z, inf)`. -/
def notInRanges (pprevdatum : Option (Datum D)) : List (Datum D) → List (CRange (Datum D))
  | [] => [⟨pprevdatum, .excluded, none, .excluded⟩]
  | datum :: rest =>
    ⟨pprevdatum, .excluded, some datum, .excluded⟩ :: notInRanges (some datum) rest

/-- `FCompareIdentToConstArray` or `FCompareCastIdentToConstArray` (CPredicateUtils.cpp:1230,
    1268), with the datums: an array under a coercion is looked into only below a cast. -/
def compareIdentToConstArray (left : ScalarOperand D) (coerced : Bool)
    (array : List (ScalarOperand D)) : Option (List (Datum D)) :=
  match left with
  | .ident _ => if coerced then none else fScalarConstArray array
  | .cast (.ident _) => fScalarConstArray array
  | _ => none

/-- `CConstraintInterval::PcnstrIntervalFromScalarArrayCmp` (CConstraintInterval.cpp:209). It
    does not ask whether the comparison is ANY or ALL. -/
def pcnstrIntervalFromScalarArrayCmp (colref : CColRef) (cmpType : ECmpType)
    (left : ScalarOperand D) (coerced : Bool) (array : List (ScalarOperand D))
    (inferNullsAs : Bool) : Except Fault (Option (CConstraintInterval (Datum D))) :=
  match compareIdentToConstArray left coerced array with
  | none => .ok none
  | some [] => .ok none
  | some datums => do
    let apdatumsortedset ← datumSortedSet datums
    match cmpType with
    | .eq => return some ⟨colref, apdatumsortedset.map (CRange.ofCmp .eq), inferNullsAs⟩
    | .neq => return some ⟨colref, notInRanges none apdatumsortedset, inferNullsAs⟩
    | _ => return none

/-- `CConstraintInterval::PciIntervalFromScalarNullTest` (CConstraintInterval.cpp:359). -/
def pciIntervalFromScalarNullTest (colref : CColRef) (child : ScalarOperand D) :
    Option (CConstraintInterval (Datum D)) :=
  match child with
  | .ident _ => some ⟨colref, [], true⟩
  | _ => none

/-- `CConstraintInterval::PciIntervalFromScalarCmp` (CConstraintInterval.cpp:424). -/
def pciIntervalFromScalarCmp (colref : CColRef) (cmpType : ECmpType)
    (left right : ScalarOperand D) (inferNullsAs : Bool) :
    Option (CConstraintInterval (Datum D)) :=
  match left.identOrCast, right.constOrCast with
  | some _, some datum => pciIntervalFromColConstCmp colref cmpType datum inferNullsAs
  | _, _ => none

/-- `CConstraintInterval::PciIntervalFromScalarIDF` (CConstraintInterval.cpp:480). -/
def pciIntervalFromScalarIDF (colref : CColRef) (left right : ScalarOperand D) :
    Except Fault (Option (CConstraintInterval (Datum D))) :=
  match left, right with
  | .ident _, .const datum =>
    if datum = ⊥ then do return some (← (⟨colref, [], true⟩ : CConstraintInterval _).pciComplement)
    else return (pciRangeFromColConstCmp .idf datum).map fun pdrgprng => ⟨colref, pdrgprng, true⟩
  | _, _ => .ok none

/-- `PciIntervalFromScalarExpr` on a Boolean constant (CConstraintInterval.cpp:166). -/
def pciIntervalFromScalarConst (colref : CColRef) (value : Option Bool) :
    Option (CConstraintInterval (Datum D)) :=
  if value = some true then pciUnbounded colref true else some ⟨colref, [], false⟩

/-- One round of the pairwise unions of `PciIntervalFromScalarBoolOr`
    (CConstraintInterval.cpp:623). -/
def unionRound : (l : List (CConstraintInterval (Datum D))) →
    Except Fault {r : List (CConstraintInterval (Datum D)) // r.length = (l.length + 1) / 2}
  | [] => .ok ⟨[], by simp⟩
  | [pci] => .ok ⟨[pci], by simp⟩
  | pci1 :: pci2 :: rest => do
    let pciOr ← pci1.pciUnion pci2
    let ⟨constraints, h⟩ ← unionRound rest
    return ⟨pciOr :: constraints, by simp only [List.length_cons, h]; omega⟩

/-- The rounds, until one interval is left (CConstraintInterval.cpp:615). -/
def unionRounds (l : List (CConstraintInterval (Datum D))) :
    Except Fault (CConstraintInterval (Datum D)) :=
  match l with
  | [] => .error .outOfBounds
  | [pci] => .ok pci
  | pci1 :: pci2 :: rest => do
    let ⟨constraints, _⟩ ← unionRound (pci1 :: pci2 :: rest)
    unionRounds constraints
termination_by l.length
decreasing_by simp only [List.length_cons] at *; omega

/-- One round of `PciIntervalFromScalarBoolAnd` (CConstraintInterval.cpp:688): a child without an
    interval is passed over. -/
def boolAndRound (pci pciChild : Option (CConstraintInterval (Datum D))) :
    Except Fault (Option (CConstraintInterval (Datum D))) :=
  match pciChild, pci with
  | some pciChild, some pci => some <$> pci.pciIntersect pciChild
  | some pciChild, none => .ok (some pciChild)
  | none, pci => .ok pci

mutual

/-- `CConstraintInterval::PciIntervalFromScalarExpr` (CConstraintInterval.cpp:138). -/
def pciIntervalFromScalarExpr (fArrayConstraints : Bool) (colref : CColRef) :
    ScalarExpr D → Bool → Except Fault (Option (CConstraintInterval (Datum D)))
  | .nullTest child, _ => .ok (pciIntervalFromScalarNullTest colref child)
  | .boolOp op children, inferNullsAs =>
    match op with
    | .and =>
      if children.isEmpty then .error .outOfBounds
      else pciIntervalFromScalarBoolAnd fArrayConstraints colref children inferNullsAs none
    | .or => do
      match ← boolOrChildren fArrayConstraints colref children inferNullsAs with
      | none => return none
      | some childConstraints => return some (← unionRounds childConstraints)
    | .not => pciIntervalFromScalarBoolNot fArrayConstraints colref children inferNullsAs
  | .cmp cmpType left right, inferNullsAs =>
    .ok (pciIntervalFromScalarCmp colref cmpType left right inferNullsAs)
  | .isDistinctFrom left right, _ => pciIntervalFromScalarIDF colref left right
  | .const value, _ => .ok (pciIntervalFromScalarConst colref value)
  | .arrayCmp _ cmpType left coerced array, inferNullsAs =>
    if fArrayConstraints then
      pcnstrIntervalFromScalarArrayCmp colref cmpType left coerced array inferNullsAs
    else .ok none
  | .other _ _, _ => .ok none

/-- `CConstraintInterval::PciIntervalFromScalarBoolAnd` (CConstraintInterval.cpp:667). The loop
    starts from the first child, which is the same as starting from NULL. -/
def pciIntervalFromScalarBoolAnd (fArrayConstraints : Bool) (colref : CColRef) :
    List (ScalarExpr D) → Bool → Option (CConstraintInterval (Datum D)) →
      Except Fault (Option (CConstraintInterval (Datum D)))
  | [], _, pci => .ok pci
  | child :: rest, inferNullsAs, pci => do
    let pciChild ← pciIntervalFromScalarExpr fArrayConstraints colref child inferNullsAs
    let pci' ← boolAndRound pci pciChild
    pciIntervalFromScalarBoolAnd fArrayConstraints colref rest inferNullsAs pci'

/-- The first loop of `PciIntervalFromScalarBoolOr` (CConstraintInterval.cpp:597): NULL as soon
    as a child has no interval. -/
def boolOrChildren (fArrayConstraints : Bool) (colref : CColRef) :
    List (ScalarExpr D) → Bool → Except Fault (Option (List (CConstraintInterval (Datum D))))
  | [], _ => .ok (some [])
  | child :: rest, inferNullsAs => do
    match ← pciIntervalFromScalarExpr fArrayConstraints colref child inferNullsAs with
    | none => return none
    | some pciChild =>
      return (← boolOrChildren fArrayConstraints colref rest inferNullsAs).map (pciChild :: ·)

/-- The NOT case of `PciIntervalFromScalarBoolOp` (CConstraintInterval.cpp:560). -/
def pciIntervalFromScalarBoolNot (fArrayConstraints : Bool) (colref : CColRef) :
    List (ScalarExpr D) → Bool → Except Fault (Option (CConstraintInterval (Datum D)))
  | [], _ => .error .outOfBounds
  | child :: _, inferNullsAs => do
    match ← pciIntervalFromScalarExpr fArrayConstraints colref child (!inferNullsAs) with
    | none => return none
    | some pciChild => return some (← pciChild.pciComplement)

end

end CConstraintInterval

end BossOptimizer

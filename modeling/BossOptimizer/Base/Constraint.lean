import BossOptimizer.Base.IntervalDerivation

/-!
# Constraints: `CConstraint` and its subclasses (CConstraint.cpp)

A constraint is an interval on one column, a conjunction or disjunction of constraints, or a
negation. Building a conjunction or disjunction flattens nested ones and merges the children that
use one and the same column: they are turned back into a scalar expression, and that expression
into one interval. `Pcnstr` is the part of a constraint that speaks about one column, and
containment is decided column by column on these parts.

Derived members (`m_pcrsUsed`, `m_phmcolconstr`, `m_pexprScalar`) are computed when asked for, and
the memory of earlier containment answers is left out.
-/

namespace BossOptimizer

/-! ## Scalar expressions of ranges and intervals -/

section Pexpr

variable {D : Type}

/-- `CUtils::FScalarConstTrue` and `CUtils::FScalarConstFalse`. -/
def fScalarConstBool (value : Bool) : ScalarExpr D → Bool
  | .const (some v) => v == value
  | _ => false

/-- `CPredicateUtils::PexprConjDisj` (CPredicateUtils.cpp:675): TRUE conjuncts (FALSE disjuncts)
    are skipped, a FALSE conjunct (TRUE disjunct) is the result, and one operand stands alone. -/
def pexprConjDisj (fConjunction : Bool) (pdrgpexpr : List (ScalarExpr D)) : ScalarExpr D :=
  if pdrgpexpr.any (fScalarConstBool (!fConjunction)) then .const (some !fConjunction)
  else match pdrgpexpr.filter (!fScalarConstBool fConjunction ·) with
    | [] => .const (some fConjunction)
    | [pexpr] => pexpr
    | pdrgpexprFinal => .boolOp (if fConjunction then .and else .or) pdrgpexprFinal

/-- `CUtils::PexprIsNull` on a column. -/
def pexprIsNull (colref : CColRef) : ScalarExpr D := .nullTest (.ident colref)

/-- `CUtils::PexprNegate`. -/
def pexprNegate (pexpr : ScalarExpr D) : ScalarExpr D := .boolOp .not [pexpr]

namespace CRange

variable [LinearOrder D]

/-- `CRange::PexprScalarCompEnd` (CRange.cpp:470). -/
def pexprScalarCompEnd (datum : Option (Datum D)) (eri : ERangeInclusion)
    (ecmptIncl ecmptExcl : ECmpType) (colref : CColRef) : Option (ScalarExpr D) :=
  datum.map fun datum =>
    .cmp (if eri = .included then ecmptIncl else ecmptExcl) (.ident colref) (.const datum)

/-- `CRange::PexprEquality` (CRange.cpp:442). -/
def pexprEquality (this : CRange (Datum D)) (colref : CColRef) : Option (ScalarExpr D) :=
  match this.pdatumLeft, this.pdatumRight with
  | some left, some right =>
    if left ≠ right ∨ this.eriLeft = .excluded ∨ this.eriRight = .excluded then none
    else some (.cmp .eq (.ident colref) (.const left))
  | _, _ => none

/-- `CRange::PexprScalar` (CRange.cpp:403). -/
def pexprScalar (this : CRange (Datum D)) (colref : CColRef) : ScalarExpr D :=
  match this.pexprEquality colref with
  | some pexprEq => pexprEq
  | none => pexprConjDisj true
    ((pexprScalarCompEnd this.pdatumLeft this.eriLeft .geq .g colref).toList ++
      (pexprScalarCompEnd this.pdatumRight this.eriRight .leq .l colref).toList)

/-- `CRange::FPoint` (CRange.cpp:388). -/
def fPoint (this : CRange (Datum D)) : Bool :=
  this.eriLeft = .included && this.eriRight = .included && this.pdatumRight = this.pdatumLeft

/-- `CRange::FUpperBoundEqualsLowerBound` (CRange.cpp:229). -/
def fUpperBoundEqualsLowerBound (this prange : CRange (Datum D)) : Bool :=
  this.pdatumRight = prange.pdatumLeft

end CRange

namespace CConstraintInterval

variable [LinearOrder D]

/-- `CConstraintInterval::FConvertsToIn` (CConstraintInterval.cpp:811). -/
def fConvertsToIn (pdrgprng : List (CRange (Datum D))) : Bool :=
  1 < pdrgprng.length && pdrgprng.all CRange.fPoint

/-- The loop of `FConvertsToNotIn` (CConstraintInterval.cpp:853) and the test of its last range:
    exclusive ends that meet, then an infinite right end. -/
def innerEndsMeet : List (CRange (Datum D)) → Bool
  | pLeftRng :: pRightRng :: rest =>
    pLeftRng.eriRight = .excluded && pRightRng.eriLeft = .excluded &&
      pLeftRng.fUpperBoundEqualsLowerBound pRightRng && innerEndsMeet (pRightRng :: rest)
  | [last] => last.pdatumRight.isNone
  | [] => false

/-- `CConstraintInterval::FConvertsToNotIn` (CConstraintInterval.cpp:838). -/
def fConvertsToNotIn (pdrgprng : List (CRange (Datum D))) : Bool :=
  1 < pdrgprng.length && (pdrgprng.head?.bind CRange.pdatumLeft).isNone && innerEndsMeet pdrgprng

/-- The array built by `PexprConstructArrayScalar` (CConstraintInterval.cpp:908): a range without
    a right end has no datum to take a reference on. -/
def arrayDatums : List (CRange (Datum D)) → Except Fault (List (ScalarOperand D))
  | [] => .ok []
  | prange :: rest =>
    match prange.pdatumRight with
    | none => .error .nullDeref
    | some datum => (.const datum :: ·) <$> arrayDatums rest

/-- OR IS NULL, when the interval includes NULL (CConstraintInterval.cpp:923). -/
def pexprOrIsNull (this : CConstraintInterval (Datum D)) (pexpr : ScalarExpr D) : ScalarExpr D :=
  if this.fIncludesNull then pexprConjDisj false [pexpr, pexprIsNull this.pcr] else pexpr

/-- `CConstraintInterval::PexprConstructArrayScalar` (CConstraintInterval.cpp:885, 946). The right
    end of the last range of a NOT IN is infinite. -/
def pexprConstructArrayScalar (this : CConstraintInterval (Datum D)) :
    Except Fault (Option (ScalarExpr D)) :=
  if fConvertsToIn this.pdrgprng then do
    let array ← arrayDatums this.pdrgprng
    return some (this.pexprOrIsNull (.arrayCmp .any .eq (.ident this.pcr) false array))
  else if fConvertsToNotIn this.pdrgprng then do
    let array ← arrayDatums this.pdrgprng.dropLast
    return some (this.pexprOrIsNull (.arrayCmp .all .neq (.ident this.pcr) false array))
  else return none

/-- `CConstraintInterval::PexprConstructDisjunctionScalar` (CConstraintInterval.cpp:770). -/
def pexprConstructDisjunctionScalar (this : CConstraintInterval (Datum D)) : ScalarExpr D :=
  let pdrgpexpr := this.pdrgprng.map (CRange.pexprScalar · this.pcr)
  if pdrgpexpr.length = 1 ∧ pdrgpexpr.all (fScalarConstBool true) then
    if this.fIncludesNull then .const (some true) else pexprNegate (pexprIsNull this.pcr)
  else
    pexprConjDisj false (pdrgpexpr ++ if this.fIncludesNull then [pexprIsNull this.pcr] else [])

/-- `CConstraintInterval::PexprConstructScalar` (CConstraintInterval.cpp:735). -/
def pexprScalar (fArrayConstraints : Bool) (this : CConstraintInterval (Datum D)) :
    Except Fault (ScalarExpr D) :=
  if this.fContradiction then .ok (.const (some false))
  else if fArrayConstraints then do
    match ← this.pexprConstructArrayScalar with
    | some pexpr => return pexpr
    | none => return this.pexprConstructDisjunctionScalar
  else .ok this.pexprConstructDisjunctionScalar

end CConstraintInterval

end Pexpr

/-! ## Constraints -/

inductive CConstraint (D : Type) where
  | interval (pci : CConstraintInterval (Datum D))
  | conjunction (pdrgpcnstr : List (CConstraint D))
  | disjunction (pdrgpcnstr : List (CConstraint D))
  | negation (pcnstr : CConstraint D)

namespace CConstraint

variable {D : Type}

/-- Induction over constraints: the children of a conjunction or disjunction are a list. -/
theorem induction {P : CConstraint D → Prop} (interval : ∀ pci, P (.interval pci))
    (conjunction : ∀ l, (∀ c ∈ l, P c) → P (.conjunction l))
    (disjunction : ∀ l, (∀ c ∈ l, P c) → P (.disjunction l))
    (negation : ∀ c, P c → P (.negation c)) : ∀ c, P c
  | .interval pci => interval pci
  | .conjunction l => conjunction l fun c _ => induction interval conjunction disjunction negation c
  | .disjunction l => disjunction l fun c _ => induction interval conjunction disjunction negation c
  | .negation c => negation c (induction interval conjunction disjunction negation c)

mutual

/-- The columns mentioned in a constraint. -/
def columns : CConstraint D → List CColRef
  | .interval pci => [pci.pcr]
  | .conjunction l => columnsAll l
  | .disjunction l => columnsAll l
  | .negation c => c.columns

def columnsAll : List (CConstraint D) → List CColRef
  | [] => []
  | c :: l => c.columns ++ columnsAll l

end

/-- `PcrsUsed`: the set of these columns, iterated in the order of their ids. -/
def pcrsUsed (this : CConstraint D) : List CColRef :=
  this.columns.dedup.insertionSort (·.id ≤ ·.id)

section Source

variable [LinearOrder D]

mutual

/-- `FContradiction` of the four classes. -/
def fContradiction : CConstraint D → Bool
  | .interval pci => pci.fContradiction
  | .conjunction l => fContradictionAny l
  | .disjunction l => fContradictionAll l
  | .negation c => c.isConstraintUnbounded

def fContradictionAny : List (CConstraint D) → Bool
  | [] => false
  | c :: l => c.fContradiction || fContradictionAny l

def fContradictionAll : List (CConstraint D) → Bool
  | [] => true
  | c :: l => c.fContradiction && fContradictionAll l

/-- `IsConstraintUnbounded`; false unless a class overrides it (CConstraint.h:177). -/
def isConstraintUnbounded : CConstraint D → Bool
  | .interval pci => pci.isConstraintUnbounded
  | .negation c => c.fContradiction
  | _ => false

end

variable (fArrayConstraints : Bool)

mutual

/-- `PexprScalar` of the four classes. -/
def pexprScalar : CConstraint D → Except Fault (ScalarExpr D)
  | .interval pci => pci.pexprScalar fArrayConstraints
  | .conjunction l =>
    if fContradictionAny l then .ok (.const (some false))
    else pexprConjDisj true <$> pexprScalars l
  | .disjunction l =>
    if fContradictionAll l then .ok (.const (some false))
    else pexprConjDisj false <$> pexprScalars l
  | .negation (.negation c) => pexprScalar c
  | .negation (.interval pci) => do (← pci.pciComplement).pexprScalar fArrayConstraints
  | .negation c => pexprNegate <$> pexprScalar c

def pexprScalars : List (CConstraint D) → Except Fault (List (ScalarExpr D))
  | [] => .ok []
  | c :: l => do return (← pexprScalar c) :: (← pexprScalars l)

end

/-- The flattening loop of `PdrgpcnstrFlatten` (CConstraint.cpp:683). -/
def flatten (fConj : Bool) (pdrgpcnstr : List (CConstraint D)) : List (CConstraint D) :=
  pdrgpcnstr.flatMap fun pcnstrChild =>
    match pcnstrChild, fConj with
    | .conjunction l, true => l
    | .disjunction l, false => l
    | pcnstrChild, _ => [pcnstrChild]

/-- The loop of `PdrgpcnstrDeduplicate` (CConstraint.cpp:731). All children on one and the same
    single column become one interval, at the place of the first. -/
def deduplicateLoop (fConj : Bool) (pdrgpcnstr : List (CConstraint D)) :
    List (CConstraint D) → List CColRef → Except Fault (List (CConstraint D))
  | [], _ => .ok []
  | pcnstrChild :: rest, pcrsDeduped =>
    match pcnstrChild.pcrsUsed with
    | [colref] =>
      if colref ∈ pcrsDeduped then deduplicateLoop fConj pdrgpcnstr rest pcrsDeduped
      else
        match pdrgpcnstr.filter (·.pcrsUsed = [colref]) with
        | [_] => (pcnstrChild :: ·) <$> deduplicateLoop fConj pdrgpcnstr rest pcrsDeduped
        | pdrgpcnstrCol => do
          let pexpr := pexprConjDisj fConj (← pexprScalars fArrayConstraints pdrgpcnstrCol)
          let pci ← CConstraintInterval.pciIntervalFromScalarExpr fArrayConstraints colref pexpr
            false
          let pcnstrNew := pci.elim pcnstrChild .interval
          return pcnstrNew :: (← deduplicateLoop fConj pdrgpcnstr rest (colref :: pcrsDeduped))
    | _ => (pcnstrChild :: ·) <$> deduplicateLoop fConj pdrgpcnstr rest pcrsDeduped

/-- The constructors `CConstraintConjunction` and `CConstraintDisjunction`: the children are
    flattened and de-duplicated (`PdrgpcnstrFlatten`, CConstraint.cpp:670). -/
def ofConjDisj (fConj : Bool) (pdrgpcnstr : List (CConstraint D)) :
    Except Fault (CConstraint D) := do
  let children := flatten fConj pdrgpcnstr
  let pdrgpcnstrNew ← deduplicateLoop fArrayConstraints fConj children children []
  return if fConj then .conjunction pdrgpcnstrNew else .disjunction pdrgpcnstrNew

/-- `CConstraint::PcnstrConjDisj` (CConstraint.cpp:290). -/
def pcnstrConjDisj (fConj : Bool) (pdrgpcnstr : List (CConstraint D)) :
    Except Fault (Option (CConstraint D)) :=
  match pdrgpcnstr with
  | [] => .ok none
  | [pcnstr] => .ok (some pcnstr)
  | _ => some <$> ofConjDisj fArrayConstraints fConj pdrgpcnstr

/-- `PciUnbounded` with the NULL pointer that callers go on to use on a column of another type. -/
def pciUnboundedDeref (colref : CColRef) : Except Fault (CConstraint D) :=
  match CConstraintInterval.pciUnbounded colref true with
  | some pci => .ok (.interval pci)
  | none => .error .nullDeref

mutual

/-- `Pcnstr(colref)` of the four classes: the part on one column. -/
def pcnstr (colref : CColRef) : CConstraint D → Except Fault (Option (CConstraint D))
  | .interval pci => .ok (if pci.pcr = colref then some (.interval pci) else none)
  | .conjunction l =>
    if colref ∈ columnsAll l then do
      pcnstrConjDisj fArrayConstraints true (← conjunctionOn colref l)
    else .ok none
  | .disjunction l =>
    if colref ∉ columnsAll l then .ok none
    else if l.all (colref ∈ ·.columns) then disjunctionOn colref l []
    else .ok ((CConstraintInterval.pciUnbounded colref true).map .interval)
  | .negation c =>
    if c.pcrsUsed = [colref] then do
      match ← pcnstr colref c with
      | some pcnstrCol => return some (.negation pcnstrCol)
      | none => .error .nullDeref
    else .ok none

/-- The loop of `CConstraintConjunction::Pcnstr` (CConstraintConjunction.cpp:145). -/
def conjunctionOn (colref : CColRef) : List (CConstraint D) → Except Fault (List (CConstraint D))
  | [] => .ok []
  | child :: l =>
    if colref ∈ child.columns then do
      match ← pcnstr colref child with
      | none => conjunctionOn colref l
      | some pcnstrCol =>
        if pcnstrCol.isConstraintUnbounded then conjunctionOn colref l
        else return pcnstrCol :: (← conjunctionOn colref l)
    else conjunctionOn colref l

/-- The loop of `CConstraintDisjunction::Pcnstr` (CConstraintDisjunction.cpp:156), with the array
    built so far: an unbounded disjunct ends it. -/
def disjunctionOn (colref : CColRef) : List (CConstraint D) → List (CConstraint D) →
    Except Fault (Option (CConstraint D))
  | [], pdrgpcnstr => pcnstrConjDisj fArrayConstraints false pdrgpcnstr
  | child :: l, pdrgpcnstr => do
    match ← pcnstr colref child with
    | none => some <$> pciUnboundedDeref colref
    | some pcnstrCol =>
      if pcnstrCol.isConstraintUnbounded then return some pcnstrCol
      else disjunctionOn colref l (pdrgpcnstr ++ [pcnstrCol])

end

/-- `CConstraintInterval::PciIntervalFromConstraint` (CConstraintInterval.cpp:326). -/
def pciIntervalFromConstraint (pcnstr : Option (CConstraint D)) (colref : CColRef) :
    Except Fault (Option (CConstraintInterval (Datum D))) :=
  match pcnstr with
  | none => .ok (CConstraintInterval.pciUnbounded colref true)
  | some (.interval pci) => .ok (some pci)
  | some pcnstr => do
    CConstraintInterval.pciIntervalFromScalarExpr fArrayConstraints colref
      (← pcnstr.pexprScalar fArrayConstraints) false

/-- The loop of `CConstraint::Contains` (CConstraint.cpp:922). The part of this constraint and
    both intervals are released at the end of a round, so none of them may be NULL. -/
def containsLoop (this pcnstrOther : CConstraint D) : List CColRef → Except Fault Bool
  | [] => .ok true
  | colref :: rest => do
    let pcnstrColThis ← this.pcnstr fArrayConstraints colref
    let pcnstrColOther ← pcnstrOther.pcnstr fArrayConstraints colref
    let pciThis ← pciIntervalFromConstraint fArrayConstraints pcnstrColThis colref
    let pciOther ← pciIntervalFromConstraint fArrayConstraints pcnstrColOther colref
    match pcnstrColThis, pciThis, pciOther with
    | some _, some pciThis, some pciOther =>
      if ← pciThis.fContainsInterval pciOther then containsLoop this pcnstrOther rest
      else return false
    | _, _, _ => .error .nullDeref

/-- `CConstraint::Contains` (CConstraint.cpp:898), for two different objects. -/
def contains (this : CConstraint D) (pcnstr : Option (CConstraint D)) : Except Fault Bool :=
  if this.isConstraintUnbounded then .ok true
  else
    match pcnstr with
    | none => .ok false
    | some pcnstr =>
      if pcnstr.isConstraintUnbounded then .ok false
      else containsLoop fArrayConstraints this pcnstr this.pcrsUsed

/-- `CConstraint::Equals` (CConstraint.cpp:966), for two different objects. -/
def equals (this : CConstraint D) (pcnstr : Option (CConstraint D)) : Except Fault Bool :=
  match pcnstr with
  | none => .ok this.isConstraintUnbounded
  | some pcnstr =>
    if pcnstr.isConstraintUnbounded then .ok this.isConstraintUnbounded
    else do
      if ← this.contains fArrayConstraints (some pcnstr) then
        pcnstr.contains fArrayConstraints (some this)
      else return false

end Source

end CConstraint

end BossOptimizer

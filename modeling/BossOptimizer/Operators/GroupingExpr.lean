import BossOptimizer.Operators.QueryColumns

/-!
# Limits, aggregates and window operators

The three logical operators that have columns of their own: the order of a limit, the grouping
columns of an aggregate, and the partition and order columns of a window operator. Aggregate and
window functions are operators like any other; they are evaluated in an environment that holds what
they range over.
-/

namespace BossOptimizer

/-! ## Operators -/

/-- `COrderSpec::ENullTreatment`. -/
inductive NullTreatment where
  | auto | first | last
  deriving DecidableEq, Repr

/-- `COrderSpec::COrderExpression`, on column references. -/
structure OrderExpression where
  mdidSortOp : ℕ
  pcr : CColRef
  ent : NullTreatment
  deriving DecidableEq, Repr

abbrev OrderSpec : Type := List OrderExpression

/-- `CLogicalLimit`. -/
structure CLogicalLimit where
  pos : OrderSpec
  fGlobal : Bool
  fHasCount : Bool
  fTopLimitUnderDMLorCTAS : Bool

/-- `COperator::EGbAggType`. -/
inductive EGbAggType where
  | gbaggGlobal | gbaggLocal | gbaggIntermediate
  deriving DecidableEq, Repr

/-- `CLogicalGbAgg`. -/
structure CLogicalGbAgg where
  pdrgpcr : List CColRef
  pdrgpcrMinimal : Option (List CColRef)
  egbaggtype : EGbAggType
  fGeneratesDuplicates : Bool
  pdrgpcrArgDQA : Option (List CColRef)

/-- An expression of the hashed distribution of a window operator. -/
inductive PartitionKey (K : Type) where
  | scalarIdent (colref : CColRef)
  | other (key : K)

/-- `CDistributionSpecSingleton` or `CDistributionSpecHashed`: no partitions, or one for each
    combination of values. -/
inductive PartitionSpec (K : Type) where
  | singleton
  | hashed (pdrgpexpr : List (PartitionKey K)) (fNullsColocated : Bool)

/-- `CLogicalSequenceProject`. -/
structure CLogicalSequenceProject (K W : Type) where
  pds : PartitionSpec K
  pdrgpos : List OrderSpec
  pdrgpwf : List W

/-- The operators with columns of their own, and all others. -/
inductive GroupingOp (K W Op : Type) where
  | logicalLimit (popLimit : CLogicalLimit)
  | logicalGbAgg (popAgg : CLogicalGbAgg)
  | logicalSequenceProject (popSequenceProject : CLogicalSequenceProject K W)
  | other (pop : Op)

/-! ## Columns -/

/-- The columns of the partition keys, of the window frames and of the other operators. -/
structure GroupingColumns (K W Op : Type) where
  PcrsUsedByKey : K → List CColRef
  PcrsUsedByFrame : W → List CColRef
  derive : Op → List DerivedColumns → DerivedColumns

section Columns

variable {K W Op : Type} (cols : GroupingColumns K W Op)

def PartitionKey.PcrsUsed : PartitionKey K → List CColRef
  | .scalarIdent colref => [colref]
  | .other key => cols.PcrsUsedByKey key

def PartitionSpec.PcrsUsed : PartitionSpec K → List CColRef
  | .singleton => []
  | .hashed pdrgpexpr _ => pdrgpexpr.flatMap (·.PcrsUsed cols)

/-- `COrderSpec::PcrsUsed`. -/
def OrderSpec.PcrsUsed (pos : OrderSpec) : List CColRef := pos.map (·.pcr)

/-- `m_pcrsLocalUsed` (CLogicalSequenceProject.cpp:52). -/
def CLogicalSequenceProject.pcrsLocalUsed (pop : CLogicalSequenceProject K W) : List CColRef :=
  pop.pdrgpos.flatMap OrderSpec.PcrsUsed ++ pop.pds.PcrsUsed cols ++
    pop.pdrgpwf.flatMap cols.PcrsUsedByFrame

open DerivedColumns in
/-- `DeriveOutputColumns` and `DeriveOuterReferences` of the operators. -/
def GroupingOp.columns : GroupingOp K W Op → List DerivedColumns → DerivedColumns
  | .logicalLimit popLimit, children =>
    { output := children.flatMap (·.output)
      outer := outerReferences popLimit.pos.PcrsUsed children, used := [], defined := [] }
  | .logicalGbAgg popAgg, children =>
    { output := popAgg.pdrgpcr.filter (· ∈ children.flatMap (·.output)) ++
        (children.drop 1).flatMap (·.defined)
      outer := outerReferences popAgg.pdrgpcr children, used := [], defined := [] }
  | .logicalSequenceProject pop, children =>
    { output := children.flatMap (·.output) ++ (children.drop 1).flatMap (·.defined)
      outer := outerReferences (pop.pcrsLocalUsed cols) children, used := [], defined := [] }
  | .other pop, children => cols.derive pop children

end Columns

/-! ## What they compute -/

/-- The rows of a partition in an order, each with the number of rows before it, which tells its
    peers; and the values of the order columns, for the frames that measure distances in them. -/
structure WindowContext (D : Type) where
  rows : List (Row D × ℕ)
  keys : List (List (Datum D))

/-- What aggregate and window functions range over: a group of rows without an order, or the
    partition in the order of every order specification, and the frames. -/
structure RowGroup (D W : Type) where
  contexts : List (WindowContext D)
  frames : List W

/-- The meaning of the other operators, of sort operators and of partition keys. -/
structure GroupingSemantics (D K W Op : Type) extends QuerySemantics D (RowGroup D W) Op where
  /-- Whether a value comes before another one. -/
  before : ℕ → NullTreatment → Datum D → Datum D → Bool
  before_irrefl : ∀ mdidSortOp ent v, before mdidSortOp ent v v = false
  key : K → Row D → Datum D
  /-- A number of rows; NULL is none. -/
  number : Datum D → Option ℤ
  /-- A RANGE frame with a bounded edge. -/
  FBoundedRange : W → Bool

namespace GroupingSemantics

variable {D K W Op : Type} [LinearOrder D] (S : GroupingSemantics D K W Op)

/-- Lexicographic order. -/
def precedes : OrderSpec → Row D → Row D → Bool
  | [], _, _ => false
  | poe :: pos, row, row' =>
    S.before poe.mdidSortOp poe.ent (row poe.pcr) (row' poe.pcr) ||
      (!S.before poe.mdidSortOp poe.ent (row' poe.pcr) (row poe.pcr) && precedes pos row row')

/-- The rows in order; rows that tie stay as they are. -/
def sorted (pos : OrderSpec) (rows : List (Row D)) : List (Row D) :=
  rows.mergeSort fun row row' => !S.precedes pos row' row

/-- The rows that a limit keeps. -/
def limitRows (popLimit : CLogicalLimit) (offset count : Option ℤ) (rows : List (Row D)) :
    List (Row D) :=
  let kept := (S.sorted popLimit.pos rows).drop (offset.getD 0).toNat
  match count with
  | some n => if popLimit.fHasCount then kept.take n.toNat else kept
  | none => kept

/-- A group of rows for aggregate functions. -/
def aggregated (rows : List (Row D)) : RowGroup D W :=
  { contexts := [{ rows := rows.map fun row => (row, 0), keys := [] }], frames := [] }

/-- The groups of an aggregate: the row that its output extends, and the rows. Without grouping
    columns there is one group, even of no rows. -/
def groups (pdrgpcr : List CColRef) (outer : Row D) (rows : List (Row D)) :
    List (Row D × List (Row D)) :=
  if pdrgpcr = [] then [(outer, rows)]
  else (rows.pwFilter fun row row' => sameOn pdrgpcr row row' = false).map fun row =>
    (merge pdrgpcr outer row, rows.filter (sameOn pdrgpcr row))

def keyValue : PartitionKey K → Row D → Datum D
  | .scalarIdent colref, row => row colref
  | .other key, row => S.key key row

/-- The partition of a row. -/
def partition (pds : PartitionSpec K) (rows : List (Row D)) (row : Row D) : List (Row D) :=
  match pds with
  | .singleton => rows
  | .hashed pdrgpexpr _ =>
    rows.filter fun row' => pdrgpexpr.all fun key => decide (S.keyValue key row = S.keyValue key row')

/-- A partition in an order. The values of the order columns are there for a bounded RANGE frame. -/
def context (fBoundedRange : Bool) (rows : List (Row D)) (pos : OrderSpec) : WindowContext D where
  rows := (S.sorted pos rows).map fun row => (row, rows.countP (S.precedes pos · row))
  keys := if fBoundedRange then (S.sorted pos rows).map fun row => pos.map fun poe => row poe.pcr
    else []

/-- What the window functions range over for a row. -/
def windowed (pop : CLogicalSequenceProject K W) (rows : List (Row D)) (row : Row D) :
    RowGroup D W :=
  { contexts := pop.pdrgpos.map
      (S.context (pop.pdrgpwf.any S.FBoundedRange) (S.partition pop.pds rows row))
    frames := pop.pdrgpwf }

/-- The rows of a project list, each evaluated with a row and a group. -/
def projectEach (list : Env D (RowGroup D W) → Result D)
    (envs : List (Env D (RowGroup D W))) : Option (List (Row D)) := do
  let projected ← envs.mapM fun env => do
    let els ← (list env).elements?
    some (Query.projectRow els env.row)
  some projected.flatten

open Result in
def groupingOp : GroupingOp K W Op → List (Env D (RowGroup D W) → Result D) →
    Env D (RowGroup D W) → Result D
  | .logicalLimit popLimit, [child, offset, count], env => ofOption do
    let rows ← (child env).rows?
    let o ← (offset env).value?
    let n ← (count env).value?
    some (.relation (S.limitRows popLimit (S.number o) (S.number n) rows))
  | .logicalGbAgg popAgg, [child, list], env => ofOption do
    let rows ← (child env).rows?
    let projected ← projectEach list ((groups popAgg.pdrgpcr env.row rows).map fun group =>
      { row := group.1, group := aggregated group.2 })
    some (.relation projected)
  | .logicalSequenceProject pop, [child, list], env => ofOption do
    let rows ← (child env).rows?
    let projected ← projectEach list (rows.map fun row =>
      { row := row, group := S.windowed pop rows row })
    some (.relation projected)
  | .other pop, children, env => S.other pop children env
  | _, _, _ => .failure

/-- The operators of a query. -/
def semantics : QuerySemantics D (RowGroup D W) (GroupingOp K W Op) where
  truth := S.truth
  ofTruth := S.ofTruth
  truth_ofTruth := S.truth_ofTruth
  cmp := S.cmp
  other := S.groupingOp

end GroupingSemantics

end BossOptimizer

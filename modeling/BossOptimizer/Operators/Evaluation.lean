import BossOptimizer.Lib.Joins
import BossOptimizer.Operators.LogicalExpr
import BossOptimizer.Base.IntervalSoundness

/-!
# The rows of a logical expression

SQL semantics under bags. A row assigns a value to every column; the rows of an expression extend
the row it is evaluated in, which holds the outer references, so that scalars are evaluated on rows
as they are. A row of a set operation also keeps what the row of the child held. Everything the database and the engine decide is in `Execution`: the tables, the
opaque scalars, the functions, and the order in which a limit meets its rows.
-/

namespace BossOptimizer

variable {D : Type}

/-- A row with the values of some columns replaced by those of another one. -/
def merge (cols : List CColRef) (row other : Row D) : Row D :=
  fun c => if c ∈ cols then other c else row c

/-- A row with values for some columns; a missing value is NULL. -/
def assign (cols : List CColRef) (vals : List (Datum D)) (row : Row D) : Row D :=
  fun c => if c ∈ cols then vals.getD (cols.idxOf c) ⊥ else row c

/-- The NULL of an outer join. -/
def nullRow : Row D := fun _ => ⊥

theorem merge_of_mem {cols : List CColRef} {row other : Row D} {c : CColRef} (h : c ∈ cols) :
    merge cols row other c = other c := if_pos h

theorem merge_of_notMem {cols : List CColRef} {row other : Row D} {c : CColRef} (h : c ∉ cols) :
    merge cols row other c = row c := if_neg h

theorem assign_of_mem {cols : List CColRef} {vals : List (Datum D)} {row : Row D} {c : CColRef}
    (h : c ∈ cols) : assign cols vals row c = vals.getD (cols.idxOf c) ⊥ := if_pos h

theorem assign_of_notMem {cols : List CColRef} {vals : List (Datum D)} {row : Row D} {c : CColRef}
    (h : c ∉ cols) : assign cols vals row c = row c := if_neg h

theorem assign_getElem {cols : List CColRef} (hnd : cols.Nodup) {vals : List (Datum D)}
    {row : Row D} {i : ℕ} (hi : i < cols.length) :
    assign cols vals row cols[i] = vals.getD i ⊥ := by
  rw [assign_of_mem (List.getElem_mem hi), hnd.idxOf_getElem i hi]

/-- The database and the engine. -/
structure Execution (D : Type) where
  scalars : Interpretation D
  table : ℕ → List (List (Datum D))
  /-- The values a set-returning function returns for a row. -/
  setReturning : ℕ → Row D → List (Datum D)
  aggregate : ℕ → List (Row D) → Datum D
  limitScalar : ℕ → Row D → Option ℤ
  /-- The order in which a limit meets its rows. -/
  arrange : ℕ → List (Row D) → List (Row D)
  arrange_perm : ∀ id rows, (arrange id rows).Perm rows

/-- `NULL` is no limit and no offset. -/
def LimitScalar.eval (ex : Execution D) (env : Row D) : LimitScalar → Option ℤ
  | .int8 value => value.map BitVec.toInt
  | .int4 value => value.map BitVec.toInt
  | .other id => ex.limitScalar id env

section

variable [LinearOrder D]

/-- A predicate is true, neither false nor unknown. -/
def isTrue (I : Interpretation D) (pexprScalar : ScalarExpr D) (row : Row D) : Bool :=
  decide (CConstraintInterval.satisfied I false pexprScalar row)

theorem isTrue_iff {I : Interpretation D} {e : ScalarExpr D} {row : Row D} :
    isTrue I e row = true ↔ CConstraintInterval.satisfied I false e row := by
  rw [isTrue, decide_eq_true_eq]

/-- Two rows have the same values, NULL being equal to itself. -/
def sameOn (cols : List CColRef) (row row' : Row D) : Bool := cols.all fun c => row c = row' c

theorem sameOn_iff {cols : List CColRef} {row row' : Row D} :
    sameOn cols row row' = true ↔ ∀ c ∈ cols, row c = row' c := by
  simp [sameOn]

theorem sameOn_refl (cols : List CColRef) (row : Row D) : sameOn cols row row = true :=
  sameOn_iff.2 fun _ _ => rfl

/-! ## Projections -/

namespace ProjectedScalar

/-- How many values a projected scalar has for a row. -/
def width (ex : Execution D) (row : Row D) : ProjectedScalar D → ℕ
  | .operand _ => 1
  | .setReturning id _ => (ex.setReturning id row).length

/-- The `k`-th value; a function that is exhausted starts again. -/
def value (ex : Execution D) (row : Row D) (k : ℕ) : ProjectedScalar D → Datum D
  | .operand pexprScalar => pexprScalar.eval ex.scalars row
  | .setReturning id _ =>
    (ex.setReturning id row).getD (k % (ex.setReturning id row).length) ⊥

end ProjectedScalar

/-- The rows of a project list for one row of the child: until all set-returning functions are
    exhausted at the same time. -/
def projectRow (ex : Execution D) (pexprPrL : List (CScalarProjectElement D)) (row : Row D) :
    List (Row D) :=
  (List.range ((pexprPrL.map fun el => el.scalar.width ex row).foldr Nat.lcm 1)).map fun k =>
    assign (pexprPrL.map (·.pcr)) (pexprPrL.map fun el => el.scalar.value ex row k) row

/-! ## Aggregates and set operations -/

/-- One representative of each group of rows with the same values. -/
def dedupOn (cols : List CColRef) (rows : List (Row D)) : List (Row D) :=
  rows.pwFilter fun row row' => sameOn cols row row' = false

/-- One row for each group; without grouping columns there is one group, even of no rows. -/
def gbAggRows (ex : Execution D) (env : Row D) (pdrgpcr : List CColRef)
    (pexprPrL : List AggElement) (rows : List (Row D)) : List (Row D) :=
  if pdrgpcr = [] then
    [assign (pexprPrL.map (·.pcr)) (pexprPrL.map fun el => ex.aggregate el.id rows) env]
  else
    (dedupOn pdrgpcr rows).map fun row =>
      assign (pexprPrL.map (·.pcr))
        (pexprPrL.map fun el => ex.aggregate el.id (rows.filter (sameOn pdrgpcr row)))
        (merge pdrgpcr env row)

/-- The rows that find a partner of their own on the other side, or those that do not. -/
def pairOff (keep : Bool) (cols : List CColRef) : List (Row D) → List (Row D) → List (Row D)
  | [], _ => []
  | row :: rows, other =>
    if other.any (sameOn cols row) then
      let rest := pairOff keep cols rows (other.eraseP (sameOn cols row))
      if keep then row :: rest else rest
    else
      let rest := pairOff keep cols rows other
      if keep then rest else row :: rest

/-- A set operation on the rows of its children, which have the output columns already. -/
def setOpRows (op : ESetOp) (cols : List CColRef) : List (List (Row D)) → List (Row D)
  | [] => []
  | first :: rest =>
    match op with
    | .unionAll => (first :: rest).flatten
    | .union => dedupOn cols (first :: rest).flatten
    | .intersect => dedupOn cols (first.filter fun row => rest.all (·.any (sameOn cols row)))
    | .intersectAll => rest.foldl (pairOff true cols) first
    | .difference => dedupOn cols (first.filter fun row => rest.all (!·.any (sameOn cols row)))
    | .differenceAll => rest.foldl (pairOff false cols) first

/-! ## Joins -/

/-- A join of rows; `leftCols` and `rightCols` are the columns the rows of its children carry. -/
def joinRows (ex : Execution D) (op : EJoin) (pexprScalar : ScalarExpr D)
    (leftCols rightCols : List CColRef) (left right : List (Row D)) : List (Row D) :=
  let pair := merge rightCols
  let matched := fun l r => isTrue ex.scalars pexprScalar (pair l r)
  match op with
  | .inner => Joins.inner matched pair left right
  | .leftOuter => Joins.leftOuter matched pair (merge rightCols · nullRow) left right
  | .fullOuter =>
    Joins.fullOuter matched pair (merge rightCols · nullRow) (merge leftCols · nullRow) left right

/-- An n-ary join without its inner join predicates: one child after the other. -/
def naryJoinRows (ex : Execution D) (idx : Option (List ℕ)) (onPreds : List (ScalarExpr D)) :
    ℕ → List (Row D) → List (List (Row D) × List CColRef) → List (Row D)
  | _, acc, [] => acc
  | j, acc, (rows, cols) :: rest =>
    let acc' := match LogicalExpr.onPredicate idx onPreds j with
      | none => Joins.inner (fun _ _ => true) (merge cols) acc rows
      | some on => Joins.leftOuter (fun l r => isTrue ex.scalars on (merge cols l r)) (merge cols)
          (merge cols · nullRow) acc rows
    naryJoinRows ex idx onPreds (j + 1) acc' rest

/-! ## Expressions -/

namespace LogicalExpr

mutual

/-- The rows an expression returns in a row of outer references. -/
def rows (ex : Execution D) (env : Row D) : LogicalExpr D → List (Row D)
  | .get ptabdesc out _ => (ex.table ptabdesc.mdid).map fun vals => assign out vals env
  | .constTableGet out data => data.map fun vals => assign out vals env
  | .select child pexprScalar => (child.rows ex env).filter (isTrue ex.scalars pexprScalar)
  | .project child pexprPrL => (child.rows ex env).flatMap (projectRow ex pexprPrL)
  | .gbAgg pdrgpcr child pexprPrL => gbAggRows ex env pdrgpcr pexprPrL (child.rows ex env)
  | .limit id child pexprOffset pexprCount =>
    let kept := (ex.arrange id (child.rows ex env)).drop ((pexprOffset.eval ex env).getD 0).toNat
    match pexprCount.eval ex env with
    | none => kept
    | some n => kept.take n.toNat
  | .setOp op out input children =>
    setOpRows op out (List.zipWith (fun rows cols => rows.map fun row =>
      assign out (cols.map row) row) (rowsAll ex env children) input)
  | .join op left right pexprScalar =>
    joinRows ex op pexprScalar left.rowColumns right.rowColumns
      (left.rows ex env) (right.rows ex env)
  | .naryJoin children idx innerJoinPreds onPreds =>
    (naryJoinRows ex idx onPreds 0 [env]
      ((rowsAll ex env children).zip (children.map rowColumns))).filter
        (isTrue ex.scalars innerJoinPreds)

def rowsAll (ex : Execution D) (env : Row D) : List (LogicalExpr D) → List (List (Row D))
  | [] => []
  | e :: es => e.rows ex env :: rowsAll ex env es

end

attribute [local simp] rows rowsAll in
@[simp] theorem rowsAll_eq_map (ex : Execution D) (env : Row D) (es : List (LogicalExpr D)) :
    rowsAll ex env es = es.map (rows ex env) := by
  induction es with
  | nil => rfl
  | cons e es ih => simp [rowsAll, ih]

end LogicalExpr

end

end BossOptimizer

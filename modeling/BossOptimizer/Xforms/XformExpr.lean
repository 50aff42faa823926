import BossOptimizer.Lib.RowNumbers
import BossOptimizer.Xforms.XformScalar

/-!
# Expressions of the relational transformations

The operators that the transformations between joins, aggregates, windows and set operations match
and build. A pattern leaf stands for any expression: it returns tuples of its output columns in a
row of outer references. Everything that depends on the engine is in `Engine`: opaque scalars, the
order in which a limit meets its rows, the numbering of a window, and the aggregate functions.

Two expressions return the same rows on some columns when they return the same bag of tuples.
-/

namespace BossOptimizer

variable {D : Type}

/-! ## Aggregate functions -/

/-- `CScalarAggFunc::EAggfuncStage`. -/
inductive EAggfuncStage where
  | local | intermediate | global
  deriving DecidableEq, Repr

/-- A project element with a `CScalarAggFunc`. -/
structure AggCall (D : Type) where
  pcr : CColRef
  mdidAggFunc : ℕ
  eaggfuncstage : EAggfuncStage
  fSplit : Bool
  fDistinct : Bool
  args : List (XformOperand D)

/-- An aggregate function: its states can be combined in any order, and a state can be passed on
    between the stages as a datum. -/
structure AggFunction (D : Type) where
  State : Type
  monoid : AddCommMonoid State
  transition : List (Datum D) → State
  final : State → Datum D
  ofState : State → Datum D
  toState : Datum D → State
  toState_ofState : ∀ s, toState (ofState s) = s

/-! ## Relations -/

/-- What a pattern leaf stands for. -/
structure Relation (D : Type) where
  output : List CColRef
  outerRefs : List CColRef
  /-- A `CLogicalConstTableGet`. -/
  fConstTableGet : Bool
  tuples : Row D → List (List (Datum D))
  /-- Of the outer row the outer references are read. -/
  tuples_congr : ∀ env env', (∀ c ∈ outerRefs, env c = env' c) → tuples env = tuples env'

namespace Relation

/-- The rows extend the row of outer references. -/
def rows (this : Relation D) (env : Row D) : List (Row D) :=
  (this.tuples env).map fun vals => assign this.output vals env

end Relation

/-- The joins with two logical children. -/
inductive EJoinOp where
  | inner | leftOuter | fullOuter | leftSemi | leftAntiSemi | leftAntiSemiNotIn
  deriving DecidableEq, Repr

/-- Whether the rows of the inner child are in the result. -/
def EJoinOp.keepsInner : EJoinOp → Bool
  | .leftSemi | .leftAntiSemi | .leftAntiSemiNotIn => false
  | _ => true

inductive XformExpr (D : Type) where
  | leaf (relation : Relation D)
  | select (child : XformExpr D) (pexprScalar : XformScalar D)
  | project (child : XformExpr D) (pexprPrL : List (CColRef × XformOperand D))
  /-- A global limit without order, with constant offset and count. -/
  | limit (child : XformExpr D) (offset count : ℤ)
  | gbAgg (pdrgpcr : List CColRef) (pdrgpcrMinimal : Option (List CColRef)) (child : XformExpr D)
      (pexprPrL : List (AggCall D))
  /-- `row_number` in the column `pcr`, partitioned by the columns `pdrgpcr`. -/
  | sequenceProject (child : XformExpr D) (pdrgpcr : List CColRef) (pcr : CColRef)
  | join (op : EJoinOp) (outer inner : XformExpr D) (pexprScalar : XformScalar D)
  | setOp (op : ESetOp) (pdrgpcrOutput : List CColRef) (pdrgpcrLeft pdrgpcrRight : List CColRef)
      (left right : XformExpr D)
  | cteAnchor (id : ℕ) (child : XformExpr D)
  | cteConsumer (id : ℕ) (pdrgpcr : List CColRef)

/-- `CColumnFactory::PcrCreate` (CColumnFactory.cpp:120): a computed column with the next id. -/
def CColumnFactory.PcrCreate (m_aul : ℕ) : CColRef := ⟨m_aul, true, false, true⟩

namespace XformExpr

/-- `DeriveOutputColumns`. -/
def outputColumns : XformExpr D → List CColRef
  | .leaf relation => relation.output
  | .select child _ => child.outputColumns
  | .project child pexprPrL => child.outputColumns ++ pexprPrL.map (·.1)
  | .limit child _ _ => child.outputColumns
  | .gbAgg pdrgpcr _ _ pexprPrL => pdrgpcr ++ pexprPrL.map (·.pcr)
  | .sequenceProject child _ pcr => child.outputColumns ++ [pcr]
  | .join op outer inner _ =>
    if op.keepsInner then outer.outputColumns ++ inner.outputColumns else outer.outputColumns
  | .setOp _ pdrgpcrOutput _ _ _ _ => pdrgpcrOutput
  | .cteAnchor _ child => child.outputColumns
  | .cteConsumer _ pdrgpcr => pdrgpcr

/-- `CLogical::DeriveOuterReferences` (CLogical.cpp:435): what the children and the scalars use and
    no child returns. -/
def outerReferences : XformExpr D → List CColRef
  | .leaf relation => relation.outerRefs
  | .select child pexprScalar =>
    (child.outerReferences ++ pexprScalar.usedColumns).filter (· ∉ child.outputColumns)
  | .project child pexprPrL =>
    (child.outerReferences ++ pexprPrL.flatMap (·.2.usedColumns)).filter
      (· ∉ child.outputColumns)
  | .limit child _ _ => child.outerReferences
  | .gbAgg pdrgpcr _ child pexprPrL =>
    (child.outerReferences ++ pdrgpcr ++ pexprPrL.flatMap fun call =>
      call.args.flatMap XformOperand.usedColumns).filter (· ∉ child.outputColumns)
  | .sequenceProject child pdrgpcr _ =>
    (child.outerReferences ++ pdrgpcr).filter (· ∉ child.outputColumns)
  | .join _ outer inner pexprScalar =>
    (outer.outerReferences ++ inner.outerReferences ++ pexprScalar.usedColumns).filter
      (· ∉ outer.outputColumns ++ inner.outputColumns)
  | .setOp _ _ pdrgpcrLeft pdrgpcrRight left right =>
    (left.outerReferences ++ right.outerReferences ++ pdrgpcrLeft ++ pdrgpcrRight).filter
      (· ∉ left.outputColumns ++ right.outputColumns)
  | .cteAnchor _ child => child.outerReferences
  | .cteConsumer _ _ => []

/-- Every node uses columns that its children return, or outer references. -/
def WellScoped (outerRefs : List CColRef) : XformExpr D → Prop
  | .leaf relation => ∀ c ∈ relation.outerRefs, c ∈ outerRefs
  | .select child pexprScalar => child.WellScoped outerRefs ∧
    ∀ c ∈ pexprScalar.usedColumns, c ∈ child.outputColumns ++ outerRefs
  | .project child pexprPrL => child.WellScoped outerRefs ∧
    ∀ c ∈ pexprPrL.flatMap (·.2.usedColumns), c ∈ child.outputColumns ++ outerRefs
  | .limit child _ _ => child.WellScoped outerRefs
  | .gbAgg pdrgpcr _ child pexprPrL => child.WellScoped outerRefs ∧
    ∀ c ∈ pdrgpcr ++ pexprPrL.flatMap fun call => call.args.flatMap XformOperand.usedColumns,
      c ∈ child.outputColumns ++ outerRefs
  | .sequenceProject child pdrgpcr _ => child.WellScoped outerRefs ∧
    ∀ c ∈ pdrgpcr, c ∈ child.outputColumns ++ outerRefs
  | .join _ outer inner pexprScalar => outer.WellScoped outerRefs ∧ inner.WellScoped outerRefs ∧
    ∀ c ∈ pexprScalar.usedColumns, c ∈ outer.outputColumns ++ inner.outputColumns ++ outerRefs
  | .setOp _ _ pdrgpcrLeft pdrgpcrRight left right =>
    (left.WellScoped outerRefs ∧ ∀ c ∈ pdrgpcrLeft, c ∈ left.outputColumns ++ outerRefs) ∧
      right.WellScoped outerRefs ∧ ∀ c ∈ pdrgpcrRight, c ∈ right.outputColumns ++ outerRefs
  | .cteAnchor _ child => child.WellScoped outerRefs
  | .cteConsumer _ _ => True

/-- The common table expressions that are read. -/
def cteIds : XformExpr D → List ℕ
  | .leaf _ => []
  | .select child _ => child.cteIds
  | .project child _ => child.cteIds
  | .limit child _ _ => child.cteIds
  | .gbAgg _ _ child _ => child.cteIds
  | .sequenceProject child _ _ => child.cteIds
  | .join _ outer inner _ => outer.cteIds ++ inner.cteIds
  | .setOp _ _ _ _ left right => left.cteIds ++ right.cteIds
  | .cteAnchor _ child => child.cteIds
  | .cteConsumer id _ => [id]

end XformExpr

section

variable [LinearOrder D]

/-! ## The engine -/

/-- What the engine decides. -/
structure Engine (D : Type) [LinearOrder D] where
  scalars : ScalarFunctions D
  aggregate : ℕ → AggFunction D
  /-- The order in which a limit meets its rows. -/
  arrange : List (Row D) → List (Row D)
  arrange_perm : ∀ rows, (arrange rows).Perm rows
  /-- The datum of a number. -/
  int8 : ℕ → D
  int8_injective : Function.Injective int8
  /-- The numbers of the rows in their partitions. -/
  rowNumber : CColRef → List CColRef → List (Row D) → List (Row D × ℕ)
  rowNumber_perm : ∀ pcr cols rows, ((rowNumber pcr cols rows).map Prod.fst).Perm rows
  /-- The rows of a partition are numbered from 1 in some order. -/
  rowNumber_numbers : ∀ pcr cols rows row,
    (((rowNumber pcr cols rows).filter fun p => sameOn cols row p.1).map Prod.snd).Perm
      (List.range' 1 (rows.countP (sameOn cols row)))

attribute [local simp] XformExpr.outputColumns XformExpr.outerReferences XformExpr.WellScoped
  XformExpr.cteIds in
theorem sameOn_eq_map (cols : List CColRef) (row : Row D) :
    sameOn cols row = fun row' => decide (cols.map row' = cols.map row) := by
  funext row'
  rw [Bool.eq_iff_iff, sameOn_iff, decide_eq_true_eq, List.map_inj_left]
  exact forall₂_congr fun _ _ => eq_comm

/-- Rows are numbered within the groups of equal tuples. -/
theorem Engine.numbers_rowNumber (ex : Engine D) (pcr : CColRef) (cols : List CColRef)
    (rows : List (Row D)) :
    RowNumbers.Numbers (fun row : Row D => cols.map row) rows (ex.rowNumber pcr cols rows) where
  perm := ex.rowNumber_perm pcr cols rows
  numbers k := by
    by_cases hk : ∃ row ∈ rows, cols.map row = k
    · obtain ⟨row, -, rfl⟩ := hk
      simpa only [sameOn_eq_map] using ex.rowNumber_numbers pcr cols rows row
    · have hrows : rows.countP (fun row => cols.map row = k) = 0 :=
        List.countP_eq_zero.2 fun row hrow h => hk ⟨row, hrow, of_decide_eq_true h⟩
      have hnone : (ex.rowNumber pcr cols rows).filter (fun p => cols.map p.1 = k) = [] := by
        refine List.filter_eq_nil_iff.2 fun p hp h => hk ⟨p.1, ?_, of_decide_eq_true h⟩
        exact (ex.rowNumber_perm pcr cols rows).subset (List.mem_map_of_mem hp)
      simp [hrows, hnone]

/-- `count(*)` over numbers. -/
def AggFunction.count : AggFunction ℕ where
  State := ℕ
  monoid := inferInstance
  transition _ := 1
  final s := (s : ℕ)
  ofState s := (s : ℕ)
  toState datum := datum.getD 0
  toState_ofState _ := rfl

/-- An engine that keeps rows in order and has no opaque scalars. -/
def Engine.inOrder (aggregate : ℕ → AggFunction ℕ) : Engine ℕ where
  scalars := ⟨fun _ _ => ⊥, fun _ _ => none, fun _ _ => none⟩
  aggregate := aggregate
  arrange := id
  arrange_perm _ := List.Perm.refl _
  int8 := id
  int8_injective := Function.injective_id
  rowNumber _ cols rows := RowNumbers.numberRows (fun row => cols.map row) rows
  rowNumber_perm _ cols rows := (RowNumbers.numbers_numberRows _ rows).perm
  rowNumber_numbers _ cols rows row := by
    simpa only [sameOn_eq_map] using
      (RowNumbers.numbers_numberRows (fun row : Row ℕ => cols.map row) rows).numbers (cols.map row)

/-- The value of an aggregate on the rows of a group. -/
def AggCall.eval (ex : Engine D) (rows : List (Row D)) (call : AggCall D) : Datum D :=
  let function := ex.aggregate call.mdidAggFunc
  letI := function.monoid
  let arguments := rows.map fun row => call.args.map (XformOperand.eval ex.scalars row)
  let inputs := if call.fDistinct then arguments.dedup else arguments
  let states :=
    -- the upper stages of a split aggregate read the states of the stage below
    if call.fSplit ∧ call.eaggfuncstage ≠ .local then
      inputs.map fun vals => function.toState (vals.headD ⊥)
    else inputs.map function.transition
  if call.eaggfuncstage = .global then function.final states.sum else function.ofState states.sum

/-! ## Rows -/

/-- The rows of a join; `innerCols` are the columns of the inner rows. -/
def xformJoinRows (S : ScalarFunctions D) (op : EJoinOp) (pexprScalar : XformScalar D)
    (outerCols innerCols : List CColRef) (outer inner : List (Row D)) : List (Row D) :=
  let pair := merge innerCols
  let matched := fun l r => pexprScalar.isTrue S (pair l r)
  match op with
  | .inner => Joins.inner matched pair outer inner
  | .leftOuter => Joins.leftOuter matched pair (merge innerCols · nullRow) outer inner
  | .fullOuter =>
    Joins.fullOuter matched pair (merge innerCols · nullRow) (merge outerCols · nullRow) outer inner
  | .leftSemi => outer.filter fun l => inner.any (matched l)
  | .leftAntiSemi => outer.filter fun l => !inner.any (matched l)
  -- a match that is unknown counts
  | .leftAntiSemiNotIn => outer.filter fun l => inner.all fun r =>
    pexprScalar.eval S (pair l r) = some false

/-- One row for each group; without grouping columns there is one group, even of no rows. -/
def groupRows (ex : Engine D) (env : Row D) (pdrgpcr : List CColRef) (pexprPrL : List (AggCall D))
    (rows : List (Row D)) : List (Row D) :=
  if pdrgpcr = [] then
    [assign (pexprPrL.map (·.pcr)) (pexprPrL.map (AggCall.eval ex rows)) env]
  else
    (dedupOn pdrgpcr rows).map fun row =>
      assign (pexprPrL.map (·.pcr))
        (pexprPrL.map (AggCall.eval ex (rows.filter (sameOn pdrgpcr row)))) (merge pdrgpcr env row)

namespace XformExpr

/-- The rows an expression returns in a row of outer references; `ctes` are the contents of the
    common table expressions. -/
def rows (ex : Engine D) (ctes : ℕ → List (List (Datum D))) (env : Row D) :
    XformExpr D → List (Row D)
  | .leaf relation => relation.rows env
  | .select child pexprScalar => (child.rows ex ctes env).filter (pexprScalar.isTrue ex.scalars)
  | .project child pexprPrL => (child.rows ex ctes env).map fun row =>
    assign (pexprPrL.map (·.1)) (pexprPrL.map fun el => el.2.eval ex.scalars row) row
  | .limit child offset count =>
    ((ex.arrange (child.rows ex ctes env)).drop offset.toNat).take count.toNat
  | .gbAgg pdrgpcr _ child pexprPrL => groupRows ex env pdrgpcr pexprPrL (child.rows ex ctes env)
  | .sequenceProject child pdrgpcr pcr =>
    (ex.rowNumber pcr pdrgpcr (child.rows ex ctes env)).map fun p =>
      assign [pcr] [(ex.int8 p.2 : Datum D)] p.1
  | .join op outer inner pexprScalar =>
    xformJoinRows ex.scalars op pexprScalar outer.outputColumns inner.outputColumns
      (outer.rows ex ctes env) (inner.rows ex ctes env)
  | .setOp op pdrgpcrOutput pdrgpcrLeft pdrgpcrRight left right =>
    setOpRows op pdrgpcrOutput
      [(left.rows ex ctes env).map fun row => assign pdrgpcrOutput (pdrgpcrLeft.map row) env,
        (right.rows ex ctes env).map fun row => assign pdrgpcrOutput (pdrgpcrRight.map row) env]
  | .cteAnchor _ child => child.rows ex ctes env
  | .cteConsumer id pdrgpcr => (ctes id).map fun vals => assign pdrgpcr vals env

attribute [local simp] xformJoinRows rows in
/-- Other common table expressions do not matter. -/
theorem rows_congr_ctes {ex : Engine D} {ctes ctes' : ℕ → List (List (Datum D))} {env : Row D}
    {pexpr : XformExpr D} (h : ∀ id ∈ pexpr.cteIds, ctes id = ctes' id) :
    pexpr.rows ex ctes env = pexpr.rows ex ctes' env := by
  induction pexpr with
  | leaf relation => rfl
  | select child pexprScalar ih | project child pexprPrL ih | limit child offset count ih
  | gbAgg pdrgpcr pdrgpcrMinimal child pexprPrL ih
  | sequenceProject child pdrgpcr pcr ih => rw [rows, rows, ih h]
  | join op outer inner pexprScalar ihOuter ihInner =>
    rw [cteIds, List.forall_mem_append] at h
    rw [rows, rows, ihOuter h.1, ihInner h.2]
  | setOp op pdrgpcrOutput pdrgpcrLeft pdrgpcrRight left right ihLeft ihRight =>
    rw [cteIds, List.forall_mem_append] at h
    rw [rows, rows, ihLeft h.1, ihRight h.2]
  | cteAnchor id child ih => exact ih h
  | cteConsumer id pdrgpcr => rw [rows, rows, h id (List.mem_singleton_self _)]

end XformExpr

end

/-! ## The same rows -/

theorem merge_congr {cols cols' : List CColRef} (h : ∀ c, c ∈ cols ↔ c ∈ cols') :
    (merge cols : Row D → Row D → Row D) = merge cols' := by
  funext row row' c
  by_cases hc : c ∈ cols
  · rw [merge_of_mem hc, merge_of_mem ((h c).1 hc)]
  · rw [merge_of_notMem hc, merge_of_notMem (mt (h c).2 hc)]

/-- The tuples of some columns. -/
def tuplesOn (cols : List CColRef) (rows : List (Row D)) : List (List (Datum D)) :=
  rows.map fun row => cols.map row

theorem tuplesOn_append (cols : List CColRef) (rows rows' : List (Row D)) :
    tuplesOn cols (rows ++ rows') = tuplesOn cols rows ++ tuplesOn cols rows' := List.map_append

/-- The same bag of tuples. -/
def SameRows (cols : List CColRef) (rows rows' : List (Row D)) : Prop :=
  (tuplesOn cols rows).Perm (tuplesOn cols rows')

instance [DecidableEq D] (cols : List CColRef) (rows rows' : List (Row D)) :
    Decidable (SameRows cols rows rows') :=
  inferInstanceAs (Decidable ((tuplesOn cols rows).Perm (tuplesOn cols rows')))

namespace SameRows

variable {cols : List CColRef} {rows rows' rows'' : List (Row D)}

theorem refl (cols : List CColRef) (rows : List (Row D)) : SameRows cols rows rows :=
  List.Perm.refl _

theorem symm (h : SameRows cols rows rows') : SameRows cols rows' rows := List.Perm.symm h

theorem trans (h : SameRows cols rows rows') (h' : SameRows cols rows' rows'') :
    SameRows cols rows rows'' := List.Perm.trans h h'

theorem of_perm (h : rows.Perm rows') : SameRows cols rows rows' := h.map _

theorem length_eq (h : SameRows cols rows rows') : rows.length = rows'.length := by
  simpa [tuplesOn] using List.Perm.length_eq h

/-- Fewer columns tell less. -/
theorem mono {cols' : List CColRef} (h : SameRows cols rows rows') (hsub : cols' ⊆ cols) :
    SameRows cols' rows rows' := by
  have hproject : ∀ l : List (Row D), tuplesOn cols' l = (tuplesOn cols l).map fun vals =>
      cols'.map fun c => vals.getD (cols.idxOf c) ⊥ := by
    intro l
    rw [tuplesOn, tuplesOn, List.map_map]
    refine List.map_congr_left fun row _ => List.map_congr_left fun c hc => ?_
    have hlt : cols.idxOf c < cols.length := List.idxOf_lt_length_of_mem (hsub hc)
    simp [List.getD, hlt]
  rw [SameRows, hproject, hproject]
  exact h.map _

end SameRows

/-- Rows that agree on the columns have the same tuples. -/
theorem tuplesOn_map {cols : List CColRef} {rows : List (Row D)} {f : Row D → Row D}
    (h : ∀ row ∈ rows, ∀ c ∈ cols, f row c = row c) :
    tuplesOn cols (rows.map f) = tuplesOn cols rows := by
  rw [tuplesOn, tuplesOn, List.map_map]
  exact List.map_congr_left fun row hrow => List.map_congr_left (h row hrow)

/-- An expression that can stand for another one: every node has its columns, it returns the output
    columns, and the same rows on these. -/
structure XformExpr.Rewrites [LinearOrder D] (ex : Engine D) (ctes : ℕ → List (List (Datum D)))
    (env : Row D) (outerRefs : List CColRef) (pexpr pexprNew : XformExpr D) : Prop where
  wellScoped : pexprNew.WellScoped outerRefs
  output : pexpr.outputColumns ⊆ pexprNew.outputColumns
  rows : SameRows pexpr.outputColumns (pexprNew.rows ex ctes env) (pexpr.rows ex ctes env)

end BossOptimizer

import BossOptimizer.Base.ScalarExpr

/-!
# Logical expressions

The logical operators whose properties the optimizer derives bottom-up: base and constant tables,
selections, projections, global aggregates, limits, set operations and joins. The scalar children of
an operator are arguments of its constructor. A table descriptor carries what the derivation asks
the metadata for: the columns, the key sets and the check constraints, which are translated for the
columns they are put on.
-/

namespace BossOptimizer

/-- `CColumnDescriptor`. -/
structure CColumnDescriptor where
  isNullable : Bool
  isSystemColumn : Bool
  deriving DecidableEq, Repr

/-- `CTableDescriptor`, with the check constraints of the relation
    (`IMDCheckConstraint::GetCheckConstraintExpr`) as functions of the non-system columns. -/
structure CTableDescriptor (D : Type) where
  mdid : ℕ
  pdrgpcoldesc : List CColumnDescriptor
  pdrgpbsKeys : List (List ℕ)
  checkConstraints : List (List CColRef → ScalarExpr D)

/-- The scalar of a project element. -/
inductive ProjectedScalar (D : Type) where
  | operand (pexprScalar : ScalarOperand D)
  /-- A set-returning function (`DeriveHasNonScalarFunction`). -/
  | setReturning (id : ℕ) (used : List CColRef)

/-- `CScalarProjectElement`. -/
structure CScalarProjectElement (D : Type) where
  pcr : CColRef
  scalar : ProjectedScalar D

/-- An element of the project list of an aggregate: a column and an aggregate function. -/
structure AggElement where
  pcr : CColRef
  id : ℕ
  deriving DecidableEq, Repr

/-- The number of rows of a limit or its offset: an Int8 or Int4 constant, `none` the NULL datum,
    or any other scalar. -/
inductive LimitScalar where
  | int8 (value : Option (BitVec 64))
  | int4 (value : Option (BitVec 32))
  | other (id : ℕ)
  deriving DecidableEq, Repr

inductive ESetOp where
  | union | unionAll | intersect | intersectAll | difference | differenceAll
  deriving DecidableEq, Repr

/-- The joins with two logical children. -/
inductive EJoin where
  | inner | leftOuter | fullOuter
  deriving DecidableEq, Repr

inductive LogicalExpr (D : Type) where
  /-- `pdrgpcrUnused` are the columns with `CColRef::GetUsage() == EUnused`. -/
  | get (ptabdesc : CTableDescriptor D) (pdrgpcrOutput pdrgpcrUnused : List CColRef)
  | constTableGet (pdrgpcrOutput : List CColRef) (pdrgpdrgpdatum : List (List (Datum D)))
  | select (child : LogicalExpr D) (pexprScalar : ScalarExpr D)
  | project (child : LogicalExpr D) (pexprPrL : List (CScalarProjectElement D))
  | gbAgg (pdrgpcr : List CColRef) (child : LogicalExpr D) (pexprPrL : List AggElement)
  | limit (id : ℕ) (child : LogicalExpr D) (pexprOffset pexprCount : LimitScalar)
  | setOp (op : ESetOp) (pdrgpcrOutput : List CColRef) (pdrgpdrgpcrInput : List (List CColRef))
      (children : List (LogicalExpr D))
  | join (op : EJoin) (left right : LogicalExpr D) (pexprScalar : ScalarExpr D)
  /-- With `m_lojChildPredIndexes` the scalar child is a `CScalarNAryJoinPredList`: the inner join
      predicates and the ON predicates, counted from 1. -/
  | naryJoin (children : List (LogicalExpr D)) (lojChildPredIndexes : Option (List ℕ))
      (innerJoinPreds : ScalarExpr D) (onPreds : List (ScalarExpr D))

namespace LogicalExpr

variable {D : Type}

variable {P : LogicalExpr D → Prop}

/-- Induction over logical expressions: the children of set operations and n-ary joins are lists. -/
theorem induction (get : ∀ ptabdesc out unused, P (.get ptabdesc out unused))
    (constTableGet : ∀ out data, P (.constTableGet out data))
    (select : ∀ child pexprScalar, P child → P (.select child pexprScalar))
    (project : ∀ child pexprPrL, P child → P (.project child pexprPrL))
    (gbAgg : ∀ pdrgpcr child pexprPrL, P child → P (.gbAgg pdrgpcr child pexprPrL))
    (limit : ∀ id child offset count, P child → P (.limit id child offset count))
    (setOp : ∀ op out input children, (∀ e ∈ children, P e) → P (.setOp op out input children))
    (join : ∀ op left right pexprScalar, P left → P right → P (.join op left right pexprScalar))
    (naryJoin : ∀ children idx preds on, (∀ e ∈ children, P e) →
      P (.naryJoin children idx preds on)) : ∀ e, P e
  | .get ptabdesc out unused => get ptabdesc out unused
  | .constTableGet out data => constTableGet out data
  | .select child p => select child p
      (induction get constTableGet select project gbAgg limit setOp join naryJoin child)
  | .project child l => project child l
      (induction get constTableGet select project gbAgg limit setOp join naryJoin child)
  | .gbAgg cols child l => gbAgg cols child l
      (induction get constTableGet select project gbAgg limit setOp join naryJoin child)
  | .limit id child offset count => limit id child offset count
      (induction get constTableGet select project gbAgg limit setOp join naryJoin child)
  | .setOp op out input children => setOp op out input children fun e _ =>
      induction get constTableGet select project gbAgg limit setOp join naryJoin e
  | .join op left right p => join op left right p
      (induction get constTableGet select project gbAgg limit setOp join naryJoin left)
      (induction get constTableGet select project gbAgg limit setOp join naryJoin right)
  | .naryJoin children idx preds on => naryJoin children idx preds on fun e _ =>
      induction get constTableGet select project gbAgg limit setOp join naryJoin e

/-! ## Subtrees -/

/-- The logical children. -/
def children : LogicalExpr D → List (LogicalExpr D)
  | .get .. => []
  | .constTableGet .. => []
  | .select child _ => [child]
  | .project child _ => [child]
  | .gbAgg _ child _ => [child]
  | .limit _ child _ _ => [child]
  | .setOp _ _ _ children => children
  | .join _ left right _ => [left, right]
  | .naryJoin children _ _ _ => children

inductive SubtreeOf (s : LogicalExpr D) : LogicalExpr D → Prop
  | refl : SubtreeOf s s
  | child {e c : LogicalExpr D} (h : c ∈ e.children) (hs : SubtreeOf s c) : SubtreeOf s e

/-- A property of all subtrees. -/
def Everywhere (P : LogicalExpr D → Prop) (e : LogicalExpr D) : Prop := ∀ s, SubtreeOf s e → P s

attribute [local simp] children in
theorem Everywhere.here {e : LogicalExpr D} (h : Everywhere P e) : P e :=
  h e .refl

theorem Everywhere.child {e c : LogicalExpr D} (h : Everywhere P e)
    (hc : c ∈ e.children) : Everywhere P c := fun s hs => h s (.child hc hs)

theorem SubtreeOf.trans {s t e : LogicalExpr D} (hs : SubtreeOf s t) (ht : SubtreeOf t e) :
    SubtreeOf s e := by
  induction ht with
  | refl => exact hs
  | child hc _ ih => exact .child hc ih

theorem Everywhere.everywhere {e : LogicalExpr D}
    (h : Everywhere P e) : Everywhere (Everywhere P) e := fun _ ht s hs => h s (hs.trans ht)

theorem everywhere_iff {e : LogicalExpr D} :
    Everywhere P e ↔ P e ∧ ∀ c ∈ e.children, Everywhere P c := by
  refine ⟨fun h => ⟨h.here, fun c hc => h.child hc⟩, ?_⟩
  rintro ⟨he, hchildren⟩ s hs
  cases hs with
  | refl => exact he
  | child hc hs => exact hchildren _ hc s hs

section

variable {P : LogicalExpr D → Prop}

@[simp] theorem everywhere_get {ptabdesc : CTableDescriptor D} {out unused : List CColRef} :
    Everywhere P (.get ptabdesc out unused) ↔ P (.get ptabdesc out unused) := by
  rw [everywhere_iff]
  simp [children]

@[simp] theorem everywhere_constTableGet {out : List CColRef} {data : List (List (Datum D))} :
    Everywhere P (.constTableGet out data) ↔ P (.constTableGet out data) := by
  rw [everywhere_iff]
  simp [children]

@[simp] theorem everywhere_select {child : LogicalExpr D} {p : ScalarExpr D} :
    Everywhere P (.select child p) ↔ P (.select child p) ∧ Everywhere P child := by
  rw [everywhere_iff]
  simp [children]

@[simp] theorem everywhere_project {child : LogicalExpr D} {l : List (CScalarProjectElement D)} :
    Everywhere P (.project child l) ↔ P (.project child l) ∧ Everywhere P child := by
  rw [everywhere_iff]
  simp [children]

@[simp] theorem everywhere_limit {id : ℕ} {child : LogicalExpr D} {offset count : LimitScalar} :
    Everywhere P (.limit id child offset count) ↔
      P (.limit id child offset count) ∧ Everywhere P child := by
  rw [everywhere_iff]
  simp [children]

@[simp] theorem everywhere_join {op : EJoin} {left right : LogicalExpr D} {p : ScalarExpr D} :
    Everywhere P (.join op left right p) ↔
      P (.join op left right p) ∧ Everywhere P left ∧ Everywhere P right := by
  rw [everywhere_iff]
  simp [children]

end

/-- Induction over the children, whatever the operator. -/
theorem induction_children (h : ∀ e, (∀ c ∈ e.children, P c) → P e) :
    ∀ e, P e := by
  intro e
  induction e using LogicalExpr.induction <;> apply h <;> simp_all [children]

/-- What every node derives from its children holds in all subtrees. -/
theorem everywhere_of_step {P Q : LogicalExpr D → Prop}
    (step : ∀ e, Q e → (∀ c ∈ e.children, P c) → P e) (e : LogicalExpr D) (h : Everywhere Q e) :
    Everywhere P e := by
  induction e using induction_children with
  | h e ih =>
    have hchildren : ∀ c ∈ e.children, Everywhere P c := fun c hc => ih c hc (h.child hc)
    exact everywhere_iff.2 ⟨step e h.here fun c hc => (hchildren c hc).here, hchildren⟩

/-! ## Columns -/

mutual

/-- `DeriveOutputColumns`. -/
def deriveOutputColumns : LogicalExpr D → List CColRef
  | .get _ out _ => out
  | .constTableGet out _ => out
  | .select child _ => child.deriveOutputColumns
  | .project child pexprPrL => child.deriveOutputColumns ++ pexprPrL.map (·.pcr)
  | .gbAgg pdrgpcr child pexprPrL =>
    pdrgpcr.filter (· ∈ child.deriveOutputColumns) ++ pexprPrL.map (·.pcr)
  | .limit _ child _ _ => child.deriveOutputColumns
  | .setOp _ out _ _ => out
  | .join _ left right _ => left.deriveOutputColumns ++ right.deriveOutputColumns
  | .naryJoin children _ _ _ => outputColumnsAll children

def outputColumnsAll : List (LogicalExpr D) → List CColRef
  | [] => []
  | e :: es => e.deriveOutputColumns ++ outputColumnsAll es

end

attribute [local simp] deriveOutputColumns outputColumnsAll in
theorem mem_outputColumnsAll {c : CColRef} {es : List (LogicalExpr D)} :
    c ∈ outputColumnsAll es ↔ ∃ e ∈ es, c ∈ e.deriveOutputColumns := by
  induction es with
  | nil => simp [outputColumnsAll]
  | cons e es ih => simp [outputColumnsAll, ih]

mutual

/-- The columns that an expression mentions. -/
def colrefs : LogicalExpr D → Set CColRef
  | .get _ out _ => {c | c ∈ out}
  | .constTableGet out _ => {c | c ∈ out}
  | .select child pexprScalar => child.colrefs ∪ {c | c ∈ pexprScalar.usedColumns}
  | .project child pexprPrL => child.colrefs ∪ {c | ∃ el ∈ pexprPrL, c = el.pcr}
  | .gbAgg pdrgpcr child pexprPrL =>
    child.colrefs ∪ {c | c ∈ pdrgpcr} ∪ {c | ∃ el ∈ pexprPrL, c = el.pcr}
  | .limit _ child _ _ => child.colrefs
  | .setOp _ out _ children => {c | c ∈ out} ∪ colrefsAll children
  | .join _ left right pexprScalar =>
    left.colrefs ∪ right.colrefs ∪ {c | c ∈ pexprScalar.usedColumns}
  | .naryJoin children _ innerJoinPreds onPreds =>
    colrefsAll children ∪ {c | c ∈ innerJoinPreds.usedColumns} ∪
      {c | ∃ e ∈ onPreds, c ∈ e.usedColumns}

def colrefsAll : List (LogicalExpr D) → Set CColRef
  | [] => ∅
  | e :: es => e.colrefs ∪ colrefsAll es

end

attribute [local simp] colrefs colrefsAll in
theorem mem_colrefsAll {c : CColRef} {es : List (LogicalExpr D)} :
    c ∈ colrefsAll es ↔ ∃ e ∈ es, c ∈ e.colrefs := by
  induction es with
  | nil => simp [colrefsAll]
  | cons e es ih => simp [colrefsAll, ih]

mutual

/-- The columns whose values a row carries: the output columns and, below a set operation, the
    columns that its children return or carry. -/
def rowColumns : LogicalExpr D → List CColRef
  | .get _ out _ => out
  | .constTableGet out _ => out
  | .select child _ => child.rowColumns
  | .project child pexprPrL => child.rowColumns ++ pexprPrL.map (·.pcr)
  | .gbAgg pdrgpcr _ pexprPrL => pdrgpcr ++ pexprPrL.map (·.pcr)
  | .limit _ child _ _ => child.rowColumns
  | .setOp _ out _ children => out ++ rowColumnsAll children
  | .join _ left right _ => left.rowColumns ++ right.rowColumns
  | .naryJoin children _ _ _ => rowColumnsAll children

def rowColumnsAll : List (LogicalExpr D) → List CColRef
  | [] => []
  | e :: es => e.rowColumns ++ rowColumnsAll es

end

attribute [local simp] rowColumns rowColumnsAll in
theorem mem_rowColumnsAll {c : CColRef} {es : List (LogicalExpr D)} :
    c ∈ rowColumnsAll es ↔ ∃ e ∈ es, c ∈ e.rowColumns := by
  induction es with
  | nil => simp [rowColumnsAll]
  | cons e es ih => simp [rowColumnsAll, ih]

theorem deriveOutputColumns_subset_rowColumns (e : LogicalExpr D) :
    ∀ c ∈ e.deriveOutputColumns, c ∈ e.rowColumns := by
  induction e using LogicalExpr.induction with
  | get | constTableGet => exact fun c hc => hc
  | select child p ih => exact ih
  | limit id child offset count ih => exact ih
  | project child l ih => exact fun c hc => List.mem_append.2 ((List.mem_append.1 hc).imp_left (ih c))
  | gbAgg cols child l ih =>
    exact fun c hc => List.mem_append.2 ((List.mem_append.1 hc).imp_left List.mem_of_mem_filter)
  | setOp op out input children ih => exact fun c hc => List.mem_append_left _ hc
  | join op left right p ihl ihr =>
    exact fun c hc => List.mem_append.2 ((List.mem_append.1 hc).imp (ihl c) (ihr c))
  | naryJoin children idx preds on ih =>
    intro c hc
    obtain ⟨e, he, hc⟩ := mem_outputColumnsAll.1 hc
    exact mem_rowColumnsAll.2 ⟨e, he, ih e he c hc⟩

theorem rowColumns_subset_colrefs (e : LogicalExpr D) : ∀ c ∈ e.rowColumns, c ∈ e.colrefs := by
  induction e using LogicalExpr.induction with
  | get | constTableGet => exact fun c hc => hc
  | select child p ih => exact fun c hc => .inl (ih c hc)
  | limit id child offset count ih => exact ih
  | project child l ih =>
    intro c hc
    rcases List.mem_append.1 hc with hc | hc
    · exact .inl (ih c hc)
    · obtain ⟨el, hel, rfl⟩ := List.mem_map.1 hc
      exact .inr ⟨el, hel, rfl⟩
  | gbAgg cols child l ih =>
    intro c hc
    rcases List.mem_append.1 hc with hc | hc
    · exact .inl (.inr hc)
    · obtain ⟨el, hel, rfl⟩ := List.mem_map.1 hc
      exact .inr ⟨el, hel, rfl⟩
  | setOp op out input children ih =>
    intro c hc
    rcases List.mem_append.1 hc with hc | hc
    · exact .inl hc
    · obtain ⟨e, he, hc⟩ := mem_rowColumnsAll.1 hc
      exact .inr (mem_colrefsAll.2 ⟨e, he, ih e he c hc⟩)
  | join op left right p ihl ihr =>
    intro c hc
    rcases List.mem_append.1 hc with hc | hc
    · exact .inl (.inl (ihl c hc))
    · exact .inl (.inr (ihr c hc))
  | naryJoin children idx preds on ih =>
    intro c hc
    obtain ⟨e, he, hc⟩ := mem_rowColumnsAll.1 hc
    exact .inl (.inl (mem_colrefsAll.2 ⟨e, he, ih e he c hc⟩))

theorem deriveOutputColumns_subset_colrefs (e : LogicalExpr D) :
    ∀ c ∈ e.deriveOutputColumns, c ∈ e.colrefs :=
  fun c hc => rowColumns_subset_colrefs e c (deriveOutputColumns_subset_rowColumns e c hc)

/-- `CLogicalProject`: a set-returning function in the list (`DeriveHasNonScalarFunction`). -/
def deriveHasNonScalarFunction (pexprPrL : List (CScalarProjectElement D)) : Bool :=
  pexprPrL.any fun el => match el.scalar with
    | .operand _ => false
    | .setReturning _ _ => true

/-- `CLogicalNAryJoin::IsInnerJoinChild` (CLogicalNAryJoin.h:132). -/
def isInnerJoinChild (lojChildPredIndexes : Option (List ℕ)) (child : ℕ) : Bool :=
  match lojChildPredIndexes with
  | none => true
  | some idx => idx.getD child 0 = 0

/-- The ON predicate of a child that is the right side of a left outer join. -/
def onPredicate (lojChildPredIndexes : Option (List ℕ)) (onPreds : List (ScalarExpr D))
    (child : ℕ) : Option (ScalarExpr D) :=
  match lojChildPredIndexes with
  | none => none
  | some idx =>
    match idx.getD child 0 with
    | 0 => none
    | k + 1 => some (onPreds.getD k (.const (some true)))

theorem onPredicate_eq_none {idx : Option (List ℕ)} {onPreds : List (ScalarExpr D)} {j : ℕ} :
    onPredicate idx onPreds j = none ↔ isInnerJoinChild idx j = true := by
  unfold onPredicate isInnerJoinChild
  cases idx with
  | none => simp
  | some idx =>
    simp only [decide_eq_true_eq]
    cases idx.getD j 0 <;> simp

theorem onPredicate_eq_some {idx : Option (List ℕ)} {onPreds : List (ScalarExpr D)} {j : ℕ}
    {on : ScalarExpr D} (h : onPredicate idx onPreds j = some on) :
    isInnerJoinChild idx j = false := by
  have hnone : onPredicate idx onPreds j ≠ none := by simp [h]
  rw [← Bool.not_eq_true]
  exact fun hinner => hnone (onPredicate_eq_none.2 hinner)

end LogicalExpr

end BossOptimizer

import BossOptimizer.Lib.Groups
import BossOptimizer.Operators.CPropConstraint

/-!
# Expressions of subquery unnesting

The part of the expression tree that replaces a subquery in a value context: a relation, a filter,
a projection of one column, `count` and `sum` by group, and an outer apply, whose inner child is
evaluated in each row of the outer one. A relation stands for the logical children of the
subquery's parent: what it returns in a row of outer references, with the properties derived for
it as fields.

Rows hold the data of the query and the Booleans and counts the rewrite adds.
-/

namespace BossOptimizer

variable {D : Type}

inductive SqlValue (D : Type) where
  | bool (b : Bool)
  | int (n : ℤ)
  | data (d : D)
  deriving DecidableEq, Repr

namespace SqlValue

/-- A truth value as the value of a column: unknown is NULL. -/
def ofTruth : Truth → Datum (SqlValue D)
  | none => ⊥
  | some b => (.bool b : SqlValue D)

/-- A value read as a truth value. -/
def toTruth : Datum (SqlValue D) → Truth
  | some (.bool b) => some b
  | _ => none

@[simp] theorem ofTruth_none : (ofTruth none : Datum (SqlValue D)) = ⊥ := rfl

@[simp] theorem ofTruth_some (b : Bool) : (ofTruth (some b) : Datum (SqlValue D)) = (bool b : SqlValue D) := rfl

theorem ofTruth_injective : Function.Injective (ofTruth (D := D)) := by
  rintro (_ | b) (_ | b') h
  · rfl
  · simp at h
  · simp at h
  · simpa using h

@[simp] theorem ofTruth_eq_bot {t : Truth} : (ofTruth t : Datum (SqlValue D)) = ⊥ ↔ t = none := by
  cases t <;> simp

end SqlValue

/-- What the catalog says about operators and functions (`CMDAccessor`). -/
structure Catalog (D : Type) where
  compare : ℕ → Datum (SqlValue D) → Datum (SqlValue D) → Truth
  /-- `IMDScalarOp::ParseCmpType` is `EcmptEq`. -/
  isEquality : ℕ → Bool
  /-- `IMDScalarOp::GetInverseOpMdid`, the negator; `none` is an invalid id. -/
  getInverseOpMdid : ℕ → Option ℕ
  /-- The function of the operator is `EfsVolatile`. -/
  fVolatile : ℕ → Bool
  /-- Scalars the rewrite does not look into, from the values of their columns. -/
  scalar : ℕ → List (Datum (SqlValue D)) → Datum (SqlValue D)

/-! ## Scalars -/

inductive ApplyScalar (D : Type) where
  | ident (colref : CColRef)
  | constBool (value : Option Bool)
  | constInt (value : ℤ)
  | cmp (mdidOp : ℕ) (left right : ApplyScalar D)
  /-- `CUtils::PexprScalarEqCmp` on the integers of the rewrite. -/
  | eqCmp (left right : ApplyScalar D)
  /-- `CUtils::PexprScalarCmp` with `EcmptG` on the integers of the rewrite. -/
  | gCmp (left right : ApplyScalar D)
  /-- `CScalarBoolOp` with `EboolopNot`. -/
  | boolNot (child : ApplyScalar D)
  /-- `CScalarBoolOp` with `EboolopOr`. -/
  | boolOr (left right : ApplyScalar D)
  | isNull (child : ApplyScalar D)
  /-- `CScalarBooleanTest` with `EbtIsNotFalse`. -/
  | isNotFalse (child : ApplyScalar D)
  | scalarIf (cond thenBranch elseBranch : ApplyScalar D)
  | other (id : ℕ) (used : List CColRef)

/-- An integer comparison: unknown as soon as one side is not an integer. -/
def int8Cmp (f : ℤ → ℤ → Bool) : Datum (SqlValue D) → Datum (SqlValue D) → Truth
  | some (.int m), some (.int n) => some (f m n)
  | _, _ => none

namespace ApplyScalar

def usedColumns : ApplyScalar D → List CColRef
  | .ident colref => [colref]
  | .constBool _ => []
  | .constInt _ => []
  | .cmp _ left right => left.usedColumns ++ right.usedColumns
  | .eqCmp left right => left.usedColumns ++ right.usedColumns
  | .gCmp left right => left.usedColumns ++ right.usedColumns
  | .boolNot child => child.usedColumns
  | .boolOr left right => left.usedColumns ++ right.usedColumns
  | .isNull child => child.usedColumns
  | .isNotFalse child => child.usedColumns
  | .scalarIf cond thenBranch elseBranch =>
    cond.usedColumns ++ thenBranch.usedColumns ++ elseBranch.usedColumns
  | .other _ used => used

variable [DecidableEq D]

def eval (cat : Catalog D) (row : Row (SqlValue D)) : ApplyScalar D → Datum (SqlValue D)
  | .ident colref => row colref
  | .constBool value => SqlValue.ofTruth value
  | .constInt value => (.int value : SqlValue D)
  | .cmp mdidOp left right => SqlValue.ofTruth (cat.compare mdidOp (left.eval cat row) (right.eval cat row))
  | .eqCmp left right => SqlValue.ofTruth (int8Cmp (· == ·) (left.eval cat row) (right.eval cat row))
  | .gCmp left right => SqlValue.ofTruth (int8Cmp (· > ·) (left.eval cat row) (right.eval cat row))
  | .boolNot child => SqlValue.ofTruth (SqlValue.toTruth (child.eval cat row)).not
  | .boolOr left right => SqlValue.ofTruth
    (Truth.any [SqlValue.toTruth (left.eval cat row), SqlValue.toTruth (right.eval cat row)])
  | .isNull child => (.bool (child.eval cat row = ⊥) : SqlValue D)
  | .isNotFalse child => (.bool (child.eval cat row ≠ (.bool false : SqlValue D)) : SqlValue D)
  | .scalarIf cond thenBranch elseBranch =>
    if cond.eval cat row = (.bool true : SqlValue D) then thenBranch.eval cat row
    else elseBranch.eval cat row
  | .other id used => cat.scalar id (used.map row)

attribute [local simp] usedColumns eval in
/-- A scalar depends on its columns only. -/
theorem eval_congr {cat : Catalog D} {row row' : Row (SqlValue D)} {pexpr : ApplyScalar D}
    (h : ∀ c ∈ pexpr.usedColumns, row c = row' c) : pexpr.eval cat row = pexpr.eval cat row' := by
  induction pexpr with
  | ident colref => exact h colref (by simp [usedColumns])
  | constBool _ => rfl
  | constInt _ => rfl
  | cmp _ left right ihl ihr | eqCmp left right ihl ihr | gCmp left right ihl ihr
  | boolOr left right ihl ihr =>
    simp only [eval, ihl fun c hc => h c (by simp [usedColumns, hc]),
      ihr fun c hc => h c (by simp [usedColumns, hc])]
  | boolNot child ih | isNull child ih | isNotFalse child ih => simp only [eval, ih h]
  | scalarIf cond thenBranch elseBranch ihc iht ihe =>
    simp only [eval, ihc fun c hc => h c (by simp [usedColumns, hc]),
      iht fun c hc => h c (by simp [usedColumns, hc]),
      ihe fun c hc => h c (by simp [usedColumns, hc])]
  | other id used => exact congrArg (cat.scalar id) (List.map_congr_left h)

/-- The rows a filter keeps. -/
def isTrue (cat : Catalog D) (pexpr : ApplyScalar D) (row : Row (SqlValue D)) : Bool :=
  pexpr.eval cat row = (.bool true : SqlValue D)

end ApplyScalar

/-! ## Relations -/

/-- A logical expression with its derived properties. In a row of outer references it returns
    tuples of its output columns. -/
structure LogicalLeaf (D : Type) where
  output : List CColRef
  tuples : Row (SqlValue D) → List (List (Datum (SqlValue D)))
  hasOuterRefs : Bool
  notNullColumns : List CColRef
  keyCollection : Option CKeyCollection
  notNull_output : ∀ c ∈ notNullColumns, c ∈ output
  notNull_sound : ∀ env, ∀ vals ∈ tuples env, ∀ c ∈ notNullColumns, assign output vals env c ≠ ⊥
  key_output : ∀ pkc ∈ keyCollection, ∀ key ∈ pkc, ∀ c ∈ key, c ∈ output
  key_ne_nil : ∀ pkc ∈ keyCollection, ∀ key ∈ pkc, key ≠ []
  key_sound : ∀ pkc ∈ keyCollection, ∀ key ∈ pkc, ∀ env, (tuples env).Pairwise fun vals vals' =>
    ∃ c ∈ key, assign output vals env c ≠ assign output vals' env c

namespace LogicalLeaf

/-- The rows extend the row of outer references. -/
def rows (this : LogicalLeaf D) (env : Row (SqlValue D)) : List (Row (SqlValue D)) :=
  (this.tuples env).map fun vals => assign this.output vals env

variable {this : LogicalLeaf D} {env row : Row (SqlValue D)}

theorem rows_of_notMem (h : row ∈ this.rows env) {c : CColRef} (hc : c ∉ this.output) :
    row c = env c := by
  obtain ⟨vals, -, rfl⟩ := List.mem_map.1 h
  exact assign_of_notMem hc

theorem ne_bot_of_notNull (h : row ∈ this.rows env) {c : CColRef} (hc : c ∈ this.notNullColumns) :
    row c ≠ ⊥ := by
  obtain ⟨vals, hvals, rfl⟩ := List.mem_map.1 h
  exact this.notNull_sound env vals hvals c hc

/-- Different rows have different keys. -/
theorem pairwise_key {pkc : CKeyCollection} (hpkc : this.keyCollection = some pkc)
    {key : List CColRef} (hkey : key ∈ pkc) :
    (this.rows env).Pairwise fun row row' => ∃ c ∈ key, row c ≠ row' c :=
  List.pairwise_map.2 (this.key_sound pkc hpkc key hkey env)

end LogicalLeaf

/-! ## Expressions -/

inductive CScalarAggFunc where
  | countStar
  | count (colref : CColRef)
  | sum (colref : CColRef)
  deriving DecidableEq, Repr

namespace CScalarAggFunc

/-- `sum` adds up integers. -/
def toInt : Datum (SqlValue D) → Option ℤ
  | some (.int n) => some n
  | _ => none

/-- `count(*)` counts the rows, `count` those where the column is not NULL; `sum` of no value is
    NULL. -/
def eval [DecidableEq D] (rows : List (Row (SqlValue D))) : CScalarAggFunc → Datum (SqlValue D)
  | .countStar => (.int rows.length : SqlValue D)
  | .count colref => (.int (rows.countP fun row => row colref ≠ ⊥) : SqlValue D)
  | .sum colref =>
    match rows.filterMap fun row => toInt (row colref) with
    | [] => ⊥
    | ns => (.int ns.sum : SqlValue D)

end CScalarAggFunc

inductive ApplyExpr (D : Type) where
  | leaf (relation : LogicalLeaf D)
  | select (child : ApplyExpr D) (pexprScalar : ApplyScalar D)
  | project (child : ApplyExpr D) (pcr : CColRef) (pexprScalar : ApplyScalar D)
  /-- A projection of several columns. -/
  | projects (child : ApplyExpr D) (pexprPrL : List (CColRef × ApplyScalar D))
  | gbAgg (pdrgpcr : List CColRef) (child : ApplyExpr D)
      (pexprPrL : List (CColRef × CScalarAggFunc))
  | leftOuterApply (outer inner : ApplyExpr D) (pcrInner : CColRef)

namespace ApplyExpr

def outputColumns : ApplyExpr D → List CColRef
  | .leaf relation => relation.output
  | .select child _ => child.outputColumns
  | .project child pcr _ => child.outputColumns ++ [pcr]
  | .projects child pexprPrL => child.outputColumns ++ pexprPrL.map (·.1)
  | .gbAgg pdrgpcr _ pexprPrL => pdrgpcr ++ pexprPrL.map (·.1)
  | .leftOuterApply outer inner _ => outer.outputColumns ++ inner.outputColumns

/-- The row of a group. -/
def groupRow [DecidableEq D] (env : Row (SqlValue D)) (pdrgpcr : List CColRef)
    (pexprPrL : List (CColRef × CScalarAggFunc)) (group : List (Row (SqlValue D)))
    (row : Row (SqlValue D)) : Row (SqlValue D) :=
  assign (pexprPrL.map (·.1)) (pexprPrL.map (·.2.eval group)) (merge pdrgpcr env row)

section

variable [DecidableEq D] {env row : Row (SqlValue D)} {group : List (Row (SqlValue D))}
  {pdrgpcr : List CColRef} {pexprPrL : List (CColRef × CScalarAggFunc)} {c : CColRef}

attribute [local simp] outputColumns in
theorem groupRow_of_mem (hc : c ∈ pdrgpcr) (hagg : c ∉ pexprPrL.map (·.1)) :
    groupRow env pdrgpcr pexprPrL group row c = row c := by
  rw [groupRow, assign_of_notMem hagg, merge_of_mem hc]

theorem groupRow_of_notMem (hc : c ∉ pdrgpcr) (hagg : c ∉ pexprPrL.map (·.1)) :
    groupRow env pdrgpcr pexprPrL group row c = env c := by
  rw [groupRow, assign_of_notMem hagg, merge_of_notMem hc]

/-- The column of an aggregate holds its value over the group. -/
theorem groupRow_getElem (hnd : (pexprPrL.map (·.1)).Nodup) {i : ℕ} (hi : i < pexprPrL.length) :
    groupRow env pdrgpcr pexprPrL group row pexprPrL[i].1 = pexprPrL[i].2.eval group := by
  have hi' : i < (pexprPrL.map (·.1)).length := by simpa using hi
  have hassign : groupRow env pdrgpcr pexprPrL group row (pexprPrL.map (·.1))[i] =
      (pexprPrL.map (·.2.eval group)).getD i ⊥ := assign_getElem hnd hi'
  rw [List.getElem_map] at hassign
  rw [hassign, List.getD_eq_getElem?_getD, List.getElem?_map, List.getElem?_eq_getElem hi]
  rfl

end

/-- The rows an expression returns in a row of outer references. -/
def rows [DecidableEq D] (cat : Catalog D) : ApplyExpr D → Row (SqlValue D) →
    List (Row (SqlValue D))
  | .leaf relation, env => relation.rows env
  | .select child pexprScalar, env => (child.rows cat env).filter (pexprScalar.isTrue cat)
  | .project child pcr pexprScalar, env =>
    (child.rows cat env).map fun row => Function.update row pcr (pexprScalar.eval cat row)
  | .projects child pexprPrL, env => (child.rows cat env).map fun row =>
    assign (pexprPrL.map (·.1)) (pexprPrL.map (·.2.eval cat row)) row
  | .gbAgg pdrgpcr child pexprPrL, env =>
    let childRows := child.rows cat env
    if pdrgpcr = [] then [groupRow env [] pexprPrL childRows env]
    else (Groups.representatives (fun row => pdrgpcr.map row) childRows).map fun row =>
      groupRow env pdrgpcr pexprPrL
        (childRows.filter fun row' => pdrgpcr.map row' = pdrgpcr.map row) row
  | .leftOuterApply outer inner _, env =>
    (outer.rows cat env).flatMap fun row =>
      Joins.matchesOrPad (fun _ _ => true) (merge inner.outputColumns)
        (merge inner.outputColumns · nullRow) (inner.rows cat row) row

end ApplyExpr

end BossOptimizer

import BossOptimizer.Lib.Kleene
import BossOptimizer.Base.IntervalAlgebra

/-!
# Scalar predicates

The part of the scalar operator tree that constraint derivation looks at, and its SQL meaning.
Operands are columns, constants and binary coercible casts of these; everything else is an
operand the optimizer does not understand. Predicates are the comparisons, tests and Boolean
operators the derivation code switches over; everything else is an opaque predicate.

A datum is a value of the column type or the NULL datum. `CDefaultComparator` puts NULL below
every value and equal to itself (CDefaultComparator.cpp:85-130), which is `WithBot`. The same type
serves as the value of a column in a row.
-/

namespace BossOptimizer

/-- `IDatum` under `CDefaultComparator`: `⊥` is the NULL datum. -/
abbrev Datum (D : Type) : Type := WithBot D

/-- An assignment of values to columns. -/
abbrev Row (D : Type) : Type := CColRef → Datum D

inductive ScalarOperand (D : Type) where
  | ident (colref : CColRef)
  | const (datum : Datum D)
  /-- A binary coercible cast: same bits, other type. -/
  | cast (child : ScalarOperand D)
  | other (id : ℕ) (used : List CColRef)

/-- `CScalarBoolOp::EBoolOperator`. -/
inductive EBoolOperator where
  | and | or | not
  deriving DecidableEq, Repr

/-- `CScalarArrayCmp::EArrCmpType`. -/
inductive EArrCmpType where
  | any | all
  deriving DecidableEq, Repr

inductive ScalarExpr (D : Type) where
  /-- A Boolean constant; `none` is the NULL of type bool. -/
  | const (value : Option Bool)
  | nullTest (child : ScalarOperand D)
  | cmp (cmpType : ECmpType) (left right : ScalarOperand D)
  | isDistinctFrom (left right : ScalarOperand D)
  /-- The array is a `CScalarArray`, under an element-wise coercion when `coerced`. -/
  | arrayCmp (arrCmpType : EArrCmpType) (cmpType : ECmpType) (left : ScalarOperand D)
      (coerced : Bool) (array : List (ScalarOperand D))
  | boolOp (op : EBoolOperator) (children : List (ScalarExpr D))
  | other (id : ℕ) (used : List CColRef)

variable {D : Type}

namespace ScalarOperand

/-- Columns of an operand (`DeriveUsedColumns`). -/
def usedColumns : ScalarOperand D → List CColRef
  | .ident colref => [colref]
  | .const _ => []
  | .cast child => child.usedColumns
  | .other _ used => used

/-- `CUtils::FScalarIdent` or `CCastUtils::FBinaryCoercibleCastedScId`, with the column. -/
def identOrCast : ScalarOperand D → Option CColRef
  | .ident colref => some colref
  | .cast (.ident colref) => some colref
  | _ => none

/-- `CUtils::FScalarConst` or `CCastUtils::FBinaryCoercibleCastedConst`, with the datum. -/
def constOrCast : ScalarOperand D → Option (Datum D)
  | .const datum => some datum
  | .cast (.const datum) => some datum
  | _ => none

/-- `CUtils::FScalarConst`, with the datum. -/
def const? : ScalarOperand D → Option (Datum D)
  | .const datum => some datum
  | _ => none

end ScalarOperand

/-- `CUtils::FScalarConstArray` (CUtils.cpp:555), with the datums. -/
def fScalarConstArray (array : List (ScalarOperand D)) : Option (List (Datum D)) :=
  array.mapM ScalarOperand.const?

namespace ScalarExpr

mutual

/-- Columns of a predicate (`DeriveUsedColumns`). -/
def usedColumns : ScalarExpr D → List CColRef
  | .const _ => []
  | .nullTest child => child.usedColumns
  | .cmp _ left right => left.usedColumns ++ right.usedColumns
  | .isDistinctFrom left right => left.usedColumns ++ right.usedColumns
  | .arrayCmp _ _ left _ array => left.usedColumns ++ array.flatMap ScalarOperand.usedColumns
  | .boolOp _ children => usedColumnsAll children
  | .other _ used => used

def usedColumnsAll : List (ScalarExpr D) → List CColRef
  | [] => []
  | e :: es => e.usedColumns ++ usedColumnsAll es

end

attribute [local simp] usedColumns usedColumnsAll in
theorem mem_usedColumnsAll {c : CColRef} {es : List (ScalarExpr D)} :
    c ∈ usedColumnsAll es ↔ ∃ e ∈ es, c ∈ e.usedColumns := by
  induction es with
  | nil => simp [usedColumnsAll]
  | cons e es ih => simp [usedColumnsAll, ih]

/-- Induction over predicates: the children of a Boolean operator are a list. -/
theorem induction {P : ScalarExpr D → Prop} (const : ∀ value, P (.const value))
    (nullTest : ∀ child, P (.nullTest child))
    (cmp : ∀ cmpType left right, P (.cmp cmpType left right))
    (isDistinctFrom : ∀ left right, P (.isDistinctFrom left right))
    (arrayCmp : ∀ arr cmpType left coerced array, P (.arrayCmp arr cmpType left coerced array))
    (boolOp : ∀ op children, (∀ e ∈ children, P e) → P (.boolOp op children))
    (other : ∀ id used, P (.other id used)) : ∀ e, P e
  | .const value => const value
  | .nullTest child => nullTest child
  | .cmp cmpType left right => cmp cmpType left right
  | .isDistinctFrom left right => isDistinctFrom left right
  | .arrayCmp arr cmpType left coerced array => arrayCmp arr cmpType left coerced array
  | .boolOp op children => boolOp op children fun e _ =>
    induction const nullTest cmp isDistinctFrom arrayCmp boolOp other e
  | .other id used => other id used

end ScalarExpr

/-! ## SQL evaluation -/

/-- What the opaque operators compute. -/
structure Interpretation (D : Type) where
  operand : ℕ → Row D → Datum D
  predicate : ℕ → Row D → Truth
  /-- Comparison operators outside the B-tree family (`EcmptOther`). -/
  cmpOther : D → D → Truth

section Eval

variable [LinearOrder D]

/-- Strict comparison of two values: unknown as soon as one of them is NULL. -/
def evalCmp (I : Interpretation D) (cmpType : ECmpType) : Datum D → Datum D → Truth
  | some a, some b =>
    match cmpType with
    | .eq => some (a = b)
    | .neq | .idf => some (a ≠ b)
    | .l => some (a < b)
    | .leq => some (a ≤ b)
    | .g => some (b < a)
    | .geq => some (b ≤ a)
    | .other => I.cmpOther a b
  | _, _ => none

def ScalarOperand.eval (I : Interpretation D) (row : Row D) : ScalarOperand D → Datum D
  | .ident colref => row colref
  | .const datum => datum
  | .cast child => child.eval I row
  | .other id _ => I.operand id row

/-- Kleene's connectives; NOT reads its one child. -/
def EBoolOperator.eval : EBoolOperator → List Truth → Truth
  | .and, ts => Truth.all ts
  | .or, ts => Truth.any ts
  | .not, t :: _ => t.not
  | .not, [] => none

/-- ANY is the disjunction of the comparisons with the elements, ALL their conjunction. -/
def EArrCmpType.eval : EArrCmpType → List Truth → Truth
  | .any, ts => Truth.any ts
  | .all, ts => Truth.all ts

namespace ScalarExpr

mutual

/-- Three-valued evaluation on a row. -/
def eval (I : Interpretation D) (row : Row D) : ScalarExpr D → Truth
  | .const value => value
  | .nullTest child => some (child.eval I row = ⊥)
  | .cmp cmpType left right => evalCmp I cmpType (left.eval I row) (right.eval I row)
  | .isDistinctFrom left right => some (left.eval I row ≠ right.eval I row)
  | .arrayCmp arr cmpType left _ array =>
    arr.eval (array.map fun x => evalCmp I cmpType (left.eval I row) (x.eval I row))
  | .boolOp op children => op.eval (evalAll I row children)
  | .other id _ => I.predicate id row

def evalAll (I : Interpretation D) (row : Row D) : List (ScalarExpr D) → List Truth
  | [] => []
  | e :: es => e.eval I row :: evalAll I row es

end

attribute [local simp] eval evalAll in
@[simp] theorem evalAll_eq_map (I : Interpretation D) (row : Row D) (es : List (ScalarExpr D)) :
    evalAll I row es = es.map (eval I row) := by
  induction es with
  | nil => rfl
  | cons e es ih => simp [evalAll, ih]

end ScalarExpr

end Eval

end BossOptimizer

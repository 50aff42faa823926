import BossOptimizer.Base.ExpressionEquality
import BossOptimizer.Operators.Evaluation

/-!
# Queries with subqueries

Logical and scalar operators in one tree, as the preprocessor walks it: a scalar operator may have
a relation below it. The rewrites of subqueries look at identifiers, comparisons, Boolean operators,
project lists, the subqueries themselves, projections and constant tables; what any other operator
computes of its children is arbitrary.

A child enters as a function of the environment it is evaluated in: the row, which holds the outer
references, and the group that aggregate and window functions range over. A scalar subquery with
more than one row is a run-time error, and an operator with an operand that fails does fail.
-/

namespace BossOptimizer

/-- The operators that the rewrites look at, and all others. -/
inductive QueryOp (D Op : Type) where
  | scalarIdent (colref : CColRef)
  | scalarCmp (mdidOp : ℕ)
  | scalarBoolOp (eboolop : EBoolOperator)
  | scalarProjectList
  | scalarProjectElement (colref : CColRef)
  | scalarSubquery (colref : CColRef) (fGeneratedByExist fGeneratedByQuantified : Bool)
  | scalarSubqueryExists
  | scalarSubqueryNotExists
  | scalarSubqueryAny (mdidOp : ℕ) (colref : CColRef)
  | scalarSubqueryAll (mdidOp : ℕ) (colref : CColRef)
  | logicalProject
  | logicalConstTableGet (pdrgpcrOutput : List CColRef) (pdrgpdrgpdatum : List (List (Datum D)))
  | other (pop : Op)

/-- `CExpression` with these operators. -/
abbrev Query (D Op : Type) : Type := CExpression (QueryOp D Op)

/-- What an operator is evaluated in: a row, and what its functions over rows range over. -/
structure Env (D G : Type) where
  row : Row D
  group : G

/-- What an expression is in an environment. A set-returning function has several values, and the
    elements of a project list are columns with the values of their scalars. -/
inductive Result (D : Type) where
  | value (v : Datum D)
  | set (vs : List (Datum D))
  | elements (l : List (CColRef × List (Datum D)))
  | relation (rows : List (Row D))
  | failure

namespace Result

variable {D : Type}

def value? : Result D → Option (Datum D)
  | .value v => some v
  | _ => none

def elements? : Result D → Option (List (CColRef × List (Datum D)))
  | .elements l => some l
  | _ => none

def rows? : Result D → Option (List (Row D))
  | .relation rows => some rows
  | _ => none

@[simp] theorem value?_value (v : Datum D) : (value v).value? = some v := rfl
@[simp] theorem value?_failure : (failure : Result D).value? = none := rfl
@[simp] theorem elements?_value (v : Datum D) : (value v).elements? = none := rfl
@[simp] theorem elements?_elements (l : List (CColRef × List (Datum D))) :
    (elements l).elements? = some l := rfl
@[simp] theorem elements?_relation (rows : List (Row D)) : (relation rows).elements? = none := rfl
@[simp] theorem elements?_failure : (failure : Result D).elements? = none := rfl
@[simp] theorem rows?_value (v : Datum D) : (value v).rows? = none := rfl
@[simp] theorem rows?_elements (l : List (CColRef × List (Datum D))) :
    (elements l).rows? = none := rfl
@[simp] theorem rows?_relation (rows : List (Row D)) : (relation rows).rows? = some rows := rfl
@[simp] theorem rows?_failure : (failure : Result D).rows? = none := rfl

/-- An operand that is not there fails the operator. -/
def ofOption : Option (Result D) → Result D
  | some result => result
  | none => .failure

@[simp] theorem rows?_ofOption (o : Option (Result D)) : (ofOption o).rows? = o.bind rows? := by
  cases o <;> rfl

@[simp] theorem elements?_ofOption (o : Option (Result D)) :
    (ofOption o).elements? = o.bind elements? := by
  cases o <;> rfl

@[simp] theorem value?_ofOption (o : Option (Result D)) : (ofOption o).value? = o.bind value? := by
  cases o <;> rfl

theorem value?_eq_some {result : Result D} {v : Datum D} :
    result.value? = some v ↔ result = .value v := by
  cases result <;> simp [value?]

theorem rows?_eq_some {result : Result D} {rows : List (Row D)} :
    result.rows? = some rows ↔ result = .relation rows := by
  cases result <;> simp [rows?]

end Result

/-- What the operators compute. Values may be anything, with a reading as truth values. -/
structure QuerySemantics (D G Op : Type) where
  truth : Datum D → Truth
  ofTruth : Truth → Datum D
  truth_ofTruth : ∀ t, truth (ofTruth t) = t
  cmp : ℕ → Datum D → Datum D → Truth
  other : Op → List (Env D G → Result D) → Env D G → Result D

namespace Query

variable {D G Op : Type}

/-- The rows of a project list for one row of the child: until all set-returning functions are
    exhausted at the same time. -/
def projectRow (l : List (CColRef × List (Datum D))) (row : Row D) : List (Row D) :=
  (List.range ((l.map fun el => el.2.length).foldr Nat.lcm 1)).map fun k =>
    assign (l.map (·.1)) (l.map fun el => el.2.getD (k % el.2.length) ⊥) row

/-- Without set-returning functions a row stays one row. -/
theorem projectRow_single (l : List (CColRef × Datum D)) (row : Row D) :
    projectRow (l.map fun el => (el.1, [el.2])) row =
      [assign (l.map (·.1)) (l.map (·.2)) row] := by
  have hrounds : ((l.map fun el => (el.1, [el.2])).map fun el => el.2.length).foldr Nat.lcm 1 = 1 := by
    induction l with
    | nil => rfl
    | cons el l ih =>
      rw [List.map_cons, List.map_cons, List.foldr_cons, ih]
      exact Nat.lcm_self 1
  rw [projectRow, hrounds]
  simp [Function.comp_def]

/-- The rows that an inner relation offers to a scalar subquery on one of its columns. -/
def onlyValue (colref : CColRef) : List (Row D) → Result D
  | [] => .value ⊥
  | [row] => .value (row colref)
  | _ => .failure

@[simp] theorem rows?_onlyValue (colref : CColRef) (rows : List (Row D)) :
    (onlyValue colref rows).rows? = none := by
  rcases rows with _ | ⟨row, _ | ⟨row', rows⟩⟩ <;> rfl

@[simp] theorem elements?_onlyValue (colref : CColRef) (rows : List (Row D)) :
    (onlyValue colref rows).elements? = none := by
  rcases rows with _ | ⟨row, _ | ⟨row', rows⟩⟩ <;> rfl

end Query

variable {D G Op : Type}

open Result in
/-- The value of an operator, from the values of its children. -/
def QuerySemantics.op (S : QuerySemantics D G Op) :
    QueryOp D Op → List (Env D G → Result D) → Env D G → Result D
  | .scalarIdent colref, [], env => .value (env.row colref)
  | .scalarCmp mdidOp, [left, right], env => ofOption do
    let l ← (left env).value?
    let r ← (right env).value?
    some (.value (S.ofTruth (S.cmp mdidOp l r)))
  | .scalarBoolOp eboolop, children, env => ofOption do
    let vs ← children.mapM fun child => (child env).value?
    some (.value (S.ofTruth (eboolop.eval (vs.map S.truth))))
  | .scalarProjectList, children, env => ofOption do
    let ls ← children.mapM fun child => (child env).elements?
    some (.elements ls.flatten)
  | .scalarProjectElement colref, [child], env =>
    match child env with
    | .value v => .elements [(colref, [v])]
    | .set vs => .elements [(colref, vs)]
    | _ => .failure
  | .scalarSubquery colref _ _, [inner], env => ofOption do
    let rows ← (inner env).rows?
    some (Query.onlyValue colref rows)
  | .scalarSubqueryExists, [inner], env => ofOption do
    let rows ← (inner env).rows?
    some (.value (S.ofTruth (some !rows.isEmpty)))
  | .scalarSubqueryNotExists, [inner], env => ofOption do
    let rows ← (inner env).rows?
    some (.value (S.ofTruth (some rows.isEmpty)))
  | .scalarSubqueryAny mdidOp colref, [inner, left], env => ofOption do
    let rows ← (inner env).rows?
    let l ← (left env).value?
    some (.value (S.ofTruth (Truth.any (rows.map fun row => S.cmp mdidOp l (row colref)))))
  | .scalarSubqueryAll mdidOp colref, [inner, left], env => ofOption do
    let rows ← (inner env).rows?
    let l ← (left env).value?
    some (.value (S.ofTruth (Truth.all (rows.map fun row => S.cmp mdidOp l (row colref)))))
  | .logicalProject, [child, list], env => ofOption do
    let rows ← (child env).rows?
    let projected ← rows.mapM fun row => do
      let l ← (list { env with row := row }).elements?
      some (Query.projectRow l row)
    some (.relation projected.flatten)
  | .logicalConstTableGet out data, _, env =>
    .relation (data.map fun vals => assign out vals env.row)
  | .other pop, children, env => S.other pop children env
  | _, _, _ => .failure

namespace Query

/-- The result of an expression. -/
def eval (S : QuerySemantics D G Op) (pexpr : Query D Op) : Env D G → Result D := pexpr.fold S.op

attribute [local simp] QuerySemantics.op in
@[simp] theorem eval_node (S : QuerySemantics D G Op) (pop : QueryOp D Op)
    (pdrgpexpr : List (Query D Op)) :
    eval S (.node pop pdrgpexpr) = S.op pop (pdrgpexpr.map (eval S)) :=
  CExpression.fold_node ..

/-- An expression keeps its result when its children do. -/
theorem eval_node_congr {S : QuerySemantics D G Op} (pop : QueryOp D Op)
    {f : Query D Op → Query D Op} {pdrgpexpr : List (Query D Op)}
    (h : ∀ pexpr ∈ pdrgpexpr, eval S (f pexpr) = eval S pexpr) :
    eval S (.node pop (pdrgpexpr.map f)) = eval S (.node pop pdrgpexpr) := by
  rw [eval_node, eval_node, List.map_map]
  exact congrArg (S.op pop) (List.map_congr_left h)

/-- `CUtils::FSubquery` (CUtils.cpp:1202). -/
def FSubquery : QueryOp D Op → Bool
  | .scalarSubquery .. => true
  | .scalarSubqueryExists => true
  | .scalarSubqueryNotExists => true
  | .scalarSubqueryAll .. => true
  | .scalarSubqueryAny .. => true
  | _ => false

/-! ## Comparisons -/

/-- `CUtils::PexprScalarCmp` for an operator: the metadata may know another operator for the types
    of the operands, with casts, that compares the same. -/
structure Comparisons (S : QuerySemantics D G Op) where
  PexprScalarCmp : Query D Op → Query D Op → ℕ → Query D Op
  eval_pexprScalarCmp : ∀ pexprLeft pexprRight mdidOp,
    eval S (PexprScalarCmp pexprLeft pexprRight mdidOp) =
      eval S (.node (.scalarCmp mdidOp) [pexprLeft, pexprRight])

/-- Where the metadata knows no other operator. -/
def Comparisons.plain (S : QuerySemantics D G Op) : Comparisons S where
  PexprScalarCmp pexprLeft pexprRight mdidOp := .node (.scalarCmp mdidOp) [pexprLeft, pexprRight]
  eval_pexprScalarCmp _ _ _ := rfl

/-! ## Selections -/

/-- Numbers as values, 1 and 0 as truth values; the operator 96 is the equality and 521 the order,
    and the other operator is a selection. -/
def selections : QuerySemantics ℕ Unit Unit where
  truth v := v.map (· == 1)
  ofTruth t := t.map fun b => if b then 1 else 0
  truth_ofTruth t := by rcases t with _ | _ | _ <;> rfl
  cmp mdidOp v w := if mdidOp = 96 then Option.map₂ (· == ·) v w else Option.map₂ (decide <| · > ·) v w
  other
    | _, [child, pred], env => match child env with
      | .relation rows => .relation <| rows.filter fun row =>
          match pred { env with row := row } with
          | .value (some v) => v == 1
          | _ => false
      | _ => .failure
    | _, _, _ => .failure

def colX : CColRef := ⟨1, true, true, true⟩
def colY : CColRef := ⟨2, true, true, true⟩
def colC : CColRef := ⟨3, true, false, true⟩

end Query

end BossOptimizer

import BossOptimizer.Operators.QueryExpr

/-!
# Boolean evaluation: `CScalar::EberEvaluate` (CScalar.cpp:99–329)

An expression is evaluated to what is known of its value before any row is seen: TRUE, FALSE, NULL,
not TRUE, or nothing. Each operator class says in `Eber` what follows for it from what is known of
its children. The scalar operators and functions of the metadata are known here by whether they
return NULL on NULL input; `ScalarSemantics` says what they compute.
-/

namespace BossOptimizer

/-! ## Operators -/

/-- `CScalar::EBoolEvalResult` (CScalar.h:42). -/
inductive EBoolEvalResult where
  | eberTrue
  | eberFalse
  | eberNull
  | eberNotTrue
  | eberAny
  deriving DecidableEq, Repr

/-- `CScalarBooleanTest::EBoolTest`. -/
inductive EBoolTest where
  | isTrue
  | isNotTrue
  | isFalse
  | isNotFalse
  | isUnknown
  | isNotUnknown
  deriving DecidableEq, Repr

/-- `CScalarMinMax::EScalarMinMaxType`. -/
inductive EScalarMinMaxType where
  | min
  | max
  deriving DecidableEq, Repr

/-- The scalar operators with an `Eber` of their own, and all others: window functions are among
    these, since their flag for NULL input is never set. -/
inductive ScalarOp (D Op : Type) where
  /-- A `CScalarConst` of type bool. -/
  | constBool (value : Truth)
  | const (datum : Datum D)
  | isDistinctFrom (m_mdid_op : ℕ)
  | arrayCmp (m_earrccmpt : EArrCmpType) (m_mdid_op : ℕ)
  | op (m_mdid_op : ℕ)
  | func (m_func_mdid : ℕ)
  | nullIf (m_mdid_op : ℕ)
  /-- The function of the cast, if it has one. -/
  | cast (m_func_mdid : Option ℕ)
  | coerceToDomain (m_mdid_type : ℕ)
  | coalesce
  | minMax (m_mdid_type : ℕ) (m_esmmt : EScalarMinMaxType)
  | ifElse
  | switch
  | switchCase
  | nullTest
  | booleanTest (m_ebt : EBoolTest)
  | other (pop : Op)

/-- What the metadata says of NULL input. -/
structure NullInput where
  /-- `CMDAccessorUtils::FScalarOpReturnsNullOnNullInput` (CMDAccessorUtils.cpp:380). -/
  FScalarOpReturnsNullOnNullInput : ℕ → Bool
  /-- `IMDFunction::IsStrict`. -/
  IsStrict : ℕ → Bool

/-! ## `Eber` -/

namespace CScalar

open EBoolEvalResult

/-- `CScalar::EberConjunction` (CScalar.cpp:99). -/
def EberConjunction (pdrgpulChildren : List EBoolEvalResult) : EBoolEvalResult :=
  if pdrgpulChildren.any (· == eberFalse) then eberFalse
  else if pdrgpulChildren.all (· == eberTrue) then eberTrue
  else if pdrgpulChildren.all fun eber => eber == eberAny || eber == eberTrue then eberAny
  else if pdrgpulChildren.all fun eber => eber == eberNull || eber == eberTrue then eberNull
  else eberNotTrue

/-- `CScalar::EberDisjunction` (CScalar.cpp:159). -/
def EberDisjunction (pdrgpulChildren : List EBoolEvalResult) : EBoolEvalResult :=
  if pdrgpulChildren.any (· == eberTrue) then eberTrue
  else if pdrgpulChildren.all (· == eberFalse) then eberFalse
  else if pdrgpulChildren.any (· == eberAny) then eberAny
  else if pdrgpulChildren.any (· == eberNotTrue) then eberNotTrue
  else if pdrgpulChildren.any (· == eberNull) then eberNull
  else eberAny

/-- `CScalar::EberNullOnAnyNullChild` (CScalar.cpp:240). -/
def EberNullOnAnyNullChild (pdrgpulChildren : List EBoolEvalResult) : EBoolEvalResult :=
  if pdrgpulChildren.any (· == eberNull) then eberNull else eberAny

/-- `CScalar::EberNullOnAllNullChildren` (CScalar.cpp:267). -/
def EberNullOnAllNullChildren (pdrgpulChildren : List EBoolEvalResult) : EBoolEvalResult :=
  if pdrgpulChildren.all (· == eberNull) then eberNull else eberAny

/-- `CScalarBoolOp::Eber` (CScalarBoolOp.cpp:119). -/
def boolOp : EBoolOperator → List EBoolEvalResult → EBoolEvalResult
  | .and, pdrgpulChildren => EberConjunction pdrgpulChildren
  | .or, pdrgpulChildren => EberDisjunction pdrgpulChildren
  | .not, eberTrue :: _ => eberFalse
  | .not, eberFalse :: _ => eberTrue
  | .not, eberNull :: _ => eberNull
  | .not, _ => eberAny

/-- `CScalarIsDistinctFrom::Eber` (CScalarIsDistinctFrom.cpp:33). -/
def isDistinctFrom : List EBoolEvalResult → EBoolEvalResult
  | [firstResult, secondResult] =>
    if firstResult == eberAny || secondResult == eberAny || firstResult == eberNotTrue ||
      secondResult == eberNotTrue then eberAny
    else if firstResult != secondResult then eberTrue
    else eberFalse
  | _ => eberAny

/-- `CScalarNullTest::Eber` (CScalarNullTest.cpp:66). -/
def nullTest : List EBoolEvalResult → EBoolEvalResult
  | eberNull :: _ => eberTrue
  | eberFalse :: _ => eberFalse
  | eberTrue :: _ => eberFalse
  | _ => eberAny

/-- `CScalarBooleanTest::m_rgBoolEvalMap` (CScalarBooleanTest.cpp:38). -/
def m_rgBoolEvalMap : List (EBoolTest × EBoolEvalResult × EBoolEvalResult) :=
  [(.isTrue, eberTrue, eberTrue), (.isTrue, eberFalse, eberFalse), (.isTrue, eberNull, eberFalse),
    (.isTrue, eberNotTrue, eberFalse), (.isTrue, eberAny, eberAny),
    (.isNotTrue, eberTrue, eberFalse), (.isNotTrue, eberFalse, eberTrue),
    (.isNotTrue, eberNull, eberTrue), (.isNotTrue, eberNotTrue, eberTrue),
    (.isNotTrue, eberAny, eberAny),
    (.isFalse, eberTrue, eberFalse), (.isFalse, eberFalse, eberTrue),
    (.isFalse, eberNull, eberFalse), (.isFalse, eberNotTrue, eberAny), (.isFalse, eberAny, eberAny),
    (.isNotFalse, eberTrue, eberTrue), (.isNotFalse, eberFalse, eberFalse),
    (.isNotFalse, eberNull, eberTrue), (.isNotFalse, eberNotTrue, eberAny),
    (.isNotFalse, eberAny, eberAny),
    (.isUnknown, eberTrue, eberFalse), (.isUnknown, eberFalse, eberFalse),
    (.isUnknown, eberNull, eberTrue), (.isUnknown, eberNotTrue, eberAny),
    (.isUnknown, eberAny, eberAny),
    (.isNotUnknown, eberTrue, eberTrue), (.isNotUnknown, eberFalse, eberTrue),
    (.isNotUnknown, eberNull, eberFalse), (.isNotUnknown, eberNotTrue, eberAny),
    (.isNotUnknown, eberAny, eberAny)]

/-- `CScalarBooleanTest::Eber` (CScalarBooleanTest.cpp:123). -/
def booleanTest (ebt : EBoolTest) : List EBoolEvalResult → EBoolEvalResult
  | eber :: _ =>
    match m_rgBoolEvalMap.find? fun entry => ebt == entry.1 && eber == entry.2.1 with
    | some entry => entry.2.2
    | none => eberAny
  | [] => eberAny

variable {D Op : Type} (md : NullInput)

/-- `Eber` of an operator that returns NULL on NULL input if its flag says so. -/
def nullOnNullInput (m_returns_null_on_null_input : Bool)
    (pdrgpulChildren : List EBoolEvalResult) : EBoolEvalResult :=
  if m_returns_null_on_null_input then EberNullOnAnyNullChild pdrgpulChildren else eberAny

/-- `CScalar::Eber` and its overrides in the operator classes. -/
def Eber : QueryOp D (ScalarOp D Op) → List EBoolEvalResult → EBoolEvalResult
  | .scalarCmp m_mdid_op, l => nullOnNullInput (md.FScalarOpReturnsNullOnNullInput m_mdid_op) l
  | .scalarBoolOp m_eboolop, l => boolOp m_eboolop l
  | .other pop, l => match pop with
    | .constBool none => eberNull
    | .constBool (some true) => eberTrue
    | .constBool (some false) => eberFalse
    | .const none => eberNull
    | .const (some _) => eberAny
    | .isDistinctFrom _ => isDistinctFrom l
    | .arrayCmp _ m_mdid_op => nullOnNullInput (md.FScalarOpReturnsNullOnNullInput m_mdid_op) l
    | .op m_mdid_op => nullOnNullInput (md.FScalarOpReturnsNullOnNullInput m_mdid_op) l
    | .func m_func_mdid => nullOnNullInput (md.IsStrict m_func_mdid) l
    | .nullIf m_mdid_op => nullOnNullInput (md.FScalarOpReturnsNullOnNullInput m_mdid_op) l
    | .cast _ => EberNullOnAllNullChildren l
    -- the constructor clears the flag and nothing sets it
    | .coerceToDomain _ => nullOnNullInput false l
    | .coalesce => EberNullOnAllNullChildren l
    | .minMax _ _ => EberNullOnAllNullChildren l
    | .ifElse => EberNullOnAllNullChildren l
    | .switch => EberNullOnAllNullChildren l
    | .switchCase => EberNullOnAllNullChildren l
    | .nullTest => nullTest l
    | .booleanTest m_ebt => booleanTest m_ebt l
    | .other _ => eberAny
  | _, _ => eberAny

/-- `CScalar::EberEvaluate` (CScalar.cpp:298): it does not go into subqueries, and hands over no
    children for an operator that has none. -/
def EberEvaluate : Query D (ScalarOp D Op) → EBoolEvalResult :=
  CExpression.fold fun pop pdrgpulChildren =>
    Eber md pop (if Query.FSubquery pop then [] else pdrgpulChildren)

attribute [local simp] boolOp in
theorem eberEvaluate_node (pop : QueryOp D (ScalarOp D Op))
    (pdrgpexpr : List (Query D (ScalarOp D Op))) :
    EberEvaluate md (.node pop pdrgpexpr) =
      Eber md pop (if Query.FSubquery pop then [] else pdrgpexpr.map (EberEvaluate md)) :=
  CExpression.fold_node ..

end CScalar

/-! ## Meaning -/

/-- The tests on truth values; UNKNOWN is NULL. -/
def EBoolTest.eval : EBoolTest → Truth → Bool
  | .isTrue, t => t == some true
  | .isNotTrue, t => t != some true
  | .isFalse, t => t == some false
  | .isNotFalse, t => t != some false
  | .isUnknown, t => t.isNone
  | .isNotUnknown, t => t.isSome

/-- The values of a result, of which a set-returning function may have several. -/
def Result.values {D : Type} : Result D → List (Datum D)
  | .value v => [v]
  | .set vs => vs
  | _ => []

/-- What scalar operators compute. NULL is the unknown truth value; operators and functions that
the metadata says so of return NULL on NULL input, and a set of rows nothing but NULL. In a CASE
with an operand, the conditions see its value. -/
structure ScalarSemantics (md : NullInput) (D G Op : Type) where
  truth : Datum D → Truth
  ofTruth : Truth → Datum D
  truth_ofTruth : ∀ t, truth (ofTruth t) = t
  ofTruth_unknown : ofTruth none = ⊥
  cmp : ℕ → Datum D → Datum D → Truth
  cmp_null : ∀ mdid v w, md.FScalarOpReturnsNullOnNullInput mdid = true → v = ⊥ ∨ w = ⊥ →
    cmp mdid v w = none
  distinct : ℕ → Datum D → Datum D → Bool
  distinct_self : ∀ mdid v, distinct mdid v v = false
  distinct_null : ∀ mdid v, v ≠ ⊥ → distinct mdid v ⊥ = true ∧ distinct mdid ⊥ v = true
  distinct_bool : ∀ mdid b, distinct mdid (ofTruth (some b)) (ofTruth (some !b)) = true
  op : ℕ → List (Datum D) → Datum D
  op_null : ∀ mdid vs, md.FScalarOpReturnsNullOnNullInput mdid = true → ⊥ ∈ vs → op mdid vs = ⊥
  func : ℕ → List (Datum D) → Result D
  func_null : ∀ mdid vs, md.IsStrict mdid = true → ⊥ ∈ vs → ∀ v ∈ (func mdid vs).values, v = ⊥
  cast : ℕ → Datum D → Datum D
  cast_null : ∀ mdid, md.IsStrict mdid = true → cast mdid ⊥ = ⊥
  coerceToDomain : ℕ → Datum D → Result D
  /-- The lesser and the greater of two values of a type. -/
  choose : ℕ → EScalarMinMaxType → D → D → D
  /-- The elements of an array value, `none` of the NULL array. -/
  elements : Datum D → Option (List (Datum D))
  elements_null : elements ⊥ = none
  withCase : Env D G → Datum D → Env D G
  withCase_row : ∀ env v, (withCase env v).row = env.row
  other : Op → List (Env D G → Result D) → Env D G → Result D

namespace ScalarSemantics

variable {md : NullInput} {D G Op : Type}

/-- The first value that is not NULL, evaluated from left to right. -/
def firstNotNull : List (Result D) → Result D
  | [] => .value ⊥
  | .value none :: rest => firstNotNull rest
  | .value (some x) :: _ => .value (some x)
  | _ :: _ => .failure

/-- The first case that offers its result, or the default. -/
def firstCase : List (Result D) → Result D
  | [] => .value ⊥
  | .value v :: _ => .value v
  | .set [] :: rest => firstCase rest
  | .set (v :: _) :: _ => .value v
  | _ :: _ => .failure

/-- The least or greatest of the values that are not NULL. -/
def minMax (choose : D → D → D) : List (Datum D) → Datum D
  | [] => ⊥
  | none :: vs => minMax choose vs
  | some x :: vs => match minMax choose vs with
    | none => some x
    | some y => some (choose x y)

variable (S : ScalarSemantics md D G Op)

/-- A comparison with an array value. -/
def compareArray (earrccmpt : EArrCmpType) (mdid : ℕ) (v a : Datum D) : Truth :=
  match S.elements a with
  | some xs => earrccmpt.eval (xs.map (S.cmp mdid v))
  | none => none

/-- NULL if the values are equal, else the first of them. -/
def nullIf (mdid : ℕ) (v w : Datum D) : Datum D :=
  if v.isSome && w.isSome && S.cmp mdid v w == some true then ⊥ else v

open Result in
/-- The value of a scalar operator. A case offers its result if its condition is true. -/
def scalarOp : ScalarOp D Op → List (Env D G → Result D) → Env D G → Result D
  | .constBool t, [], _ => .value (S.ofTruth t)
  | .const datum, [], _ => .value datum
  | .isDistinctFrom mdid, [left, right], env => ofOption do
    let v ← (left env).value?
    let w ← (right env).value?
    some (.value (S.ofTruth (some (S.distinct mdid v w))))
  | .arrayCmp earrccmpt mdid, [left, right], env => ofOption do
    let v ← (left env).value?
    let a ← (right env).value?
    some (.value (S.ofTruth (S.compareArray earrccmpt mdid v a)))
  | .op mdid, children, env => ofOption do
    let vs ← children.mapM fun child => (child env).value?
    some (.value (S.op mdid vs))
  | .func mdid, children, env => ofOption do
    let vs ← children.mapM fun child => (child env).value?
    some (S.func mdid vs)
  | .nullIf mdid, [left, right], env => ofOption do
    let v ← (left env).value?
    let w ← (right env).value?
    some (.value (S.nullIf mdid v w))
  | .cast mdid, [child], env => ofOption do
    let v ← (child env).value?
    match mdid with
    | some func => some (.value (S.cast func v))
    | none => some (.value v)
  | .coerceToDomain mdid, [child], env => ofOption do
    let v ← (child env).value?
    some (S.coerceToDomain mdid v)
  | .coalesce, children, env => firstNotNull (children.map fun child => child env)
  | .minMax mdid esmmt, children, env => ofOption do
    let vs ← children.mapM fun child => (child env).value?
    some (.value (minMax (S.choose mdid esmmt) vs))
  | .ifElse, [cond, pos, neg], env => ofOption do
    let v ← (cond env).value?
    some (if S.truth v == some true then pos env else neg env)
  | .switch, operand :: cases, env => ofOption do
    let v ← (operand env).value?
    some (firstCase (cases.map fun child => child (S.withCase env v)))
  | .switchCase, [cond, result], env => ofOption do
    let v ← (cond env).value?
    if S.truth v == some true then do
      let w ← (result env).value?
      some (.set [w])
    else some (.set [])
  | .nullTest, [child], env => ofOption do
    let v ← (child env).value?
    some (.value (S.ofTruth (some v.isNone)))
  | .booleanTest ebt, [child], env => ofOption do
    let v ← (child env).value?
    some (.value (S.ofTruth (some (ebt.eval (S.truth v)))))
  | .other pop, children, env => S.other pop children env
  | _, _, _ => .failure

/-- The meaning of the queries over these operators. -/
def toSemantics : QuerySemantics D G (ScalarOp D Op) where
  truth := S.truth
  ofTruth := S.ofTruth
  truth_ofTruth := S.truth_ofTruth
  cmp := S.cmp
  other := S.scalarOp

end ScalarSemantics

end BossOptimizer

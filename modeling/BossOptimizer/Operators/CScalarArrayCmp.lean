import BossOptimizer.Operators.CExpressionUtils

/-!
# Array comparisons: `CScalarArrayCmp` and `PexprExpand` (CScalarArrayCmp.cpp:190)

`x op ANY (array)` and `x op ALL (array)` in the predicate trees. The array is a `CScalarArray`, with
its elements as children or, once collapsed, as constants of the operator, and may stand under a
`CScalarArrayCoerceExpr`, which converts the elements one by one. `PexprExpand` writes out one
comparison for each element. It looks through the coercion and takes the children of a
multi-dimensional array, which are arrays, for the elements: it compares with the plain array.
-/

namespace BossOptimizer

/-! ## Operators -/

/-- `CScalarArray` (CScalarArray.h:31). -/
structure CScalarArray (Op : Type) where
  m_pmdidElem : ℕ
  m_pmdidArray : ℕ
  m_fMultiDimensional : Bool
  /-- The constants of a collapsed array. -/
  m_pdrgPconst : List Op
  notBool : m_pmdidArray ≠ GPDB_BOOL

/-- `CScalarArrayCoerceExpr` (CScalarArrayCoerceExpr.h:26). -/
structure CScalarArrayCoerceExpr where
  m_pmdidElementFunc : ℕ
  m_mdidResultType : ℕ
  m_iTypeModifier : ℤ
  m_is_explicit : Bool
  m_ecf : ℕ
  m_iLoc : ℤ
  notBool : m_mdidResultType ≠ GPDB_BOOL
  deriving DecidableEq

/-- `CScalarArrayCmp`, what its right child is made of, and all other operators. -/
inductive ArrayOp (Op : Type) where
  | arrayCmp (m_earrccmpt : EArrCmpType) (m_mdid_op : ℕ)
  | array (popArray : CScalarArray Op)
  | arrayCoerce (popCoerce : CScalarArrayCoerceExpr)
  | other (pop : Op)

/-- The other operators, the hash values of all, and the comparison operator that
    `CUtils::PexprScalarCmp` builds for an operator id. -/
structure ArrayOperators (Op : Type) extends ScalarOperators Op where
  PopScalarCmp : ℕ → Op
  HashValue : PredicateOp (ArrayOp Op) → BitVec 32

namespace ArrayOp

variable {Op : Type}

/-- `CScalarArray::Matches` (CScalarArray.cpp:129) on the constants. -/
def constsMatch (ops : ScalarOperators Op) (consts consts' : List Op) : Bool :=
  consts.length == consts'.length && (consts.zip consts').all fun p => ops.Matches p.1 p.2

/-- `COperator::Matches`. -/
def Matches (ops : ScalarOperators Op) : ArrayOp Op → ArrayOp Op → Bool
  | .arrayCmp earrccmpt mdid_op, .arrayCmp earrccmpt' mdid_op' =>
    earrccmpt == earrccmpt' && mdid_op == mdid_op'
  | .array popArray, .array popArray' =>
    popArray.m_fMultiDimensional == popArray'.m_fMultiDimensional &&
      popArray.m_pmdidElem == popArray'.m_pmdidElem &&
      popArray.m_pmdidArray == popArray'.m_pmdidArray &&
      constsMatch ops popArray.m_pdrgPconst popArray'.m_pdrgPconst
  | .arrayCoerce popCoerce, .arrayCoerce popCoerce' => popCoerce == popCoerce'
  | .other pop, .other pop' => ops.Matches pop pop'
  | _, _ => false

/-- `COperator::FInputOrderSensitive`. -/
def FInputOrderSensitive (ops : ScalarOperators Op) : ArrayOp Op → Bool
  | .arrayCmp _ _ => true
  | .array _ => true
  | .arrayCoerce _ => false
  | .other pop => ops.FInputOrderSensitive pop

/-- `CScalar::MdidType`. -/
def MdidType (ops : ScalarOperators Op) : ArrayOp Op → ℕ
  | .arrayCmp _ _ => GPDB_BOOL
  | .array popArray => popArray.m_pmdidArray
  | .arrayCoerce popCoerce => popCoerce.m_mdidResultType
  | .other pop => ops.MdidType pop

/-- The answer of an operator that has nothing to do with arrays. -/
def ofOther (f : Op → Bool) : ArrayOp Op → Bool
  | .other pop => f pop
  | _ => false

variable {ops : ScalarOperators Op}

attribute [local simp] Matches in
theorem constsMatch_iff {consts consts' : List Op} :
    constsMatch ops consts consts' = true ↔ Matching.Alike ops.Matches consts consts' := by
  rw [constsMatch, Bool.and_eq_true, beq_iff_eq, List.all_eq_true]
  constructor
  · rintro ⟨hlen, hall⟩
    exact List.forall₂_iff_zip.2 ⟨hlen, fun {a b} hab => hall (a, b) hab⟩
  · intro h
    exact ⟨h.length_eq, fun p hp => (List.forall₂_iff_zip.1 h).2 hp⟩

theorem matches_refl (pop : ArrayOp Op) : pop.Matches ops pop = true := by
  cases pop with
  | array popArray =>
    simp only [Matches, beq_self_eq_true, Bool.true_and]
    exact constsMatch_iff.2 (List.forall₂_same.2 fun pop _ => ops.matches_refl pop)
  | other pop => exact ops.matches_refl pop
  | _ => simp [Matches]

/-- All operators. -/
def operators (ops : ScalarOperators Op) : ScalarOperators (ArrayOp Op) where
  Matches := Matches ops
  matches_refl := matches_refl
  FInputOrderSensitive := FInputOrderSensitive ops
  FBinaryCoercibleCast := ofOther ops.FBinaryCoercibleCast
  FAnd := ofOther ops.FAnd
  FNot := ofOther ops.FNot
  IsEqualityOp := ofOther ops.IsEqualityOp
  FIDF := ofOther ops.FIDF
  MdidType := MdidType ops

theorem lawful_operators (lawful : ops.Lawful) : (operators ops).Lawful where
  symm pop pop' h := by
    have hequiv : Matching.EquivOn ops.Matches fun _ => True :=
      ⟨fun pop _ => ops.matches_refl pop, fun a b _ _ => lawful.symm a b,
        fun a b c _ _ _ => lawful.trans a b c⟩
    cases pop <;> cases pop' <;> simp only [operators, Matches, Bool.and_eq_true, beq_iff_eq,
      Bool.false_eq_true, constsMatch_iff] at h ⊢
    · exact ⟨h.1.symm, h.2.symm⟩
    · exact ⟨⟨⟨h.1.1.1.symm, h.1.1.2.symm⟩, h.1.2.symm⟩,
        h.2.symm hequiv (by simp) (by simp)⟩
    · exact h.symm
    · exact lawful.symm _ _ h
  trans pop pop' pop'' h h' := by
    have hequiv : Matching.EquivOn ops.Matches fun _ => True :=
      ⟨fun pop _ => ops.matches_refl pop, fun a b _ _ => lawful.symm a b,
        fun a b c _ _ _ => lawful.trans a b c⟩
    cases pop <;> cases pop' <;> simp only [operators, Matches, Bool.and_eq_true, beq_iff_eq,
      Bool.false_eq_true, constsMatch_iff] at h <;> cases pop'' <;> simp only [operators, Matches,
      Bool.and_eq_true, beq_iff_eq, Bool.false_eq_true, constsMatch_iff] at h' ⊢
    · exact ⟨h.1.trans h'.1, h.2.trans h'.2⟩
    · exact ⟨⟨⟨h.1.1.1.trans h'.1.1.1, h.1.1.2.trans h'.1.1.2⟩, h.1.2.trans h'.1.2⟩,
        h.2.trans h'.2 hequiv (by simp) (by simp) (by simp)⟩
    · exact h.trans h'
    · exact lawful.trans _ _ _ h h'
  sensitive pop pop' h := by
    cases pop <;> cases pop' <;> simp only [operators, Matches, Bool.false_eq_true] at h <;>
      try rfl
    exact lawful.sensitive _ _ h

end ArrayOp

/-- All operators of predicates, with their hash values. -/
def ArrayOperators.predicates {Op : Type} (ops : ArrayOperators Op) :
    PredicateOperators (ArrayOp Op) where
  toScalarOperators := ArrayOp.operators ops.toScalarOperators
  HashValue := ops.HashValue

/-! ## Meaning -/

variable {Op X Env : Type}

/-- What operators compute, arrays included. A comparison with ANY is the disjunction of the
comparisons with the elements of the array, with ALL their conjunction; with the NULL array it is
unknown. The elements of a multi-dimensional array are those of the arrays that it is built of, and
a coercion converts them one by one. -/
structure ArraySemantics (ops : ArrayOperators Op) (X Env : Type) where
  base : Predicate.Semantics ops.toScalarOperators X Env
  /-- A comparison operator on two values. -/
  compare : ℕ → X → X → Truth
  scalarCmp : ∀ mdid_op v w env,
    base.other (ops.PopScalarCmp mdid_op) [v, w] env =
      base.ofTruth (compare mdid_op (v env) (w env))
  /-- The elements of an array value, `none` of the NULL array. -/
  elements : X → Option (List X)
  array : List X → X
  elements_array : ∀ xs, elements (array xs) = some xs
  multiArray : List X → X
  elements_multiArray : ∀ xs,
    elements (multiArray xs) = some (xs.flatMap fun x => (elements x).getD [])
  coerceElement : CScalarArrayCoerceExpr → X → X
  coerceArray : CScalarArrayCoerceExpr → X → X
  elements_coerceArray : ∀ popCoerce x,
    elements (coerceArray popCoerce x) = (elements x).map (List.map (coerceElement popCoerce))

namespace ArraySemantics

variable {ops : ArrayOperators Op} (S : ArraySemantics ops X Env)

/-- A comparison with an array value. -/
def compareArray (earrccmpt : EArrCmpType) (mdid_op : ℕ) (x a : X) : Truth :=
  match S.elements a with
  | some xs => earrccmpt.eval (xs.map (S.compare mdid_op x))
  | none => none

/-- The value of an array operator, from the values of the elements. -/
def ofElements (popArray : CScalarArray Op) (xs : List X) : X :=
  if popArray.m_fMultiDimensional then S.multiArray xs else S.array xs

/-- The value of an operator. -/
def other : ArrayOp Op → List (Env → X) → Env → X
  | .arrayCmp earrccmpt mdid_op, [v, w], env =>
    S.base.ofTruth (S.compareArray earrccmpt mdid_op (v env) (w env))
  | .arrayCmp _ _, _, _ => S.base.ofTruth none
  | .array popArray, [], env =>
    S.ofElements popArray (popArray.m_pdrgPconst.map fun pop => S.base.other pop [] env)
  | .array popArray, vs, env => S.ofElements popArray (vs.map fun v => v env)
  | .arrayCoerce popCoerce, [v], env => S.coerceArray popCoerce (v env)
  | .arrayCoerce _, _, _ => S.array []
  | .other pop, vs, env => S.base.other pop vs env

attribute [local simp] other in
theorem other_matches {pop pop' : ArrayOp Op} (h : pop.Matches ops.toScalarOperators pop' = true) :
    S.other pop = S.other pop' := by
  funext vs env
  cases pop <;> cases pop' <;> simp only [ArrayOp.Matches, Bool.and_eq_true, beq_iff_eq,
    Bool.false_eq_true, ArrayOp.constsMatch_iff] at h
  · rw [h.1, h.2]
  · rename_i popArray popArray'
    have hconsts : popArray.m_pdrgPconst.map (fun pop => S.base.other pop [] env) =
        popArray'.m_pdrgPconst.map fun pop => S.base.other pop [] env :=
      h.2.map_eq fun pop _ pop' _ hmatch => congrFun (congrFun (S.base.matches_eq _ _ hmatch) []) env
    cases vs with
    | nil => rw [other, other, hconsts, ofElements, ofElements, h.1.1.1]
    | cons v vs => rw [other, other, ofElements, ofElements, h.1.1.1] <;> simp
  · rw [h]
  · exact congrFun (congrFun (S.base.matches_eq _ _ h) vs) env

/-- The meaning of predicates over these operators. -/
def toSemantics : Predicate.Semantics ops.predicates.toScalarOperators X Env where
  truth := S.base.truth
  ofTruth := S.base.ofTruth
  truth_ofTruth := S.base.truth_ofTruth
  existential := S.base.existential
  other := S.other
  boolean pop vs env h := by
    cases pop with
    | arrayCmp earrccmpt mdid_op =>
      unfold other
      split <;> first | rw [S.base.truth_ofTruth] | simp_all
    | array popArray => exact absurd h popArray.notBool
    | arrayCoerce popCoerce => exact absurd h popCoerce.notBool
    | other pop => exact S.base.boolean pop vs env h
  matches_eq _ _ h := S.other_matches h
  unordered pop h vs vs' hperm := by
    cases pop with
    | arrayCmp earrccmpt mdid_op => cases h
    | array popArray => cases h
    | arrayCoerce popCoerce =>
      funext env
      match vs, vs', hperm.length_eq with
      | [v], [v'], _ => rw [List.singleton_perm_singleton.1 hperm]
      | [], [], _ => rfl
      | _ :: _ :: _, _ :: _ :: _, _ => rfl
    | other pop => exact S.base.unordered pop h vs vs' hperm

end ArraySemantics

/-! ## Expansion -/

namespace Predicate

variable (ops : ArrayOperators Op) (array_expansion_threshold : ℕ)

/-- `CUtils::FScalarArrayCmp`. -/
def FScalarArrayCmp : Predicate (ArrayOp Op) → Bool
  | .node (.other (.arrayCmp _ _)) _ => true
  | _ => false

/-- `CUtils::PexprScalarArrayChild` (CUtils.cpp:524), of the right child of the comparison. -/
def PexprScalarArrayChild : Predicate (ArrayOp Op) → Predicate (ArrayOp Op)
  | .node (.other (.arrayCoerce _)) (pexprArray :: _) => pexprArray
  | pexprArray => pexprArray

/-- `CUtils::PScalarArrayExprChildAt` (CUtils.cpp:501) for every index; empty where
    `CUtils::FScalarArray` does not hold. -/
def scalarArrayElements : Predicate (ArrayOp Op) → List (Predicate (ArrayOp Op))
  | .node (.other (.array popArray)) [] =>
    popArray.m_pdrgPconst.map fun popConst => .node (.other (.other popConst)) []
  | .node (.other (.array _)) pdrgpexpr => pdrgpexpr
  | _ => []

/-- The test of `PexprExpand` (CScalarArrayCmp.cpp:211) on the number of elements. -/
def expands (pexprRight : Predicate (ArrayOp Op)) : Bool :=
  let ulArrayElems := (scalarArrayElements (PexprScalarArrayChild pexprRight)).length
  !(ulArrayElems == 0 || array_expansion_threshold < ulArrayElems)

/-- `CScalarArrayCmp::PexprExpand` (CScalarArrayCmp.cpp:190). -/
def PexprExpand (pexprArrayCmp : Predicate (ArrayOp Op)) : Predicate (ArrayOp Op) :=
  match pexprArrayCmp with
  | .node (.other (.arrayCmp earrccmpt mdid_op)) [pexprIdent, pexprRight] =>
    if expands array_expansion_threshold pexprRight then
      PexprConjDisj (earrccmpt == .all) (PdrgpexprDedup ops.predicates
        ((scalarArrayElements (PexprScalarArrayChild pexprRight)).map fun pexprArrayElem =>
          .node (.other (.other (ops.PopScalarCmp mdid_op))) [pexprIdent, pexprArrayElem]))
    else pexprArrayCmp
  | _ => pexprArrayCmp

/-! ## What is written out -/

/-- The array without its coercion, read as an array of one dimension. -/
def plainArray (pexprRight : Predicate (ArrayOp Op)) : Predicate (ArrayOp Op) :=
  match PexprScalarArrayChild pexprRight with
  | .node (.other (.array popArray)) pdrgpexpr =>
    .node (.other (.array { popArray with m_fMultiDimensional := false })) pdrgpexpr
  | pexprArray => pexprArray

/-- The comparison with the plain array, where it is written out. -/
def plainComparison (pexpr : Predicate (ArrayOp Op)) : Predicate (ArrayOp Op) :=
  match pexpr with
  | .node (.other (.arrayCmp earrccmpt mdid_op)) [pexprIdent, pexprRight] =>
    if expands array_expansion_threshold pexprRight then
      .node (.other (.arrayCmp earrccmpt mdid_op)) [pexprIdent, plainArray pexprRight]
    else pexpr
  | _ => pexpr

variable {ops array_expansion_threshold} (S : ArraySemantics ops X Env)

/-- The plain array has the values of its elements. -/
theorem elements_plainArray {pexprRight : Predicate (ArrayOp Op)}
    (h : expands array_expansion_threshold pexprRight = true) (env : Env) :
    S.elements (eval S.toSemantics (plainArray pexprRight) env) =
      some ((scalarArrayElements (PexprScalarArrayChild pexprRight)).map fun pexpr =>
        eval S.toSemantics pexpr env) := by
  rw [plainArray]
  rw [expands] at h
  split
  · rename_i popArray pdrgpexpr heq
    rw [heq, eval_node]
    cases pdrgpexpr with
    | nil =>
      simp only [Semantics.op, ArraySemantics.toSemantics, ArraySemantics.other,
        ArraySemantics.ofElements, List.map_nil, Bool.false_eq_true, if_false, S.elements_array,
        scalarArrayElements, List.map_map]
      rfl
    | cons pexpr rest =>
      simp only [Semantics.op, ArraySemantics.toSemantics, ArraySemantics.other,
        ArraySemantics.ofElements, List.map_cons, Bool.false_eq_true, if_false, S.elements_array,
        scalarArrayElements, List.map_map]
      rfl
  · rename_i hother
    -- what is no array has no elements to expand
    have hnone : scalarArrayElements (PexprScalarArrayChild pexprRight) = [] := by
      unfold scalarArrayElements
      split
      · rename_i heq
        exact absurd heq (hother _ _)
      · rename_i heq
        exact absurd heq (hother _ _)
      · rfl
    rw [hnone] at h
    cases h

/-- **The expansion has the truth value of the comparison with the plain array**: the elements are
    joined by OR for ANY and by AND for ALL. -/
theorem truth_pexprExpand (lawful : ops.toScalarOperators.Lawful)
    (pexprArrayCmp : Predicate (ArrayOp Op)) (env : Env) :
    truth S.toSemantics (PexprExpand ops array_expansion_threshold pexprArrayCmp) env =
      truth S.toSemantics (plainComparison array_expansion_threshold pexprArrayCmp) env := by
  unfold PexprExpand plainComparison
  split
  · rename_i earrccmpt mdid_op pexprIdent pexprRight
    split_ifs with hexpands
    · rw [truth_pexprConjDisj, joined_pdrgpexprDedup S.toSemantics
        (ArrayOp.lawful_operators lawful), List.map_map]
      have hcompare : truth S.toSemantics (.node (.other (.arrayCmp earrccmpt mdid_op))
          [pexprIdent, plainArray pexprRight]) env = S.compareArray earrccmpt mdid_op
            (eval S.toSemantics pexprIdent env)
            (eval S.toSemantics (plainArray pexprRight) env) := by
        rw [truth, eval_node]
        exact S.base.truth_ofTruth _
      rw [hcompare, ArraySemantics.compareArray, elements_plainArray S hexpands]
      dsimp only
      rw [List.map_map]
      have helem : ∀ pexprArrayElem : Predicate (ArrayOp Op), truth S.toSemantics
          (.node (.other (.other (ops.PopScalarCmp mdid_op))) [pexprIdent, pexprArrayElem]) env =
            S.compare mdid_op (eval S.toSemantics pexprIdent env)
              (eval S.toSemantics pexprArrayElem env) := by
        intro pexprArrayElem
        rw [truth, eval_node]
        exact (congrArg S.base.truth (S.scalarCmp mdid_op _ _ env)).trans (S.base.truth_ofTruth _)
      cases earrccmpt
      · exact congrArg Truth.any (List.map_congr_left fun e _ => helem e)
      · exact congrArg Truth.all (List.map_congr_left fun e _ => helem e)
    · rfl
  · rfl

end Predicate

end BossOptimizer

import Mathlib.Data.List.Basic

/-!
# Scalar expression trees

`CExpression` as the hashed distributions use it: comparison (`CUtils::Equals`, CUtils.cpp:1350),
removal of binary coercible casts (CCastUtils.cpp), conjuncts (CPredicateUtils.cpp) and the search
for an equality (`PexprMatchEqualityOrINDF`). The scalar operator classes are known by what these
functions ask of them.
-/

namespace BossOptimizer

/-- The virtual functions of `COperator` and `CScalar` that the comparison and the predicate tests
call. -/
structure ScalarOperators (Op : Type) where
  Matches : Op → Op → Bool
  matches_refl : ∀ pop, Matches pop pop = true
  FInputOrderSensitive : Op → Bool
  /-- `EopScalarCast` with `IsBinaryCoercible`. -/
  FBinaryCoercibleCast : Op → Bool
  FAnd : Op → Bool
  FNot : Op → Bool
  /-- `EopScalarCmp` of type `EcmptEq`. -/
  IsEqualityOp : Op → Bool
  /-- `EopScalarIsDistinctFrom`. -/
  FIDF : Op → Bool
  MdidType : Op → ℕ

/-- Operators that are only compared: columns by number. -/
def ScalarOperators.columns : ScalarOperators ℕ :=
  { Matches := (· == ·), matches_refl := by simp, FInputOrderSensitive := fun _ => true,
    FBinaryCoercibleCast := fun _ => false, FAnd := fun _ => false, FNot := fun _ => false,
    IsEqualityOp := fun _ => false, FIDF := fun _ => false, MdidType := fun _ => 0 }

/-- `CExpression`. -/
inductive CExpression (Op : Type) where
  | node (pop : Op) (pdrgpexpr : List (CExpression Op))

namespace CExpression

variable {Op : Type} (ops : ScalarOperators Op)

/-! ## Comparison -/

/-- `CUtils::UlOccurrences`, of the expression that `equals` compares with. -/
def UlOccurrences (equals : CExpression Op → Bool) (pdrgpexpr : List (CExpression Op)) : ℕ :=
  pdrgpexpr.countP equals

/-- `CUtils::FMatchChildrenUnordered`. -/
def FMatchChildrenUnordered (equals : List (CExpression Op → Bool))
    (pdrgpexprLeft pdrgpexprRight : List (CExpression Op)) : Bool :=
  equals.all fun eq => UlOccurrences eq pdrgpexprLeft == UlOccurrences eq pdrgpexprRight

/-- `CUtils::FMatchChildrenOrdered`. -/
def FMatchChildrenOrdered : List (CExpression Op → Bool) → List (CExpression Op) → Bool
  | eq :: equals, pexpr :: pdrgpexpr => eq pexpr && FMatchChildrenOrdered equals pdrgpexpr
  | _, _ => true

mutual

/-- `CUtils::Equals` (CUtils.cpp:1382). -/
def Equals : CExpression Op → CExpression Op → Bool
  | .node pop pdrgpexpr, .node popOther pdrgpexprOther =>
    if pdrgpexpr.length ≠ pdrgpexprOther.length || !ops.Matches pop popOther then false
    else if 0 < pdrgpexpr.length && ops.FInputOrderSensitive pop then
      FMatchChildrenOrdered (equalsEach pdrgpexpr) pdrgpexprOther
    else FMatchChildrenUnordered (equalsEach pdrgpexpr) pdrgpexpr pdrgpexprOther

/-- `Equals` with each of the expressions. -/
def equalsEach : List (CExpression Op) → List (CExpression Op → Bool)
  | [] => []
  | pexpr :: pdrgpexpr => Equals pexpr :: equalsEach pdrgpexpr

end

/-- `CUtils::Equals` on arrays (CUtils.cpp:1350). -/
def EqualsArray (pdrgpexprLeft pdrgpexprRight : List (CExpression Op)) : Bool :=
  pdrgpexprLeft.length == pdrgpexprRight.length &&
    (pdrgpexprLeft.zip pdrgpexprRight).all fun p => Equals ops p.1 p.2

/-- `CUtils::Equals` on arrays of arrays, which may be NULL (CUtils.cpp:4785). -/
def EqualsArrays : Option (List (List (CExpression Op))) →
    Option (List (List (CExpression Op))) → Bool
  | some exprs, some other =>
    exprs.length == other.length && (exprs.zip other).all fun p => EqualsArray ops p.1 p.2
  | none, none => true
  | _, _ => false

/-- `CUtils::Contains` (CUtils.cpp:4768). -/
def Contains (exprs : List (CExpression Op)) (expr_to_match : CExpression Op) : Bool :=
  exprs.any fun expr => Equals ops expr expr_to_match

/-! ## Casts and predicates -/

/-- `CCastUtils::PexprWithoutBinaryCoercibleCasts` (CCastUtils.cpp). -/
def PexprWithoutBinaryCoercibleCasts : CExpression Op → CExpression Op
  | .node pop [pexpr] =>
    if ops.FBinaryCoercibleCast pop then PexprWithoutBinaryCoercibleCasts pexpr
    else .node pop [pexpr]
  | pexpr => pexpr

mutual

/-- `CPredicateUtils::CollectConjuncts`. -/
def PdrgpexprConjuncts : CExpression Op → List (CExpression Op)
  | .node pop pdrgpexpr =>
    if ops.FAnd pop then conjunctsEach pdrgpexpr else [.node pop pdrgpexpr]

def conjunctsEach : List (CExpression Op) → List (CExpression Op)
  | [] => []
  | pexpr :: pdrgpexpr => PdrgpexprConjuncts pexpr ++ conjunctsEach pdrgpexpr

end

/-- The two sides of an equality or of an `IS NOT DISTINCT FROM`. -/
def equalityOrINDF : CExpression Op → Option (CExpression Op × CExpression Op)
  | .node pop [pexprOuter, pexprInner] =>
    if ops.IsEqualityOp pop then some (pexprOuter, pexprInner) else none
  | .node pop [.node popChild [pexprOuter, pexprInner]] =>
    if ops.FNot pop && ops.FIDF popChild then some (pexprOuter, pexprInner) else none
  | _ => none

/-- `CScalar::MdidType`. -/
def MdidType : CExpression Op → ℕ
  | .node pop _ => ops.MdidType pop

/-- `CUtils::PexprMatchEqualityOrINDF` (CUtils.cpp:4674). -/
def PexprMatchEqualityOrINDF (pexprToMatch : CExpression Op) :
    List (CExpression Op) → Option (CExpression Op)
  | [] => none
  | pexprPred :: pdrgpexpr =>
    match equalityOrINDF ops pexprPred with
    | none => PexprMatchEqualityOrINDF pexprToMatch pdrgpexpr
    | some (pexprPredOuter, pexprPredInner) =>
      let strip := PexprWithoutBinaryCoercibleCasts ops
      if MdidType ops pexprPredOuter ≠ MdidType ops pexprPredInner then
        PexprMatchEqualityOrINDF pexprToMatch pdrgpexpr
      else if Equals ops (strip pexprPredOuter) (strip pexprToMatch) then
        some (strip pexprPredInner)
      else if Equals ops (strip pexprPredInner) (strip pexprToMatch) then
        some (strip pexprPredOuter)
      else PexprMatchEqualityOrINDF pexprToMatch pdrgpexpr

/-! ## Values -/

/-- What expressions and predicates are on rows. NULL is `none`. Expressions that `CUtils::Equals`
takes for equal have equal values, a binary coercible cast keeps the value, and an equality of one
type tells that its sides are the same. -/
structure Rows (R V : Type) where
  eval : R → CExpression Op → Option V
  holds : R → CExpression Op → Prop
  equals : ∀ r pexpr pexprOther, Equals ops pexpr pexprOther = true →
    eval r pexpr = eval r pexprOther
  cast : ∀ r pop pexpr, ops.FBinaryCoercibleCast pop = true →
    eval r (.node pop [pexpr]) = eval r pexpr
  and : ∀ r pop pdrgpexpr, ops.FAnd pop = true → holds r (.node pop pdrgpexpr) →
    ∀ pexpr ∈ pdrgpexpr, holds r pexpr
  equality : ∀ r pexpr outer inner, equalityOrINDF ops pexpr = some (outer, inner) →
    MdidType ops outer = MdidType ops inner → holds r pexpr → eval r outer = eval r inner

variable {ops} {R V : Type}

attribute [local simp] Equals equalsEach PdrgpexprConjuncts conjunctsEach in
theorem Rows.eval_withoutCasts (rows : Rows ops R V) (r : R) (pexpr : CExpression Op) :
    rows.eval r (PexprWithoutBinaryCoercibleCasts ops pexpr) = rows.eval r pexpr := by
  induction pexpr using PexprWithoutBinaryCoercibleCasts.induct ops with
  | case1 pop pexpr hcast ih =>
    rw [PexprWithoutBinaryCoercibleCasts, if_pos hcast, ih, rows.cast r pop pexpr hcast]
  | case2 pop pexpr hcast => rw [PexprWithoutBinaryCoercibleCasts, if_neg hcast]
  | case3 pexpr hother => rw [PexprWithoutBinaryCoercibleCasts]; exact hother

mutual

theorem Rows.holds_conjunct (rows : Rows ops R V) {r : R} :
    ∀ {pexpr : CExpression Op}, rows.holds r pexpr →
      ∀ c ∈ PdrgpexprConjuncts ops pexpr, rows.holds r c
  | .node pop pdrgpexpr, h, c, hc => by
    rw [PdrgpexprConjuncts] at hc
    split at hc
    · rename_i hand
      exact rows.holds_conjunctsEach (rows.and r pop pdrgpexpr hand h) c hc
    · exact List.mem_singleton.1 hc ▸ h

theorem Rows.holds_conjunctsEach (rows : Rows ops R V) {r : R} :
    ∀ {pdrgpexpr : List (CExpression Op)}, (∀ pexpr ∈ pdrgpexpr, rows.holds r pexpr) →
      ∀ c ∈ conjunctsEach ops pdrgpexpr, rows.holds r c
  | [], _, c, hc => by simp [conjunctsEach] at hc
  | pexpr :: pdrgpexpr, h, c, hc => by
    rw [conjunctsEach, List.mem_append] at hc
    rcases hc with hc | hc
    · exact rows.holds_conjunct (h pexpr List.mem_cons_self) c hc
    · exact rows.holds_conjunctsEach (fun e he => h e (List.mem_cons_of_mem _ he)) c hc

end

/-- Where all the predicates hold, the match has the value of the expression. -/
theorem Rows.eval_match (rows : Rows ops R V) {r : R} {pexpr c : CExpression Op} :
    ∀ {preds : List (CExpression Op)}, (∀ pred ∈ preds, rows.holds r pred) →
      PexprMatchEqualityOrINDF ops pexpr preds = some c → rows.eval r c = rows.eval r pexpr
  | [], _, hc => by simp [PexprMatchEqualityOrINDF] at hc
  | pred :: preds, h, hc => by
    have hrest := fun p hp => h p (List.mem_cons_of_mem pred hp)
    rw [PexprMatchEqualityOrINDF] at hc
    cases hsides : equalityOrINDF ops pred with
    | none =>
      rw [hsides] at hc
      exact rows.eval_match hrest hc
    | some sides =>
      obtain ⟨outer, inner⟩ := sides
      have heq := rows.equality r pred outer inner hsides
      have hpred := h pred List.mem_cons_self
      rw [hsides] at hc
      dsimp only at hc
      split_ifs at hc with htype houter hinner
      · exact rows.eval_match hrest hc
      · have hsame := rows.equals r _ _ houter
        rw [rows.eval_withoutCasts, rows.eval_withoutCasts] at hsame
        cases hc
        rw [rows.eval_withoutCasts, ← heq (not_not.1 htype) hpred, hsame]
      · have hsame := rows.equals r _ _ hinner
        rw [rows.eval_withoutCasts, rows.eval_withoutCasts] at hsame
        cases hc
        rw [rows.eval_withoutCasts, heq (not_not.1 htype) hpred, hsame]
      · exact rows.eval_match hrest hc

/-! ## Every expression equals itself -/

theorem fMatchChildrenUnordered_self (equals : List (CExpression Op → Bool))
    (pdrgpexpr : List (CExpression Op)) :
    FMatchChildrenUnordered equals pdrgpexpr pdrgpexpr = true := by
  simp [FMatchChildrenUnordered]

mutual

theorem equals_self : ∀ pexpr : CExpression Op, Equals ops pexpr pexpr = true
  | .node pop pdrgpexpr => by
    rw [Equals, ops.matches_refl]
    split_ifs
    · simp_all
    · exact fMatchChildrenOrdered_self pdrgpexpr
    · exact fMatchChildrenUnordered_self ..

theorem fMatchChildrenOrdered_self : ∀ pdrgpexpr : List (CExpression Op),
    FMatchChildrenOrdered (equalsEach ops pdrgpexpr) pdrgpexpr = true
  | [] => by simp [equalsEach, FMatchChildrenOrdered]
  | pexpr :: pdrgpexpr => by
    rw [equalsEach, FMatchChildrenOrdered, equals_self pexpr,
      fMatchChildrenOrdered_self pdrgpexpr]
    rfl

end

theorem equalsArray_self (pdrgpexpr : List (CExpression Op)) :
    EqualsArray ops pdrgpexpr pdrgpexpr = true := by
  rw [EqualsArray, beq_self_eq_true, Bool.true_and, List.all_eq_true]
  intro p hp
  obtain ⟨i, hi, rfl⟩ := List.mem_iff_getElem.1 hp
  rw [List.getElem_zip]
  exact equals_self _

theorem equalsArrays_self (exprs : Option (List (List (CExpression Op)))) :
    EqualsArrays ops exprs exprs = true := by
  cases exprs with
  | none => rfl
  | some exprs =>
    rw [EqualsArrays, beq_self_eq_true, Bool.true_and, List.all_eq_true]
    intro p hp
    obtain ⟨i, hi, rfl⟩ := List.mem_iff_getElem.1 hp
    rw [List.getElem_zip]
    exact equalsArray_self _

end CExpression

end BossOptimizer

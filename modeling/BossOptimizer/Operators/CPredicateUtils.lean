import BossOptimizer.Base.ExpressionEquality
import BossOptimizer.Base.ScalarExpr
import BossOptimizer.Common.Hash
import BossOptimizer.Lib.KleeneOrder

/-!
# Predicates as expression trees

The trees that the preprocessor's Boolean rewrites work on. They look at the Boolean operators and
constants and at `EXISTS` and `NOT EXISTS`; of every other operator they ask what the comparison of
expressions asks. `CPredicateUtils` and the part of `CUtils` that builds predicates.

A value may be anything, with a reading as a truth value. What an operator computes of its children
is arbitrary where it is not one of the Boolean ones: the children enter as functions of the
environment, so that a subquery may bind columns.
-/

namespace BossOptimizer

/-- `CScalarBoolOp`, the Boolean `CScalarConst`, `CScalarSubqueryExists`,
    `CScalarSubqueryNotExists` and all other operators. -/
inductive PredicateOp (Op : Type) where
  | boolOp (eboolop : EBoolOperator)
  | constBool (value : Option Bool)
  | subqueryExists
  | subqueryNotExists
  | other (pop : Op)

/-- The type of truth values (`IMDType::EtiBool`). -/
def GPDB_BOOL : ℕ := 16

/-- The other operators, and the hash values of all. -/
structure PredicateOperators (Op : Type) extends ScalarOperators Op where
  HashValue : PredicateOp Op → BitVec 32

/-- `CExpression` with these operators. -/
abbrev Predicate (Op : Type) : Type := CExpression (PredicateOp Op)

namespace PredicateOp

variable {Op : Type}

/-- `COperator::Matches`. -/
def Matches (ops : ScalarOperators Op) : PredicateOp Op → PredicateOp Op → Bool
  | .boolOp eboolop, .boolOp eboolop' => eboolop == eboolop'
  | .constBool value, .constBool value' => value == value'
  | .subqueryExists, .subqueryExists => true
  | .subqueryNotExists, .subqueryNotExists => true
  | .other pop, .other pop' => ops.Matches pop pop'
  | _, _ => false

/-- `COperator::FInputOrderSensitive`. -/
def FInputOrderSensitive (ops : ScalarOperators Op) : PredicateOp Op → Bool
  | .boolOp eboolop => eboolop == .not
  | .constBool _ => false
  | .subqueryExists => true
  | .subqueryNotExists => true
  | .other pop => ops.FInputOrderSensitive pop

def MdidType (ops : ScalarOperators Op) : PredicateOp Op → ℕ
  | .other pop => ops.MdidType pop
  | _ => GPDB_BOOL

/-- The answer of an operator that is none of the Boolean ones. -/
def ofOther (f : Op → Bool) : PredicateOp Op → Bool
  | .other pop => f pop
  | _ => false

attribute [local simp] Matches FInputOrderSensitive in
theorem matches_refl (ops : ScalarOperators Op) (pop : PredicateOp Op) :
    pop.Matches ops pop = true := by
  cases pop <;> simp [Matches, ops.matches_refl]

/-- All operators of predicates. -/
def operators (ops : ScalarOperators Op) : ScalarOperators (PredicateOp Op) where
  Matches := Matches ops
  matches_refl := matches_refl ops
  FInputOrderSensitive := FInputOrderSensitive ops
  FBinaryCoercibleCast := ofOther ops.FBinaryCoercibleCast
  FAnd pop := match pop with
    | .boolOp .and => true
    | _ => false
  FNot pop := match pop with
    | .boolOp .not => true
    | _ => false
  IsEqualityOp := ofOther ops.IsEqualityOp
  FIDF := ofOther ops.FIDF
  MdidType := MdidType ops

theorem lawful_operators {ops : ScalarOperators Op} (lawful : ops.Lawful) :
    (operators ops).Lawful where
  symm pop pop' h := by
    cases pop <;> cases pop' <;> simp_all [operators, Matches]
    exact lawful.symm _ _ h
  trans pop pop' pop'' h h' := by
    cases pop <;> cases pop' <;> cases pop'' <;> simp_all [operators, Matches]
    exact lawful.trans _ _ _ h h'
  sensitive pop pop' h := by
    cases pop <;> cases pop' <;> simp_all [operators, Matches, FInputOrderSensitive]
    exact lawful.sensitive _ _ h

end PredicateOp

namespace Predicate

variable {Op : Type}

/-! ## `CPredicateUtils` -/

def FAnd : Predicate Op → Bool
  | .node (.boolOp .and) _ => true
  | _ => false

def FOr : Predicate Op → Bool
  | .node (.boolOp .or) _ => true
  | _ => false

def FNot : Predicate Op → Bool
  | .node (.boolOp .not) _ => true
  | _ => false

variable {pexpr : Predicate Op}

theorem fAnd_iff : FAnd pexpr = true ↔ pexpr.Pop = .boolOp .and := by
  unfold FAnd
  split
  · simp [CExpression.Pop]
  · rename_i hother
    obtain ⟨pop, l⟩ := pexpr
    exact iff_of_false (by simp) fun h => hother l (congrArg (CExpression.node · l) h)

theorem fOr_iff : FOr pexpr = true ↔ pexpr.Pop = .boolOp .or := by
  unfold FOr
  split
  · simp [CExpression.Pop]
  · rename_i hother
    obtain ⟨pop, l⟩ := pexpr
    exact iff_of_false (by simp) fun h => hother l (congrArg (CExpression.node · l) h)

/-- `CPredicateUtils::FHasNegatedChild` (CPredicateUtils.cpp:272). -/
def FHasNegatedChild (pexpr : Predicate Op) : Bool := pexpr.PdrgPexpr.any FNot

/-- `CUtils::PexprScalarConstBool`. -/
def PexprScalarConstBool (value : Bool) : Predicate Op := .node (.constBool (some value)) []

/-- `CUtils::FScalarConstBool`. -/
def FScalarConstBool (value : Bool) : Predicate Op → Bool
  | .node (.constBool (some v)) _ => v == value
  | _ => false

/-- `CUtils::PexprNegate` (CUtils.cpp:1515). -/
def PexprNegate (pexpr : Predicate Op) : Predicate Op := .node (.boolOp .not) [pexpr]

/-- `CPredicateUtils::PexprConjDisj` (CPredicateUtils.cpp:675), with `FSkippable` and
    `FReducible`. -/
def PexprConjDisj (fConjunction : Bool) (pdrgpexpr : List (Predicate Op)) : Predicate Op :=
  if pdrgpexpr.any (FScalarConstBool !fConjunction) then PexprScalarConstBool !fConjunction
  else
    match pdrgpexpr.filter (!FScalarConstBool fConjunction ·) with
    | [] => PexprScalarConstBool fConjunction
    | [pexpr] => pexpr
    | pdrgpexprFinal => .node (.boolOp (if fConjunction then .and else .or)) pdrgpexprFinal

/-! ## Meaning -/

/-- What operators compute. Operators that match compute the same, those that are not sensitive to
    the order of their inputs compute one value for every order, and an operator of type bool
    computes a truth value. -/
structure Semantics (ops : ScalarOperators Op) (X Env : Type) where
  truth : X → Truth
  ofTruth : Truth → X
  truth_ofTruth : ∀ t, truth (ofTruth t) = t
  /-- Whether the child of an `EXISTS` has rows. -/
  existential : List (Env → X) → Env → Truth
  other : Op → List (Env → X) → Env → X
  boolean : ∀ pop vs env, ops.MdidType pop = GPDB_BOOL →
    ofTruth (truth (other pop vs env)) = other pop vs env
  matches_eq : ∀ pop pop', ops.Matches pop pop' = true → other pop = other pop'
  unordered : ∀ pop, ops.FInputOrderSensitive pop = false →
    ∀ vs vs', vs.Perm vs' → other pop vs = other pop vs'

variable {ops : ScalarOperators Op} {X Env : Type} (S : Semantics ops X Env)

/-- The value of an operator, from the values of the children. -/
def Semantics.op : PredicateOp Op → List (Env → X) → Env → X
  | .boolOp eboolop, vs, env => S.ofTruth (eboolop.eval (vs.map fun v => S.truth (v env)))
  | .constBool value, _, _ => S.ofTruth value
  | .subqueryExists, vs, env => S.ofTruth (S.existential vs env)
  | .subqueryNotExists, vs, env => S.ofTruth (S.existential vs env).not
  | .other pop, vs, env => S.other pop vs env

def eval (pexpr : Predicate Op) : Env → X := pexpr.fold S.op

/-- The truth value of a predicate. -/
def truth (pexpr : Predicate Op) (env : Env) : Truth := S.truth (pexpr.eval S env)

attribute [local simp] Semantics.op in
@[simp] theorem eval_node (pop : PredicateOp Op) (pdrgpexpr : List (Predicate Op)) :
    eval S (.node pop pdrgpexpr) = S.op pop (pdrgpexpr.map (eval S)) :=
  CExpression.fold_node ..

@[simp] theorem truth_boolOp (eboolop : EBoolOperator) (pdrgpexpr : List (Predicate Op))
    (env : Env) :
    truth S (.node (.boolOp eboolop) pdrgpexpr) env =
      eboolop.eval (pdrgpexpr.map fun pexpr => truth S pexpr env) := by
  rw [truth, eval_node, Semantics.op, S.truth_ofTruth, List.map_map]
  rfl

theorem truth_connective (fConjunction : Bool) (pdrgpexpr : List (Predicate Op)) (env : Env) :
    truth S (.node (.boolOp (if fConjunction then .and else .or)) pdrgpexpr) env =
      Truth.joined fConjunction (pdrgpexpr.map fun pexpr => truth S pexpr env) := by
  rw [truth_boolOp]
  cases fConjunction <;> rfl

@[simp] theorem truth_constBool (value : Option Bool) (pdrgpexpr : List (Predicate Op))
    (env : Env) : truth S (.node (.constBool value) pdrgpexpr) env = value := by
  rw [truth, eval_node, Semantics.op, S.truth_ofTruth]

@[simp] theorem truth_pexprNegate (pexpr : Predicate Op) (env : Env) :
    truth S (PexprNegate pexpr) env = (truth S pexpr env).not := by
  rw [PexprNegate, truth_boolOp]
  rfl

theorem truth_of_fScalarConstBool {value : Bool} (h : FScalarConstBool value pexpr = true)
    (env : Env) : truth S pexpr env = some value := by
  unfold FScalarConstBool at h
  split at h
  · rw [truth_constBool, eq_of_beq h]
  · cases h

/-- **A connective that is built has the truth value of the operands joined.** -/
@[simp] theorem truth_pexprConjDisj (fConjunction : Bool) (pdrgpexpr : List (Predicate Op))
    (env : Env) : truth S (PexprConjDisj fConjunction pdrgpexpr) env =
      Truth.joined fConjunction (pdrgpexpr.map fun pexpr => truth S pexpr env) := by
  unfold PexprConjDisj
  split
  · rename_i hdecides
    obtain ⟨pexpr, hmem, hconst⟩ := List.any_eq_true.1 hdecides
    rw [PexprScalarConstBool, truth_constBool, Truth.joined_of_mem]
    exact truth_of_fScalarConstBool S hconst env ▸ List.mem_map_of_mem hmem
  · have hskip : Truth.joined fConjunction
        ((pdrgpexpr.filter (!FScalarConstBool fConjunction ·)).map fun pexpr => truth S pexpr env) =
          Truth.joined fConjunction (pdrgpexpr.map fun pexpr => truth S pexpr env) :=
      Truth.joined_filter fun pexpr _ hconst =>
        truth_of_fScalarConstBool S (by simpa using hconst) env
    split
    · rename_i hnil
      rw [← hskip, hnil, PexprScalarConstBool, truth_constBool]
      cases fConjunction <;> rfl
    · rename_i pexpr hone
      rw [← hskip, hone, List.map_singleton, Truth.joined_singleton]
    · rw [truth_connective, hskip]

variable {pdrgpexpr : List (Predicate Op)}

theorem holds_conjunction {env : Env} {m : Bool} :
    Truth.holds m (truth S (PexprConjDisj true pdrgpexpr) env) ↔
      ∀ pexpr ∈ pdrgpexpr, Truth.holds m (truth S pexpr env) := by
  simp [Truth.joined]

theorem holds_disjunction {env : Env} {m : Bool} :
    Truth.holds m (truth S (PexprConjDisj false pdrgpexpr) env) ↔
      ∃ pexpr ∈ pdrgpexpr, Truth.holds m (truth S pexpr env) := by
  simp [Truth.joined]

/-- An operator of type bool has the truth value that it is read as. -/
theorem ofTruth_truth (h : CExpression.MdidType (PredicateOp.operators ops) pexpr = GPDB_BOOL)
    (env : Env) :
    S.ofTruth (truth S pexpr env) = eval S pexpr env := by
  obtain ⟨pop, l⟩ := pexpr
  rw [truth, eval_node]
  cases pop with
  | other pop => exact S.boolean pop _ env h
  | _ => rw [Semantics.op, S.truth_ofTruth]

/-- Predicates of type bool with the same truth values have the same value. -/
theorem eval_eq_of_truth {pexpr pexpr' : Predicate Op}
    (h : CExpression.MdidType (PredicateOp.operators ops) pexpr = GPDB_BOOL)
    (h' : CExpression.MdidType (PredicateOp.operators ops) pexpr' = GPDB_BOOL)
    (htruth : ∀ env, truth S pexpr env = truth S pexpr' env) :
    eval S pexpr = eval S pexpr' := by
  funext env
  rw [← ofTruth_truth S h, ← ofTruth_truth S h', htruth]

/-- **Expressions that `CUtils::Equals` takes for equal have one value.** -/
theorem eval_eq_of_equals (lawful : ops.Lawful) {pexpr pexpr' : Predicate Op}
    (h : CExpression.Equals (PredicateOp.operators ops) pexpr pexpr' = true) :
    eval S pexpr = eval S pexpr' := by
  refine CExpression.fold_eq_of_equals (PredicateOp.lawful_operators lawful) ?_ ?_ h
  · intro pop pop' hmatch
    cases pop <;> cases pop' <;> simp_all [PredicateOp.operators, PredicateOp.Matches]
    funext vs env
    exact congrFun (congrFun (S.matches_eq _ _ hmatch) vs) env
  · intro pop hord vs vs' hperm
    funext env
    cases pop with
    | boolOp eboolop =>
      have hmem : ∀ t, t ∈ vs.map (fun v => S.truth (v env)) ↔
          t ∈ vs'.map fun v => S.truth (v env) := fun t => (hperm.map _).mem_iff
      cases eboolop with
      | and => exact congrArg S.ofTruth (Truth.joined_congr true hmem)
      | or => exact congrArg S.ofTruth (Truth.joined_congr false hmem)
      | not => simp [PredicateOp.operators, PredicateOp.FInputOrderSensitive] at hord
    | constBool value => rfl
    | subqueryExists
    | subqueryNotExists => simp [PredicateOp.operators, PredicateOp.FInputOrderSensitive] at hord
    | other pop => exact congrFun (S.unordered pop hord vs vs' hperm) env

/-! ## Types -/

/-- The operands of Boolean operators are of type bool. -/
inductive WellTyped (ops : ScalarOperators Op) : Predicate Op → Prop
  | node (pop : PredicateOp Op) (pdrgpexpr : List (Predicate Op))
    (each : ∀ pexpr ∈ pdrgpexpr, WellTyped ops pexpr)
    (bool : ∀ eboolop, pop = .boolOp eboolop → ∀ pexpr ∈ pdrgpexpr,
      CExpression.MdidType (PredicateOp.operators ops) pexpr = GPDB_BOOL) :
    WellTyped ops (.node pop pdrgpexpr)

theorem wellTyped_node_iff {pop : PredicateOp Op} :
    WellTyped ops (.node pop pdrgpexpr) ↔ (∀ pexpr ∈ pdrgpexpr, WellTyped ops pexpr) ∧
      ∀ eboolop, pop = .boolOp eboolop → ∀ pexpr ∈ pdrgpexpr,
        CExpression.MdidType (PredicateOp.operators ops) pexpr = GPDB_BOOL :=
  ⟨fun h => by cases h; exact ⟨‹_›, ‹_›⟩, fun h => .node pop pdrgpexpr h.1 h.2⟩

theorem mdidType_pexprConjDisj (fConjunction : Bool) (h : ∀ pexpr ∈ pdrgpexpr,
      CExpression.MdidType (PredicateOp.operators ops) pexpr = GPDB_BOOL) :
    CExpression.MdidType (PredicateOp.operators ops) (PexprConjDisj fConjunction pdrgpexpr) =
      GPDB_BOOL := by
  unfold PexprConjDisj
  split
  · rfl
  · split
    · rfl
    · rename_i pexpr hone
      exact h pexpr (List.mem_of_mem_filter (hone ▸ List.mem_singleton_self pexpr))
    · rfl

theorem wellTyped_pexprConjDisj (fConjunction : Bool)
    (h : ∀ pexpr ∈ pdrgpexpr, WellTyped ops pexpr ∧
      CExpression.MdidType (PredicateOp.operators ops) pexpr = GPDB_BOOL) :
    WellTyped ops (PexprConjDisj fConjunction pdrgpexpr) := by
  have hconst : ∀ value, WellTyped ops (PexprScalarConstBool value : Predicate Op) := fun value =>
    .node _ _ (by simp) fun _ h => by cases h
  unfold PexprConjDisj
  split
  · exact hconst _
  · split
    · exact hconst _
    · rename_i pexpr hone
      exact (h pexpr (List.mem_of_mem_filter (hone ▸ List.mem_singleton_self pexpr))).1
    · exact .node _ _ (fun pexpr hmem => (h pexpr (List.mem_of_mem_filter hmem)).1)
        fun _ _ pexpr hmem => (h pexpr (List.mem_of_mem_filter hmem)).2

/-! ## Leaves -/

/-- Boolean leaves, known by number. -/
def leaves : PredicateOperators ℕ :=
  { ScalarOperators.columns with
    MdidType := fun _ => GPDB_BOOL
    HashValue := fun _ => 0 }

theorem lawful_leaves : leaves.toScalarOperators.Lawful where
  symm pop pop' h := by
    simp_all [leaves, ScalarOperators.columns]
  trans pop pop' pop'' h h' := by
    simp_all [leaves, ScalarOperators.columns]
  sensitive _ _ _ := rfl

/-- A leaf has the truth value it is assigned. -/
def assigned : Semantics leaves.toScalarOperators Truth (ℕ → Truth) where
  truth := id
  ofTruth := id
  truth_ofTruth _ := rfl
  existential _ _ := some true
  other pop _ env := env pop
  boolean _ _ _ _ := rfl
  matches_eq pop pop' h := by
    simp_all [leaves, ScalarOperators.columns]
  unordered pop h := by
    simp [leaves, ScalarOperators.columns] at h

/-- The leaf of a number. -/
def leaf (n : ℕ) : Predicate ℕ := .node (.other n) []

@[simp] theorem truth_leaf (n : ℕ) (env : ℕ → Truth) : truth assigned (leaf n) env = env n := by
  simp [truth, leaf, Semantics.op, assigned]

@[simp] theorem wellTyped_leaf (n : ℕ) : WellTyped leaves.toScalarOperators (leaf n) :=
  .node _ _ (by simp) fun _ h => by cases h

@[simp] theorem mdidType_leaf (n : ℕ) :
    CExpression.MdidType (PredicateOp.operators leaves.toScalarOperators) (leaf n) = GPDB_BOOL := rfl

end Predicate

end BossOptimizer

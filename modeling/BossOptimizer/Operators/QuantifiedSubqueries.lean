import BossOptimizer.Lib.KleeneOrder
import BossOptimizer.Operators.QueryExpr

/-!
# Quantified subqueries over one row

`PexprSimplifyQuantifiedSubqueries` (CExpressionPreprocessor.cpp:182) turns a comparison with ANY or
ALL rows of a relation of at most one row into a comparison with a scalar subquery. The relation is
found to have at most one row by its derived maximum, and to be an aggregate without grouping columns
or a constant table below unary operators, which may filter.
-/

namespace BossOptimizer

/-- What the simplification asks of the other operators and of expressions. -/
structure UnaryOperators (D Op : Type) where
  /-- The operator is a `CLogicalUnary`. -/
  FLogicalUnary : Op → Bool
  /-- `EopLogicalGbAgg` with an empty `Pdrgpcr`. -/
  FGbAggWithoutGrpCols : Op → Bool
  /-- `CLogicalGbAgg` is derived from `CLogicalUnary` (CLogicalGbAgg.h:34). -/
  unary_of_gbAgg : ∀ pop, FGbAggWithoutGrpCols pop = true → FLogicalUnary pop = true
  DeriveMaxCard : Query D Op → ℕ

namespace Query

variable {D G Op : Type} (ops : UnaryOperators D Op)

/-- `CUtils::FLogicalUnary` (CUtils.cpp:992). -/
def FLogicalUnary : QueryOp D Op → Bool
  | .logicalProject => true
  | .other pop => ops.FLogicalUnary pop
  | _ => false

/-- The loop that skips intermediate unary nodes. -/
def skipUnary : Query D Op → Query D Op
  | .node pop (pexpr :: pdrgpexpr) =>
    if FLogicalUnary ops pop then skipUnary pexpr else .node pop (pexpr :: pdrgpexpr)
  | pexpr => pexpr

def fGbAggWithoutGrpCols : Query D Op → Bool
  | .node (.other pop) _ => ops.FGbAggWithoutGrpCols pop
  | _ => false

def fOneRowConstTable : Query D Op → Bool
  | .node (.logicalConstTableGet _ pdrgpdrgpdatum) _ => pdrgpdrgpdatum.length == 1
  | _ => false

/-- `CUtils::FQuantifiedSubquery` (CUtils.cpp:1227), with the `MdIdOp` and the `Pcr` of the
    `CScalarSubqueryQuantified`. -/
def quantified : QueryOp D Op → Option (ℕ × CColRef)
  | .scalarSubqueryAny mdidOp colref => some (mdidOp, colref)
  | .scalarSubqueryAll mdidOp colref => some (mdidOp, colref)
  | _ => none

variable {S : QuerySemantics D G Op} (md : Comparisons S)

/-- The comparison with a scalar subquery that stands for a quantified one. -/
def simplified : Query D Op → Option (Query D Op)
  | .node pop [pexprInner, pexprScalar] =>
    match quantified pop with
    | some (mdidOp, colref) =>
      if ops.DeriveMaxCard pexprInner == 1 &&
          (fGbAggWithoutGrpCols ops (skipUnary ops pexprInner) ||
            fOneRowConstTable (skipUnary ops pexprInner)) then
        some (md.PexprScalarCmp pexprScalar
          (.node (.scalarSubquery colref false true) [pexprInner]) mdidOp)
      else none
    | none => none
  | _ => none

mutual

/-- `PexprSimplifyQuantifiedSubqueries` (CExpressionPreprocessor.cpp:182). -/
def PexprSimplifyQuantifiedSubqueries : Query D Op → Query D Op
  | .node pop pdrgpexpr =>
    match simplified ops md (.node pop pdrgpexpr) with
    | some pexpr => pexpr
    | none => .node pop (simplifyEach pdrgpexpr)

def simplifyEach : List (Query D Op) → List (Query D Op)
  | [] => []
  | pexpr :: pdrgpexpr => PexprSimplifyQuantifiedSubqueries pexpr :: simplifyEach pdrgpexpr

end

/-- The expressions that the recursion comes to. -/
inductive Reached (s : Query D Op) : Query D Op → Prop
  | refl : Reached s s
  | child {pop : QueryOp D Op} {pdrgpexpr : List (Query D Op)} {pexpr : Query D Op}
      (kept : simplified ops md (.node pop pdrgpexpr) = none) (h : pexpr ∈ pdrgpexpr)
      (hs : Reached s pexpr) : Reached s (.node pop pdrgpexpr)

attribute [local simp] PexprSimplifyQuantifiedSubqueries simplifyEach in
theorem simplifyEach_eq_map (pdrgpexpr : List (Query D Op)) :
    simplifyEach ops md pdrgpexpr =
      pdrgpexpr.map (PexprSimplifyQuantifiedSubqueries ops md) := by
  induction pdrgpexpr with
  | nil => rfl
  | cons pexpr pdrgpexpr ih => rw [simplifyEach, ih, List.map_cons]

theorem pexprSimplify_of_simplified {s pexpr : Query D Op} (h : simplified ops md s = some pexpr) :
    PexprSimplifyQuantifiedSubqueries ops md s = pexpr := by
  obtain ⟨pop, l⟩ := s
  rw [PexprSimplifyQuantifiedSubqueries, h]

theorem pexprSimplify_of_kept {pop : QueryOp D Op} {l : List (Query D Op)}
    (h : simplified ops md (.node pop l) = none) :
    PexprSimplifyQuantifiedSubqueries ops md (.node pop l) =
      .node pop (l.map (PexprSimplifyQuantifiedSubqueries ops md)) := by
  rw [PexprSimplifyQuantifiedSubqueries, h, simplifyEach_eq_map]

variable {ops md}

theorem Reached.trans {s t e : Query D Op} (hs : Reached ops md s t) (ht : Reached ops md t e) :
    Reached ops md s e := by
  induction ht with
  | refl => exact hs
  | child kept h _ ih => exact .child kept h ih

/-! ## The test -/

/-! ## One rewriting -/

/-- What the answers of the single comparisons make. -/
def quantify : QueryOp D Op → List Truth → Truth
  | .scalarSubqueryAll .. => Truth.all
  | _ => Truth.any

theorem quantify_singleton (pop : QueryOp D Op) (t : Truth) : quantify pop [t] = t := by
  unfold quantify
  split
  · exact Truth.joined_singleton true t
  · exact Truth.joined_singleton false t

theorem op_quantified {pop : QueryOp D Op} {mdidOp : ℕ} {colref : CColRef}
    (hpop : quantified pop = some (mdidOp, colref)) (inner scalar : Env D G → Result D)
    (env : Env D G) :
    S.op pop [inner, scalar] env = Result.ofOption (do
      let rows ← (inner env).rows?
      let v ← (scalar env).value?
      some (.value (S.ofTruth (quantify pop (rows.map fun row => S.cmp mdidOp v (row colref)))))) := by
  cases pop <;> cases hpop <;> rfl

variable (S)

/-- A quantified subquery ranges over one row wherever its operands can be evaluated; or over none,
    where the comparison with NULL answers as no row does. -/
def OneRow (env : Env D G) : Query D Op → Prop
  | .node pop [pexprInner, pexprScalar] =>
    ∀ mdidOp colref, quantified pop = some (mdidOp, colref) →
      ∀ rows v, (eval S pexprInner env).rows? = some rows →
        (eval S pexprScalar env).value? = some v →
          rows.length = 1 ∨ rows = [] ∧ S.cmp mdidOp v ⊥ = quantify pop []
  | _ => True

variable {S}

/-- The comparison with the only value of some rows, against the comparison with any or all of
    them. -/
theorem cmp_onlyValue_eq_iff {pop : QueryOp D Op} {mdidOp : ℕ} {colref : CColRef}
    {rows : List (Row D)} {v : Datum D} :
    (Result.ofOption do
        let r ← (onlyValue colref rows).value?
        some (.value (S.ofTruth (S.cmp mdidOp v r)))) =
      .value (S.ofTruth (quantify pop (rows.map fun row => S.cmp mdidOp v (row colref)))) ↔
      rows.length = 1 ∨ rows = [] ∧ S.cmp mdidOp v ⊥ = quantify pop [] := by
  have hinj : ∀ t t' : Truth, S.ofTruth t = S.ofTruth t' ↔ t = t' := fun t t' =>
    ⟨fun h => by rw [← S.truth_ofTruth t, h, S.truth_ofTruth], congrArg S.ofTruth⟩
  rcases rows with _ | ⟨row, _ | ⟨row', rows⟩⟩
  · simp [Result.value?, Result.ofOption, onlyValue, hinj]
  · simp [Result.value?, Result.ofOption, onlyValue, quantify_singleton]
  · simp [Result.value?, Result.ofOption, onlyValue]

/-- One rewriting keeps the value on an outer row when the subquery ranges over one row there. -/
theorem eval_simplified_iff {s pexpr : Query D Op} (h : simplified ops md s = some pexpr)
    (env : Env D G) : eval S pexpr env = eval S s env ↔ OneRow S env s := by
  unfold simplified at h
  split at h
  · rename_i pop pexprInner pexprScalar
    cases hpop : quantified pop with
    | none => simp [hpop] at h
    | some p =>
      obtain ⟨mdidOp, colref⟩ := p
      simp only [hpop, Option.ite_none_right_eq_some, Option.some.injEq] at h
      rw [← h.2, md.eval_pexprScalarCmp]
      simp only [eval_node, List.map_cons, List.map_nil, op_quantified hpop, OneRow, hpop,
        Option.some.injEq, Prod.mk.injEq, and_imp]
      simp only [QuerySemantics.op]
      -- an operand that fails does fail both
      cases hscalar : (eval S pexprScalar env).value? with
      | none => cases (eval S pexprInner env).rows? <;> simp [Result.ofOption]
      | some v =>
        cases hinner : (eval S pexprInner env).rows? with
        | none => simp [Result.ofOption, Result.value?]
        | some rows => simpa [Result.ofOption] using cmp_onlyValue_eq_iff
  · cases h

/-! ## The pass -/

/-- **Simplification keeps the value of every expression on every row exactly when every subquery
that it turns into a comparison ranges over one row**, not just at most one. -/
theorem eval_pexprSimplifyQuantifiedSubqueries_iff (md : Comparisons S) (pexpr : Query D Op) :
    (∀ s, Reached ops md s pexpr → ∀ env,
      eval S (PexprSimplifyQuantifiedSubqueries ops md s) env = eval S s env) ↔
    ∀ s e, Reached ops md s pexpr → simplified ops md s = some e → ∀ env, OneRow S env s := by
  constructor
  · intro hkept s e hs he env
    have heq := hkept s hs env
    rw [pexprSimplify_of_simplified ops md he] at heq
    exact (eval_simplified_iff he env).1 heq
  · intro hone s
    induction s using CExpression.induction with
    | node pop l ih =>
      intro hs env
      cases he : simplified ops md (.node pop l) with
      | some e =>
        rw [pexprSimplify_of_simplified ops md he]
        exact (eval_simplified_iff he env).2 (hone _ e hs he env)
      | none =>
        rw [pexprSimplify_of_kept ops md he, eval_node_congr pop fun c hc =>
          funext (ih c hc (.trans (.child he hc .refl) hs))]

/-! ## A relation that filters -/

/-- The maximum of a selection is that of its child (CLogicalSelect.cpp). -/
def selectionOperators : UnaryOperators ℕ Unit where
  FLogicalUnary _ := true
  FGbAggWithoutGrpCols _ := false
  unary_of_gbAgg _ h := by cases h
  DeriveMaxCard pexpr := pexpr.fold fun pop ns => match pop with
    | .logicalConstTableGet _ data => data.length
    | _ => ns.headD 0

/-- `x = ANY (SELECT c FROM (VALUES (5)) t(c) WHERE c > y)`. -/
def anyOfSelection : Query ℕ Unit :=
  .node (.scalarSubqueryAny 96 colC)
    [.node (.other ()) [.node (.logicalConstTableGet [colC] [[some 5]]) [],
        .node (.scalarCmp 521) [.node (.scalarIdent colC) [], .node (.scalarIdent colY) []]],
      .node (.scalarIdent colX) []]

/-- **Where no row passes the selection, the subquery is false and the comparison is unknown.** -/
theorem not_eval_pexprSimplifyQuantifiedSubqueries :
    let env : Env ℕ Unit := ⟨fun _ => some 7, ()⟩
    ((eval selections anyOfSelection env).value?.map selections.truth,
      (eval selections (PexprSimplifyQuantifiedSubqueries selectionOperators (.plain selections)
        anyOfSelection) env).value?.map selections.truth) = (some (some false), some none) := by
  decide +kernel

end Query

end BossOptimizer

import BossOptimizer.Operators.QueryExpr

/-!
# Eliminating self comparisons (CPredicateUtils.cpp:847–915, CExpressionPreprocessor.cpp:56)

A comparison of a column with itself is replaced by TRUE or FALSE when the column is one of a table
that is declared NOT NULL. The declaration is about the rows of the table: above the inner side of
an outer join the column may be NULL, the comparison unknown and the constant wrong. This is the
only way to go wrong, wherever in a query the comparison stands.

Which rows reach a comparison depends on the operators above it. `Passing` says in which
environments an operator evaluates its children; `Visited` follows it down to an expression, as far
as the pass goes.
-/

namespace BossOptimizer

namespace Query

variable {D G Op : Type}

/-! ## Environments of the children -/

/-- The two lists of children agree in the environments that each child is evaluated in. -/
def AgreeIn (sites : ℕ → Env D G → Prop) (vs vs' : List (Env D G → Result D)) : Prop :=
  vs.length = vs'.length ∧ ∀ i v v', vs[i]? = some v → vs'[i]? = some v' →
    ∀ env, sites i env → v env = v' env

/-- In which environments the operators that the rewrites do not look at evaluate their children,
from the values of the children and their own environment: an operator depends on its children
there only. -/
structure Passing (S : QuerySemantics D G Op) where
  other : Op → List (Env D G → Result D) → Env D G → ℕ → Env D G → Prop
  congr : ∀ pop vs vs' env, AgreeIn (other pop vs env) vs vs' →
    S.other pop vs env = S.other pop vs' env

/-- The environments of the children of any operator: a project list is evaluated for the rows of
    its relational sibling, and the other operators that the rewrites look at pass their own on. -/
def Passing.sites {S : QuerySemantics D G Op} (P : Passing S) :
    QueryOp D Op → List (Env D G → Result D) → Env D G → ℕ → Env D G → Prop
  | .logicalProject, vs, env, i, env' =>
    if i = 1 then ∃ child rows row, vs[0]? = some child ∧ (child env).rows? = some rows ∧
      row ∈ rows ∧ env' = { env with row := row }
    else env' = env
  | .other pop, vs, env, i, env' => P.other pop vs env i env'
  | _, _, env, _, env' => env' = env

section Passing

variable {S : QuerySemantics D G Op}

theorem map_eq_of_agreeIn {vs vs' : List (Env D G → Result D)} {env : Env D G}
    (h : AgreeIn (fun _ env' => env' = env) vs vs') :
    vs.map (fun v => v env) = vs'.map fun v => v env := by
  refine List.ext_getElem (by simp [h.1]) fun i hi hi' => ?_
  rw [List.length_map] at hi hi'
  rw [List.getElem_map, List.getElem_map]
  exact h.2 i _ _ (List.getElem?_eq_getElem hi) (List.getElem?_eq_getElem hi') env rfl

/-- An operator that hands its environment on goes by what its children are in it. -/
theorem op_eq_of_map_eq {pop : QueryOp D Op} (hproject : pop ≠ .logicalProject)
    (hother : ∀ p, pop ≠ .other p) {vs vs' : List (Env D G → Result D)} {env : Env D G}
    (h : vs.map (fun v => v env) = vs'.map fun v => v env) :
    S.op pop vs env = S.op pop vs' env := by
  have hmapM : ∀ {β : Type} (f : Result D → Option β), vs.mapM (fun v => f (v env)) =
      vs'.mapM fun v => f (v env) := by
    intro β f
    have hcomp : ∀ ws : List (Env D G → Result D), ws.mapM (fun v => f (v env)) =
        (ws.map fun v => v env).mapM f := fun ws => List.mapM_map.symm
    rw [hcomp, hcomp, h]
  cases pop with
  | scalarBoolOp eboolop => simp only [QuerySemantics.op, hmapM]
  | scalarProjectList => simp only [QuerySemantics.op, hmapM]
  | logicalConstTableGet out data => rfl
  | logicalProject => exact absurd rfl hproject
  | other p => exact absurd rfl (hother p)
  | _ =>
    -- at most two operands, which are the same values
    rcases vs with _ | ⟨v, _ | ⟨w, _ | ⟨x, vs⟩⟩⟩ <;>
      rcases vs' with _ | ⟨v', _ | ⟨w', _ | ⟨x', vs'⟩⟩⟩ <;>
      simp_all [QuerySemantics.op]

theorem mapM_congr {α β : Type} {f f' : α → Option β} {as : List α} (h : ∀ a ∈ as, f a = f' a) :
    as.mapM f = as.mapM f' := by
  induction as with
  | nil => rfl
  | cons a as ih =>
    rw [List.mapM_cons, List.mapM_cons, h a List.mem_cons_self,
      ih fun a ha => h a (List.mem_cons_of_mem _ ha)]

/-- **An operator keeps its result** when its children keep theirs where it evaluates them. -/
theorem Passing.op_eq (P : Passing S) (pop : QueryOp D Op) {vs vs' : List (Env D G → Result D)}
    {env : Env D G} (h : AgreeIn (P.sites pop vs env) vs vs') :
    S.op pop vs env = S.op pop vs' env := by
  by_cases hother : ∃ p, pop = .other p
  · obtain ⟨p, rfl⟩ := hother
    exact P.congr p vs vs' env h
  by_cases hproject : pop = .logicalProject
  · subst hproject
    obtain ⟨hlen, hagree⟩ := h
    match vs, vs', hlen with
    | [], [], _ => rfl
    | [_], [_], _ => rfl
    | [child, list], [child', list'], _ =>
      have hchild : child env = child' env := hagree 0 child child' rfl rfl env rfl
      simp only [QuerySemantics.op, ← hchild]
      cases hrows : (child env).rows? with
      | none => rfl
      | some rows =>
        have hlist : ∀ row ∈ rows, list { env with row := row } = list' { env with row := row } :=
          fun row hrow => hagree 1 list list' rfl rfl _ ⟨child, rows, row, rfl, hrows, hrow, rfl⟩
        refine congrArg (fun o => Result.ofOption (o.bind fun projected =>
          some (.relation projected.flatten))) (mapM_congr fun row hrow => ?_)
        rw [hlist row hrow]
    | _ :: _ :: _ :: _, _ :: _ :: _ :: _, _ => rfl
  · refine op_eq_of_map_eq hproject (fun p hp => hother ⟨p, hp⟩) (map_eq_of_agreeIn ?_)
    cases pop with
    | logicalProject => exact absurd rfl hproject
    | other p => exact absurd ⟨p, rfl⟩ hother
    | _ => exact h

end Passing

/-! ## The pass -/

/-- What the metadata knows of comparison operators, and the Boolean constants. A comparison of a
value with itself is true or false by its type, and unknown for NULL; NULL is not distinct from
itself. -/
structure ComparisonTypes (S : QuerySemantics D G Op) where
  ParseCmpType : ℕ → ECmpType
  PopScalarConstBool : Bool → Op
  const : ∀ value env, S.other (PopScalarConstBool value) [] env =
    .value (S.ofTruth (some value))
  reflexive : ∀ mdidOp v, ParseCmpType mdidOp ∈ [.eq, .leq, .geq] → v ≠ ⊥ →
    S.cmp mdidOp v v = some true
  irreflexive : ∀ mdidOp v, ParseCmpType mdidOp ∈ [.neq, .l, .g] → v ≠ ⊥ →
    S.cmp mdidOp v v = some false
  unknown : ∀ mdidOp, ParseCmpType mdidOp ∈ [.eq, .leq, .geq, .neq, .l, .g] →
    S.cmp mdidOp ⊥ ⊥ = none
  notDistinct : ∀ mdidOp v, ParseCmpType mdidOp = .idf → S.cmp mdidOp v v = some false

variable {S : QuerySemantics D G Op} (types : ComparisonTypes S)

/-- `CUtils::FScalarCmp`. -/
def FScalarCmp : Query D Op → Bool
  | .node (.scalarCmp _) _ => true
  | _ => false

/-- `CPredicateUtils::FSelfComparison` (CPredicateUtils.cpp:847): the column and the type of the
    comparison. -/
def FSelfComparison : Query D Op → Option (CColRef × ECmpType)
  | .node (.scalarCmp mdidOp) [.node (.scalarIdent pcrLeft) [], .node (.scalarIdent pcrRight) []] =>
    if pcrLeft = pcrRight ∧ pcrLeft.fTable = true ∧ pcrLeft.isNullable = false then
      some (pcrLeft, types.ParseCmpType mdidOp)
    else none
  | _ => none

/-- `CUtils::PexprScalarConstBool`. -/
def PexprScalarConstBool (value : Bool) : Query D Op :=
  .node (.other (types.PopScalarConstBool value)) []

/-- `CPredicateUtils::PexprEliminateSelfComparison` (CPredicateUtils.cpp:882). -/
def CPredicateUtils.PexprEliminateSelfComparison (pexpr : Query D Op) : Query D Op :=
  match FSelfComparison types pexpr with
  | some (_, cmpType) =>
    match cmpType with
    | .eq | .leq | .geq => PexprScalarConstBool types true
    | .neq | .l | .g | .idf => PexprScalarConstBool types false
    | .other => pexpr
  | none => pexpr

mutual

/-- `CExpressionPreprocessor::PexprEliminateSelfComparison` (CExpressionPreprocessor.cpp:56): it
    does not go below a comparison. -/
def PexprEliminateSelfComparison : Query D Op → Query D Op
  | .node pop pdrgpexpr =>
    if FScalarCmp (.node pop pdrgpexpr) then
      CPredicateUtils.PexprEliminateSelfComparison types (.node pop pdrgpexpr)
    else .node pop (eliminateSelfComparisonEach pdrgpexpr)

def eliminateSelfComparisonEach : List (Query D Op) → List (Query D Op)
  | [] => []
  | pexpr :: pdrgpexpr =>
    PexprEliminateSelfComparison pexpr :: eliminateSelfComparisonEach pdrgpexpr

end

/-! ## Rows that reach a comparison -/

/-- The expression is evaluated in the environment when the query is, and the pass comes to it. -/
inductive Visited (P : Passing S) : Query D Op → Env D G → Query D Op → Env D G → Prop
  | here (pexpr : Query D Op) (env : Env D G) : Visited P pexpr env pexpr env
  | child {pop : QueryOp D Op} {pdrgpexpr : List (Query D Op)} {child pexpr : Query D Op}
    {env env' env'' : Env D G} {i : ℕ} (goes : FScalarCmp (.node pop pdrgpexpr) = false)
    (get : pdrgpexpr[i]? = some child) (site : P.sites pop (pdrgpexpr.map (eval S)) env i env')
    (rest : Visited P child env' pexpr env'') : Visited P (.node pop pdrgpexpr) env pexpr env''

/-- A comparison of a column with itself that NULL makes unknown and that is replaced. -/
def ReplacedOn (pexpr : Query D Op) (colref : CColRef) : Prop :=
  ∃ cmpType ∈ [.eq, .leq, .geq, .neq, .l, .g],
    FSelfComparison types pexpr = some (colref, cmpType)

variable {types}

attribute [local simp] PexprEliminateSelfComparison eliminateSelfComparisonEach in
theorem eliminateSelfComparisonEach_eq_map (l : List (Query D Op)) :
    eliminateSelfComparisonEach types l = l.map (PexprEliminateSelfComparison types) := by
  induction l with
  | nil => rfl
  | cons e l ih => rw [eliminateSelfComparisonEach, ih, List.map_cons]

theorem eval_pexprScalarConstBool (value : Bool) (env : Env D G) :
    eval S (PexprScalarConstBool types value) env = .value (S.ofTruth (some value)) := by
  rw [PexprScalarConstBool, eval_node]
  exact types.const value env

theorem ofTruth_injective : Function.Injective S.ofTruth :=
  fun t t' h => by rw [← S.truth_ofTruth t, h, S.truth_ofTruth]

theorem ReplacedOn.fScalarCmp {pexpr : Query D Op} {colref : CColRef}
    (h : ReplacedOn types pexpr colref) : FScalarCmp pexpr = true := by
  obtain ⟨cmpType, -, hself⟩ := h
  unfold FSelfComparison at hself
  split at hself
  · rfl
  · cases hself

/-- A self comparison compares the value of the column with itself. -/
theorem eval_of_fSelfComparison {pexpr : Query D Op} {colref : CColRef} {cmpType : ECmpType}
    (h : FSelfComparison types pexpr = some (colref, cmpType)) :
    ∃ mdidOp, types.ParseCmpType mdidOp = cmpType ∧ ∀ env : Env D G, eval S pexpr env =
      .value (S.ofTruth (S.cmp mdidOp (env.row colref) (env.row colref))) := by
  unfold FSelfComparison at h
  split at h
  · rename_i mdidOp pcrLeft pcrRight
    split_ifs at h with hsame
    obtain ⟨rfl, -⟩ := hsame
    cases h
    exact ⟨mdidOp, rfl, fun env => by simp [QuerySemantics.op, Result.ofOption, Result.value?]⟩
  · cases h

/-- **One comparison keeps its value** in an environment exactly when its column is not NULL there,
    if it is replaced at all. -/
theorem eval_pexprEliminateSelfComparison_iff (pexpr : Query D Op) (env : Env D G) :
    eval S (CPredicateUtils.PexprEliminateSelfComparison types pexpr) env = eval S pexpr env ↔
      ∀ colref, ReplacedOn types pexpr colref → env.row colref ≠ ⊥ := by
  unfold CPredicateUtils.PexprEliminateSelfComparison
  cases hself : FSelfComparison types pexpr with
  | none =>
    refine iff_of_true rfl fun colref ⟨cmpType, _, h⟩ => ?_
    rw [hself] at h
    cases h
  | some found =>
    obtain ⟨colref, cmpType⟩ := found
    obtain ⟨mdidOp, htype, heval⟩ := eval_of_fSelfComparison hself
    have hreplaced : ∀ c, ReplacedOn types pexpr c ↔
        cmpType ∈ [.eq, .leq, .geq, .neq, .l, .g] ∧ c = colref := by
      intro c
      rw [ReplacedOn, hself]
      constructor
      · rintro ⟨t, ht, h⟩
        cases h
        exact ⟨ht, rfl⟩
      · rintro ⟨ht, rfl⟩
        exact ⟨cmpType, ht, rfl⟩
    have hconst : ∀ value : Bool, (eval S (PexprScalarConstBool types value) env =
        eval S pexpr env ↔ some value = S.cmp mdidOp (env.row colref) (env.row colref)) := by
      intro value
      rw [eval_pexprScalarConstBool, heval, Result.value.injEq, ofTruth_injective.eq_iff]
    -- the constant is the value of the comparison except for NULL
    have hvalue : ∀ value : Bool, cmpType ∈ [.eq, .leq, .geq, .neq, .l, .g] →
        (env.row colref ≠ ⊥ → S.cmp mdidOp (env.row colref) (env.row colref) = some value) →
        (eval S (PexprScalarConstBool types value) env = eval S pexpr env ↔
          ∀ c, ReplacedOn types pexpr c → env.row c ≠ ⊥) := by
      intro value ht hcmp
      rw [hconst]
      simp only [hreplaced, ht, true_and, forall_eq]
      constructor
      · intro h hbot
        rw [hbot, types.unknown mdidOp (htype ▸ ht)] at h
        cases h
      · exact fun h => (hcmp h).symm
    cases cmpType with
    | other => exact iff_of_true rfl fun c hc => absurd ((hreplaced c).1 hc).1 (by decide)
    | idf =>
      refine iff_of_true ((hconst false).2 (types.notDistinct mdidOp _ htype).symm) fun c hc => ?_
      exact absurd ((hreplaced c).1 hc).1 (by decide)
    | eq | leq | geq =>
      exact hvalue true (by decide) (types.reflexive mdidOp _ (by rw [htype]; decide))
    | neq | l | g =>
      exact hvalue false (by decide) (types.irreflexive mdidOp _ (by rw [htype]; decide))

/-- The query keeps its result when the comparisons keep theirs wherever they are evaluated: by
    induction on the tree, an operator depends on its children where it evaluates them. -/
theorem eval_of_comparisons (P : Passing S) {pexpr : Query D Op} {env : Env D G}
    (h : ∀ cmp env', Visited P pexpr env cmp env' → FScalarCmp cmp = true →
      eval S (CPredicateUtils.PexprEliminateSelfComparison types cmp) env' = eval S cmp env') :
    eval S (PexprEliminateSelfComparison types pexpr) env = eval S pexpr env := by
  induction pexpr using CExpression.induction generalizing env with
  | node pop l ih =>
    rw [PexprEliminateSelfComparison]
    by_cases hcmp : FScalarCmp (.node pop l) = true
    · rw [if_pos hcmp]
      exact h _ env (.here _ env) hcmp
    · rw [if_neg hcmp, eliminateSelfComparisonEach_eq_map, eval_node, eval_node, List.map_map]
      refine (P.op_eq pop ⟨by simp, fun i v v' hv hv' env' hsite => ?_⟩).symm
      rw [List.getElem?_map] at hv hv'
      obtain ⟨child, hchild, rfl⟩ := Option.map_eq_some_iff.1 hv
      rw [hchild, Option.map_some, Option.some.injEq] at hv'
      subst hv'
      exact (ih child (List.mem_of_getElem? hchild) fun cmp env'' hvisited =>
        h cmp env'' (.child (by simpa using hcmp) hchild hsite hvisited)).symm

/-- **Eliminating self comparisons keeps every comparison** that the query evaluates, in the rows
    that reach it, exactly when the columns of the replaced ones are not NULL in these rows; and
    then the query returns what it returned. -/
theorem pexprEliminateSelfComparison_keeps_iff (P : Passing S) (pexpr : Query D Op)
    (env : Env D G) :
    ((∀ cmp env', Visited P pexpr env cmp env' → FScalarCmp cmp = true →
        eval S (CPredicateUtils.PexprEliminateSelfComparison types cmp) env' = eval S cmp env') ↔
      ∀ cmp env', Visited P pexpr env cmp env' → ∀ colref, ReplacedOn types cmp colref →
        env'.row colref ≠ ⊥) ∧
    ((∀ cmp env', Visited P pexpr env cmp env' → ∀ colref, ReplacedOn types cmp colref →
        env'.row colref ≠ ⊥) →
      eval S (PexprEliminateSelfComparison types pexpr) env = eval S pexpr env) := by
  have hiff : (∀ cmp env', Visited P pexpr env cmp env' → FScalarCmp cmp = true →
        eval S (CPredicateUtils.PexprEliminateSelfComparison types cmp) env' = eval S cmp env') ↔
      ∀ cmp env', Visited P pexpr env cmp env' → ∀ colref, ReplacedOn types cmp colref →
        env'.row colref ≠ ⊥ := by
    constructor
    · intro h cmp env' hvisited colref hreplaced
      exact (eval_pexprEliminateSelfComparison_iff cmp env').1
        (h cmp env' hvisited hreplaced.fScalarCmp) colref hreplaced
    · exact fun h cmp env' hvisited _ =>
        (eval_pexprEliminateSelfComparison_iff cmp env').2 (h cmp env' hvisited)
  exact ⟨hiff, fun h => eval_of_comparisons P (hiff.2 h)⟩

/-! ## Above an outer join -/

section Examples

/-- Boolean constants, left outer joins with the columns of the inner side, and selections. -/
inductive OuterJoinOp where
  | constBool (value : Bool)
  | leftOuterJoin (pdrgpcrInner : List CColRef)
  | select

/-- The predicate accepts the row. -/
def accepts (pred : Env ℕ Unit → Result ℕ) (env : Env ℕ Unit) : Bool :=
  match pred env with
  | .value (some v) => v == 1
  | _ => false

/-- Numbers as values, 1 and 0 as truth values; every comparison operator is the equality. -/
def outerJoins : QuerySemantics ℕ Unit OuterJoinOp where
  truth v := v.map (· == 1)
  ofTruth t := t.map fun b => if b then 1 else 0
  truth_ofTruth := by exact selections.truth_ofTruth
  cmp _ v w := Option.map₂ (· == ·) v w
  other
    | .constBool value, _, _ => .value (some (if value then 1 else 0))
    | .leftOuterJoin cols, [outer, inner, pred], env => match outer env, inner env with
      | .relation ls, .relation rs => .relation (Joins.leftOuter
          (fun l r => accepts pred { env with row := merge cols l r }) (merge cols)
          (merge cols · nullRow) ls rs)
      | _, _ => .failure
    | .select, [child, pred], env => match child env with
      | .relation rows =>
        .relation (rows.filter fun row => accepts pred { env with row := row })
      | _ => .failure
    | _, _, _ => .failure

/-- The ON condition is evaluated for the pairs of rows, a selection for the rows of its child. -/
def outerJoinsPassing : Passing outerJoins where
  other
    | .leftOuterJoin cols, vs, env, i, env' =>
      if i = 2 then ∃ outer inner ls rs, ∃ l ∈ ls, ∃ r ∈ rs, vs[0]? = some outer ∧
        vs[1]? = some inner ∧ outer env = .relation ls ∧ inner env = .relation rs ∧
        env' = { env with row := merge cols l r }
      else env' = env
    | .select, vs, env, i, env' =>
      if i = 1 then ∃ child rows, ∃ row ∈ rows, vs[0]? = some child ∧
        child env = .relation rows ∧ env' = { env with row := row }
      else env' = env
    | .constBool _, _, env, _, env' => env' = env
  congr pop vs vs' env h := by
    obtain ⟨hlen, hagree⟩ := h
    cases pop with
    | constBool value => rfl
    | leftOuterJoin cols =>
      match vs, vs', hlen with
      | [outer, inner, pred], [outer', inner', pred'], _ =>
        have houter : outer env = outer' env := hagree 0 _ _ rfl rfl env rfl
        have hinner : inner env = inner' env := hagree 1 _ _ rfl rfl env rfl
        simp only [outerJoins, ← houter, ← hinner]
        cases ho : outer env with
        | relation ls =>
          cases hi : inner env with
          | relation rs =>
            refine congrArg Result.relation (Joins.leftOuter_congr fun l hl r hr => ?_)
            rw [accepts, accepts, hagree 2 pred pred' rfl rfl _
              ⟨outer, inner, ls, rs, l, hl, r, hr, rfl, rfl, ho, hi, rfl⟩]
          | _ => rfl
        | _ => rfl
      | [], [], _ => rfl
      | [_], [_], _ => rfl
      | [_, _], [_, _], _ => rfl
      | _ :: _ :: _ :: _ :: _, _ :: _ :: _ :: _ :: _, _ => rfl
    | select =>
      match vs, vs', hlen with
      | [child, pred], [child', pred'], _ =>
        have hchild : child env = child' env := hagree 0 _ _ rfl rfl env rfl
        simp only [outerJoins, ← hchild]
        cases hc : child env with
        | relation rows =>
          refine congrArg Result.relation (List.filter_congr fun row hrow => ?_)
          rw [accepts, accepts, hagree 1 pred pred' rfl rfl _
            ⟨child, rows, row, hrow, rfl, hc, rfl⟩]
        | _ => rfl
      | [], [], _ => rfl
      | [_], [_], _ => rfl
      | _ :: _ :: _ :: _, _ :: _ :: _ :: _, _ => rfl

def equalityTypes : ComparisonTypes outerJoins where
  ParseCmpType _ := .eq
  PopScalarConstBool := .constBool
  const value env := by cases value <;> rfl
  reflexive _ v _ hv := by
    cases v using WithBot.recBotCoe with
    | bot => exact absurd rfl hv
    | coe n => exact congrArg some (beq_self_eq_true n)
  irreflexive _ _ h _ := absurd h (by decide)
  unknown _ _ := rfl
  notDistinct _ _ h := absurd h (by decide)

/-- `select * from a left join b on b.x = b.x where b.x = b.x` with one row in `a` and none in `b`,
    for a column declared NOT NULL: the selection is given a row in which `b.x` is NULL, where the
    comparison is unknown and the constant TRUE. -/
theorem pexprEliminateSelfComparison_aboveOuterJoin :
    let x : CColRef := ⟨2, true, true, false⟩
    let cmp : Query ℕ OuterJoinOp :=
      .node (.scalarCmp 96) [.node (.scalarIdent x) [], .node (.scalarIdent x) []]
    let query : Query ℕ OuterJoinOp :=
      .node (.other .select) [.node (.other (.leftOuterJoin [x]))
        [.node (.logicalConstTableGet [⟨1, true, true, false⟩] [[some 7]]) [],
          .node (.logicalConstTableGet [x] []) [], cmp], cmp]
    let env : Env ℕ Unit := ⟨nullRow, ()⟩
    ¬∀ cmp env', Visited outerJoinsPassing query env cmp env' → FScalarCmp cmp = true →
      eval outerJoins (CPredicateUtils.PexprEliminateSelfComparison equalityTypes cmp) env' =
        eval outerJoins cmp env' := by
  intro x cmp query env h
  let row : Row ℕ := merge [x] (assign [⟨1, true, true, false⟩] [some 7] nullRow) nullRow
  have hvisited : Visited outerJoinsPassing query env cmp { env with row := row } := by
    refine .child rfl (i := 1) rfl ?_ (.here _ _)
    exact ⟨_, [row], row, List.mem_singleton_self row, rfl, rfl, rfl⟩
  have hreplaced : ReplacedOn equalityTypes cmp x := ⟨.eq, by decide, rfl⟩
  exact (eval_pexprEliminateSelfComparison_iff cmp _).1 (h cmp _ hvisited rfl) x hreplaced rfl

end Examples

end Query

end BossOptimizer

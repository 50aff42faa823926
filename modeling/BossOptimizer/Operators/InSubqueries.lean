import BossOptimizer.Operators.QueryColumns

/-!
# IN subqueries that do not look at their relation

`PexprExistWithPredFromINSubq` (CExpressionPreprocessor.cpp:2508) turns `a IN (SELECT e FROM r)` into
`a = e AND EXISTS (SELECT * FROM r)` where `e` is found to have no column of `r`. The comparison is
made with the first element of the project list, whichever column the subquery compares.
-/

namespace BossOptimizer

namespace Query

variable {D G Op : Type}

/-! ## The tests -/

/-- `CUtils::FExprHasAnyCrFromCrs` (CUtils.cpp:4480): identifiers and project elements on the columns. -/
def FExprHasAnyCrFromCrs (pexpr : Query D Op) (pcrs : List CColRef) : Bool :=
  pexpr.fold fun pop children => (match pop with
    | .scalarProjectElement colref => decide (colref ∈ pcrs)
    | .scalarIdent colref => decide (colref ∈ pcrs)
    | _ => false) || children.any id

/-- `CUtils::PNthProjectElementExpr` (CUtils.cpp:4448) for the first element. -/
def firstProjectElementExpr : Query D Op → Option (Query D Op)
  | .node .scalarProjectList (.node (.scalarProjectElement _) (pexpr :: _) :: _) => some pexpr
  | _ => none

variable (derive : Op → List DerivedColumns → DerivedColumns)

/-- Whether the subquery is converted: its relation, as it is and with its children processed. A
    projection has to have outer references and no column of its child in the project list, any
    other relation not to output the compared column. -/
def converts (colref : CColRef) (pexprRelational : Query D Op) : Query D Op → Bool
  | .node .logicalProject [pexprChild, pexprPrL] =>
    HasOuterRefs derive (.node .logicalProject [pexprChild, pexprPrL]) &&
      !FExprHasAnyCrFromCrs pexprPrL (DeriveOutputColumns derive pexprChild)
  | _ => decide (colref ∉ DeriveOutputColumns derive pexprRelational)

variable {S : QuerySemantics D G Op} (md : Comparisons S)

/-- `ConvertInToSimpleExists` (CExpressionPreprocessor.cpp:2435). -/
def ConvertInToSimpleExists (mdidOp : ℕ) (colref : CColRef)
    (pexprRelational pexprLeft : Query D Op) : Option (Query D Op) :=
  if FSubquery pexprLeft.Pop then none
  else
    match pexprRelational with
    | .node .logicalProject [pexprChild, pexprPrL] =>
      (firstProjectElementExpr pexprPrL).map fun pexprRight =>
        .node (.scalarBoolOp .and) [md.PexprScalarCmp pexprLeft pexprRight mdidOp,
          .node .scalarSubqueryExists [pexprChild]]
    | pexprRelational =>
      some (.node (.scalarBoolOp .and)
        [md.PexprScalarCmp pexprLeft (.node (.scalarIdent colref) []) mdidOp,
          .node .scalarSubqueryExists [pexprRelational]])

/-- What `PexprExistWithPredFromINSubq` makes of a node whose children are processed; it asks for
    the output columns of the relation as it was. -/
def existWithPred (pop : QueryOp D Op) (pdrgpexpr pdrgpexprChildren : List (Query D Op)) :
    Option (Query D Op) :=
  match pop, pdrgpexpr, pdrgpexprChildren with
  | .scalarSubqueryAny mdidOp colref, [pexprOld, _], [pexprRelational, pexprLeft] =>
    if converts derive colref pexprOld pexprRelational then
      ConvertInToSimpleExists md mdidOp colref pexprRelational pexprLeft
    else none
  | _, _, _ => none

mutual

/-- `PexprExistWithPredFromINSubq` (CExpressionPreprocessor.cpp:2508). -/
def PexprExistWithPredFromINSubq : Query D Op → Query D Op
  | .node pop pdrgpexpr =>
    let pdrgpexprChildren := existWithPredEach pdrgpexpr
    match existWithPred derive md pop pdrgpexpr pdrgpexprChildren with
    | some pexprNewConverted => pexprNewConverted
    | none => .node pop pdrgpexprChildren

def existWithPredEach : List (Query D Op) → List (Query D Op)
  | [] => []
  | pexpr :: pdrgpexpr => PexprExistWithPredFromINSubq pexpr :: existWithPredEach pdrgpexpr

end

attribute [local simp] PexprExistWithPredFromINSubq existWithPredEach in
theorem existWithPredEach_eq_map (pdrgpexpr : List (Query D Op)) :
    existWithPredEach derive md pdrgpexpr =
      pdrgpexpr.map (PexprExistWithPredFromINSubq derive md) := by
  induction pdrgpexpr with
  | nil => rfl
  | cons pexpr pdrgpexpr ih => rw [existWithPredEach, ih, List.map_cons]

theorem pexprExistWithPred_node (pop : QueryOp D Op) (pdrgpexpr : List (Query D Op)) :
    PexprExistWithPredFromINSubq derive md (.node pop pdrgpexpr) =
      let pdrgpexprChildren := pdrgpexpr.map (PexprExistWithPredFromINSubq derive md)
      (existWithPred derive md pop pdrgpexpr pdrgpexprChildren).getD
        (.node pop pdrgpexprChildren) := by
  rw [PexprExistWithPredFromINSubq, existWithPredEach_eq_map]
  dsimp only
  split <;> rename_i h <;> rw [h] <;> rfl

variable {derive md}

theorem existWithPred_eq_some {pop : QueryOp D Op} {l l' : List (Query D Op)} {pexpr : Query D Op}
    (h : existWithPred derive md pop l l' = some pexpr) :
    ∃ mdidOp colref pexprOld pexprLeftOld pexprRelational pexprLeft,
      pop = .scalarSubqueryAny mdidOp colref ∧ l = [pexprOld, pexprLeftOld] ∧
      l' = [pexprRelational, pexprLeft] ∧ converts derive colref pexprOld pexprRelational = true ∧
      ConvertInToSimpleExists md mdidOp colref pexprRelational pexprLeft = some pexpr := by
  unfold existWithPred at h
  split at h
  · split_ifs at h with hconverts
    exact ⟨_, _, _, _, _, _, rfl, rfl, rfl, hconverts, h⟩
  · cases h

theorem firstProjectElementExpr_eq_some {pexprPrL pexpr : Query D Op}
    (h : firstProjectElementExpr pexprPrL = some pexpr) : ∃ colref rest els,
      pexprPrL = .node .scalarProjectList
        (.node (.scalarProjectElement colref) (pexpr :: rest) :: els) := by
  unfold firstProjectElementExpr at h
  split at h
  · cases h
    exact ⟨_, _, _, rfl⟩
  · cases h

theorem pop_of_existWithPred {pop : QueryOp D Op} {l l' : List (Query D Op)} {pexpr : Query D Op}
    (h : existWithPred derive md pop l l' = some pexpr) : pexpr.Pop = .scalarBoolOp .and := by
  obtain ⟨_, _, _, _, _, _, -, -, -, -, h⟩ := existWithPred_eq_some h
  unfold ConvertInToSimpleExists at h
  split_ifs at h
  split at h
  · obtain ⟨pexprRight, -, rfl⟩ := Option.map_eq_some_iff.1 h
    rfl
  · cases h
    rfl

/-- An operator that no conversion makes is that of the expression before. -/
theorem pexprExistWithPred_eq_node {pexpr : Query D Op} {pop : QueryOp D Op}
    {l : List (Query D Op)} (h : PexprExistWithPredFromINSubq derive md pexpr = .node pop l)
    (hpop : pop ≠ .scalarBoolOp .and) :
    ∃ l', pexpr = .node pop l' ∧ l'.map (PexprExistWithPredFromINSubq derive md) = l := by
  obtain ⟨pop', l'⟩ := pexpr
  rw [pexprExistWithPred_node] at h
  dsimp only at h
  cases hconverted : existWithPred derive md pop' l'
      (l'.map (PexprExistWithPredFromINSubq derive md)) with
  | some e =>
    rw [hconverted, Option.getD_some] at h
    have hand := pop_of_existWithPred hconverted
    rw [h] at hand
    exact absurd hand hpop
  | none =>
    rw [hconverted, Option.getD_none] at h
    cases h
    exact ⟨l', rfl, rfl⟩

/-! ## Values -/

theorem any_map_const {rows : List (Row D)} (t : Truth) :
    Truth.any (rows.map fun _ => t) = t.and (some !rows.isEmpty) := by
  induction rows with
  | nil => rcases t with _ | _ | _ <;> rfl
  | cons row rows ih =>
    have hcons : Truth.any ((row :: rows).map fun _ => t) =
      t.or (Truth.any (rows.map fun _ => t)) := rfl
    rw [hcons, ih]
    rcases t with _ | _ | _ <;> cases rows <;> rfl

theorem eval_any (mdidOp : ℕ) (colref : CColRef) (pexprRelational pexprLeft : Query D Op)
    (env : Env D G) :
    eval S (.node (.scalarSubqueryAny mdidOp colref) [pexprRelational, pexprLeft]) env =
      Result.ofOption (do
        let rows ← (eval S pexprRelational env).rows?
        let l ← (eval S pexprLeft env).value?
        some (.value (S.ofTruth (Truth.any (rows.map fun row => S.cmp mdidOp l (row colref)))))) := by
  rw [eval_node]
  rfl

/-- The predicate that a subquery is converted to. -/
theorem eval_andExists (md : Comparisons S) (mdidOp : ℕ) (pexprLeft pexprRight pexpr : Query D Op)
    (env : Env D G) :
    eval S (.node (.scalarBoolOp .and) [md.PexprScalarCmp pexprLeft pexprRight mdidOp,
        .node .scalarSubqueryExists [pexpr]]) env = Result.ofOption (do
      let l ← (eval S pexprLeft env).value?
      let v ← (eval S pexprRight env).value?
      let rows ← (eval S pexpr env).rows?
      some (.value (S.ofTruth ((S.cmp mdidOp l v).and (some !rows.isEmpty))))) := by
  have hand : ∀ t u : Truth, EBoolOperator.eval .and [t, u] = t.and u := fun t u => by
    rcases t with _ | _ | _ <;> rcases u with _ | _ | _ <;> rfl
  rw [eval_node, List.map_cons, List.map_singleton, md.eval_pexprScalarCmp]
  simp only [eval_node, List.map_cons, List.map_nil, QuerySemantics.op, List.mapM_cons, List.mapM_nil,
    Result.value?_ofOption, Option.bind_eq_bind]
  cases (eval S pexprLeft env).value? with
  | none => rfl
  | some l =>
    cases (eval S pexprRight env).value? with
    | none => rfl
    | some v => cases (eval S pexpr env).rows? <;> simp [hand, S.truth_ofTruth]

variable {S : ColumnSemantics D G Op} {md : Comparisons S.toQuerySemantics}

variable (S md) in
/-- A subquery over a projection that is converted compares the first project element: on an outer
    row on which its relation and its left side can be evaluated, that element has a value, and on
    every row of the relation the list begins with the compared column and this value and has no
    set-returning function. -/
def ComparesFirst (env : Env D G) : Query D Op → Prop
  | .node (.scalarSubqueryAny mdidOp colref)
      [.node .logicalProject [pexprChild, pexprPrL], pexprLeft] =>
    (existWithPred S.derive md (.scalarSubqueryAny mdidOp colref)
        [.node .logicalProject [pexprChild, pexprPrL], pexprLeft]
        ([.node .logicalProject [pexprChild, pexprPrL], pexprLeft].map
          (PexprExistWithPredFromINSubq S.derive md))).isSome = true →
      ∀ pexpr rows l, firstProjectElementExpr pexprPrL = some pexpr →
        (eval S.toQuerySemantics pexprChild env).rows? = some rows →
        (eval S.toQuerySemantics pexprLeft env).value? = some l →
          ∃ v, (eval S.toQuerySemantics pexpr env).value? = some v ∧
            ∀ row ∈ rows, ∃ els : List (CColRef × Datum D),
              (eval S.toQuerySemantics pexprPrL { env with row := row }).elements? =
                some ((colref, [v]) :: els.map fun el => (el.1, [el.2]))
  | _ => True

/-- The comparison with one element on all rows. -/
theorem eval_any_of_comparesFirst {mdidOp : ℕ} {colref : CColRef}
    {pexprChild pexprPrL pexprLeft : Query D Op} {env : Env D G} {rows : List (Row D)}
    {l v : Datum D} (hrows : (eval S.toQuerySemantics pexprChild env).rows? = some rows)
    (hl : (eval S.toQuerySemantics pexprLeft env).value? = some l)
    (hlist : ∀ row ∈ rows, ∃ els : List (CColRef × Datum D),
      (eval S.toQuerySemantics pexprPrL { env with row := row }).elements? =
        some ((colref, [v]) :: els.map fun el => (el.1, [el.2]))) :
    eval S.toQuerySemantics (.node (.scalarSubqueryAny mdidOp colref)
        [.node .logicalProject [pexprChild, pexprPrL], pexprLeft]) env =
      .value (S.ofTruth ((S.cmp mdidOp l v).and (some !rows.isEmpty))) := by
  have hprojected : ∃ projected : List (List (Row D)),
      (rows.mapM fun row => do
        let els ← (eval S.toQuerySemantics pexprPrL { env with row := row }).elements?
        some (projectRow els row)) = some projected ∧
      projected.flatten.map (· colref) = rows.map fun _ => v := by
    clear hrows
    induction rows with
    | nil => exact ⟨[], rfl, rfl⟩
    | cons row rows ih =>
      obtain ⟨projected, hmapM, hvalues⟩ := ih fun row' h => hlist row' (List.mem_cons_of_mem _ h)
      obtain ⟨els, hels⟩ := hlist row List.mem_cons_self
      have hrow : projectRow ((colref, [v]) :: els.map fun el => (el.1, [el.2])) row =
          [assign (colref :: els.map (·.1)) (v :: els.map (·.2)) row] :=
        projectRow_single ((colref, v) :: els) row
      have hvalue : assign (colref :: els.map (·.1)) (v :: els.map (·.2)) row colref = v := by
        rw [assign_of_mem List.mem_cons_self, List.idxOf_cons_self]
        rfl
      refine ⟨[assign (colref :: els.map (·.1)) (v :: els.map (·.2)) row] :: projected, ?_, ?_⟩
      · simp only [List.mapM_cons, hels, Option.bind_eq_bind, Option.bind_some, hrow] at hmapM ⊢
        rw [hmapM]
        rfl
      · rw [List.flatten_cons, List.map_append, hvalues, List.map_singleton, hvalue]
        rfl
  obtain ⟨projected, hmapM, hvalues⟩ := hprojected
  have hanswers : projected.flatten.map (fun row => S.cmp mdidOp l (row colref)) =
      rows.map fun _ => S.cmp mdidOp l v := by
    have hmap := congrArg (List.map (S.cmp mdidOp l)) hvalues
    rwa [List.map_map, List.map_map] at hmap
  rw [← any_map_const, ← hanswers]
  simp only [eval_node, List.map_cons, List.map_nil, QuerySemantics.op, Result.rows?_ofOption,
    hrows, hl, Option.bind_eq_bind, Option.bind_some] at hmapM ⊢
  rw [hmapM]
  rfl

/-- The comparison with an outer column on all rows. -/
theorem eval_any_of_outerColumn {mdidOp : ℕ} {colref : CColRef}
    {pexprRelational pexprLeft : Query D Op}
    (hcol : colref ∉ DeriveOutputColumns S.derive pexprRelational) (env : Env D G) :
    eval S.toQuerySemantics (.node (.scalarSubqueryAny mdidOp colref)
        [pexprRelational, pexprLeft]) env = Result.ofOption (do
      let rows ← (eval S.toQuerySemantics pexprRelational env).rows?
      let l ← (eval S.toQuerySemantics pexprLeft env).value?
      some (.value (S.ofTruth ((S.cmp mdidOp l (env.row colref)).and (some !rows.isEmpty))))) := by
  rw [eval_any]
  cases hrows : (eval S.toQuerySemantics pexprRelational env).rows? with
  | none => rfl
  | some rows =>
    cases (eval S.toQuerySemantics pexprLeft env).value? with
    | none => rfl
    | some l =>
      have hvalue : rows.map (fun row => S.cmp mdidOp l (row colref)) =
          rows.map fun _ => S.cmp mdidOp l (env.row colref) :=
        List.map_congr_left fun row hrow => by
          rw [(S.carries_eval pexprRelational).rows env rows hrows row hrow colref hcol]
      simp only [Option.bind_eq_bind, Option.bind_some, hvalue, any_map_const]

/-- One conversion keeps the value of the subquery, where the processed children have the values of
    the children. -/
theorem eval_existWithPred {pop : QueryOp D Op} {l : List (Query D Op)} {pexpr : Query D Op}
    (h : existWithPred S.derive md pop l (l.map (PexprExistWithPredFromINSubq S.derive md)) =
      some pexpr)
    (hbelow : ∀ e ∈ l, ∀ s, CExpression.SubexpressionOf s e → ∀ env,
      eval S.toQuerySemantics (PexprExistWithPredFromINSubq S.derive md s) env =
        eval S.toQuerySemantics s env)
    {env : Env D G} (hfirst : ComparesFirst S md env (.node pop l)) :
    eval S.toQuerySemantics pexpr env = eval S.toQuerySemantics (.node pop l) env := by
  obtain ⟨mdidOp, colref, pexprOld, pexprLeftOld, pexprRelational, pexprLeft, rfl, rfl, hl, hconverts,
    hconvert⟩ := existWithPred_eq_some h
  simp only [List.map_cons, List.map_nil, List.cons.injEq, and_true] at hl
  obtain ⟨hrel, hleft⟩ := hl
  have hevalLeft : eval S.toQuerySemantics pexprLeft env = eval S.toQuerySemantics pexprLeftOld env :=
    hleft ▸ hbelow _ (List.mem_cons_of_mem _ (List.mem_singleton_self _)) _ .refl env
  have hevalRel : eval S.toQuerySemantics pexprRelational env =
      eval S.toQuerySemantics pexprOld env := hrel ▸ hbelow _ List.mem_cons_self _ .refl env
  unfold ConvertInToSimpleExists at hconvert
  split_ifs at hconvert
  split at hconvert
  · rename_i pexprChild pexprPrL
    obtain ⟨pexprRight, hright, rfl⟩ := Option.map_eq_some_iff.1 hconvert
    obtain ⟨c₀, rest, els, rfl⟩ := firstProjectElementExpr_eq_some hright
    -- the projection, its list and the first element were there before
    obtain ⟨lr, rfl, hlr⟩ := pexprExistWithPred_eq_node hrel (by simp)
    obtain ⟨pexprChildOld, lr, rfl, hchild, hlr⟩ := List.map_eq_cons_iff.1 hlr
    obtain ⟨pexprPrLOld, rfl, hlist⟩ := List.map_eq_singleton_iff.1 hlr
    obtain ⟨elsOld, rfl, hels⟩ := pexprExistWithPred_eq_node hlist (by simp)
    obtain ⟨elOld, elsOld, rfl, hel, -⟩ := List.map_eq_cons_iff.1 hels
    obtain ⟨le, rfl, hle⟩ := pexprExistWithPred_eq_node hel (by simp)
    obtain ⟨pexprRightOld, le, rfl, hrightOld, -⟩ := List.map_eq_cons_iff.1 hle
    have hevalChild : eval S.toQuerySemantics pexprChild env =
        eval S.toQuerySemantics pexprChildOld env :=
      hchild ▸ hbelow _ List.mem_cons_self _ (.child List.mem_cons_self .refl) env
    have hevalRight : eval S.toQuerySemantics pexprRight env =
        eval S.toQuerySemantics pexprRightOld env :=
      hrightOld ▸ hbelow _ List.mem_cons_self _ (.child
        (List.mem_cons_of_mem _ (List.mem_singleton_self _)) (.child List.mem_cons_self
          (.child List.mem_cons_self .refl))) env
    rw [eval_andExists, hevalLeft, hevalChild, hevalRight]
    cases hl : (eval S.toQuerySemantics pexprLeftOld env).value? with
    | none =>
      rw [eval_any, hl]
      generalize (eval S.toQuerySemantics (.node .logicalProject _) env).rows? = rows
      cases rows <;> rfl
    | some l =>
      cases hrows : (eval S.toQuerySemantics pexprChildOld env).rows? with
      | none =>
        have hproject : ∀ list, (eval S.toQuerySemantics (.node .logicalProject
            [pexprChildOld, list]) env).rows? = none := fun list => by
          rw [eval_node]
          simp [QuerySemantics.op, hrows]
        rw [eval_any, hproject]
        cases (eval S.toQuerySemantics pexprRightOld env).value? <;> rfl
      | some rows =>
        obtain ⟨v, hv, hlist⟩ := hfirst (by rw [h]; rfl) _ rows l rfl hrows hl
        rw [eval_any_of_comparesFirst hrows hl hlist, hv]
        rfl
  · rename_i hproject
    cases hconvert
    have hcol : colref ∉ DeriveOutputColumns S.derive pexprOld := by
      unfold converts at hconverts
      split at hconverts
      · exact absurd rfl (hproject _ _)
      · exact of_decide_eq_true hconverts
    rw [eval_andExists, eval_any_of_outerColumn hcol, hevalLeft, hevalRel]
    simp only [eval_node, List.map_nil, QuerySemantics.op, Result.value?_value]
    cases (eval S.toQuerySemantics pexprOld env).rows? <;>
      cases (eval S.toQuerySemantics pexprLeftOld env).value? <;> rfl

/-- **Each subquery that is converted keeps its value on every row, when it compares the first
project element** and the element is the same on all rows of the relation. -/
theorem eval_pexprExistWithPredFromINSubq (pexpr : Query D Op)
    (hfirst : ∀ s, CExpression.SubexpressionOf s pexpr → ∀ env, ComparesFirst S md env s) :
    ∀ s, CExpression.SubexpressionOf s pexpr → ∀ env,
      eval S.toQuerySemantics (PexprExistWithPredFromINSubq S.derive md s) env =
        eval S.toQuerySemantics s env := by
  induction pexpr using CExpression.induction with
  | node pop l ih =>
    have hbelow : ∀ e ∈ l, ∀ s, CExpression.SubexpressionOf s e → ∀ env,
        eval S.toQuerySemantics (PexprExistWithPredFromINSubq S.derive md s) env =
          eval S.toQuerySemantics s env := fun e he =>
      ih e he fun s hs => hfirst s (.child he hs)
    intro s hs env
    cases hs with
    | child he hs => exact hbelow _ he s hs env
    | refl =>
      rw [pexprExistWithPred_node]
      dsimp only
      cases h : existWithPred S.derive md pop l
          (l.map (PexprExistWithPredFromINSubq S.derive md)) with
      | some e => exact eval_existWithPred h hbelow (hfirst _ .refl env)
      | none =>
        rw [Option.getD_none, eval_node_congr pop fun e he => funext (hbelow e he e .refl)]

/-! ## A column from below the project list -/

/-- A selection outputs the columns of its child. -/
def selectionColumns : ColumnSemantics ℕ Unit Unit where
  toQuerySemantics := selections
  derive _ ds :=
    { output := (ds.take 1).flatMap (·.output), outer := DerivedColumns.outerReferences [] ds,
      used := [], defined := [] }
  carries pop ds fs h := by
    rcases h with _ | ⟨hchild, _ | ⟨hpred, _ | ⟨_, _⟩⟩⟩
    · exact ColumnSemantics.carries_of_none (fun _ => rfl) fun _ => rfl
    · exact ColumnSemantics.carries_of_none (fun _ => rfl) fun _ => rfl
    · refine ⟨fun env rows hrows row hrow c hc => ?_, fun env l hl => ?_⟩
      · simp only [selections] at hrows
        split at hrows
        · rename_i childRows hchildRows
          cases hrows
          refine hchild.rows env childRows (by rw [hchildRows]; rfl) row (List.mem_of_mem_filter hrow) c ?_
          simpa using hc
        · cases hrows
      · simp only [selections] at hl
        split at hl <;> cases hl
    · exact ColumnSemantics.carries_of_none (fun _ => rfl) fun _ => rfl

def colA : CColRef := ⟨4, true, false, true⟩

/-- `x IN (SELECT c FROM (SELECT y AS a, c FROM (VALUES (5)) t(c)) s)`. -/
def inPassedColumn : Query ℕ Unit :=
  .node (.scalarSubqueryAny 96 colC)
    [.node .logicalProject [.node (.logicalConstTableGet [colC] [[some 5]]) [],
        .node .scalarProjectList [.node (.scalarProjectElement colA) [.node (.scalarIdent colY) []]]],
      .node (.scalarIdent colX) []]

/-- `x IN (SELECT y AS a FROM (VALUES (5)) t(c))`. -/
def inOuterColumn : Query ℕ Unit :=
  .node (.scalarSubqueryAny 96 colA)
    [.node .logicalProject [.node (.logicalConstTableGet [colC] [[some 5]]) [],
        .node .scalarProjectList [.node (.scalarProjectElement colA) [.node (.scalarIdent colY) []]]],
      .node (.scalarIdent colX) []]

/-- Where the compared column is the first element, that is an outer column: the value is kept. -/
theorem eval_pexprExistWithPredFromINSubq_outerColumn :
    eval selections (PexprExistWithPredFromINSubq selectionColumns.derive (.plain selections)
        inOuterColumn) ⟨fun _ => some 7, ()⟩ =
      eval selections inOuterColumn ⟨fun _ => some 7, ()⟩ := by
  refine @eval_pexprExistWithPredFromINSubq _ _ _ selectionColumns (.plain selections) inOuterColumn
    (fun s hs env => ?_) _ .refl _
  simp only [inOuterColumn, CExpression.subexpressionOf_node_iff, List.mem_cons, List.not_mem_nil,
    or_false, exists_eq_or_imp, exists_eq_left, false_and, exists_false] at hs
  rcases hs with rfl | (rfl | rfl | rfl | rfl | rfl) | rfl
  · intro _ pexpr rows l hpexpr hrows _
    cases hpexpr
    cases hrows
    refine ⟨env.row colY, rfl, fun row hrow => ⟨[], ?_⟩⟩
    cases List.mem_singleton.1 hrow
    rfl
  all_goals trivial

/-- **The subquery compares x with c, and the predicate compares x with y.** -/
theorem not_eval_pexprExistWithPredFromINSubq :
    let env : Env ℕ Unit := ⟨fun c => if c = colX then some 5 else some 7, ()⟩
    ((eval selections inPassedColumn env).value?.map selections.truth,
      (eval selections (PexprExistWithPredFromINSubq selectionColumns.derive (.plain selections)
        inPassedColumn) env).value?.map selections.truth) = (some (some true), some (some false)) := by
  decide +kernel

end Query

end BossOptimizer

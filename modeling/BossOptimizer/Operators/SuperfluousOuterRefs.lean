import BossOptimizer.Operators.OuterRefs

/-!
# Superfluous outer references

`PexprRemoveSuperfluousOuterRefs` (CExpressionPreprocessor.cpp:515) leaves outer references out of
the order of limits, of the grouping columns of aggregates and of the partition and order columns of
window operators. An aggregate that would have neither grouping columns nor a project list gets a
projection below it instead, which echoes the outer references into columns of its own; and an ALL
subquery over an aggregate with outer references over a projection is moved to the first column of
that projection.
-/

namespace BossOptimizer

namespace Query

variable {D K W Op : Type} (cols : GroupingColumns K W Op)

/-- `CColumnFactory::PcrCreate` for an identifier of a column: a computed column with the next
    id. -/
def PcrCreate (colref : CColRef) (id : ℕ) : CColRef :=
  { id := id, fConstrainable := colref.fConstrainable, fTable := false, isNullable := true }

/-- The new columns for an array of columns, and the next id. -/
def PdrgpcrCreate : List CColRef → ℕ → List CColRef
  | [], _ => []
  | colref :: pdrgpcr, next => PcrCreate colref next :: PdrgpcrCreate pdrgpcr (next + 1)

/-- `CUtils::PexprAddProjection` (CUtils.cpp:2222) of identifiers. -/
def PexprAddProjection (echoes : List (CColRef × CColRef)) (pexpr : Query D (GroupingOp K W Op)) :
    Query D (GroupingOp K W Op) :=
  if echoes = [] then pexpr
  else .node .logicalProject [pexpr, .node .scalarProjectList (echoes.map fun echo =>
    .node (.scalarProjectElement echo.1) [.node (.scalarIdent echo.2) []])]

/-- Whether the project list of an aggregate is empty. -/
def FProjListEmpty : List (Query D (GroupingOp K W Op)) → Bool
  | [_, .node .scalarProjectList []] => true
  | _ => false

/-- An aggregate without a project list all of whose grouping columns are outer references. -/
def FEchoes (outer_refs : List CColRef) (pdrgpexpr : List (Query D (GroupingOp K W Op)))
    (popAgg : CLogicalGbAgg) : Bool :=
  FProjListEmpty pdrgpexpr && (PdrgpcrExcludeColumns popAgg.pdrgpcr outer_refs).isEmpty

/-- The new operator, and the columns that a projection below it echoes. -/
def popNew (outer_refs : List CColRef) (pdrgpexpr : List (Query D (GroupingOp K W Op)))
    (next : ℕ) : QueryOp D (GroupingOp K W Op) →
      QueryOp D (GroupingOp K W Op) × List (CColRef × CColRef)
  | .other (.logicalLimit popLimit) =>
    (.other (.logicalLimit { popLimit with pos := popLimit.pos.PosExcludeColumns outer_refs }), [])
  | .other (.logicalGbAgg popAgg) =>
    if FEchoes outer_refs pdrgpexpr popAgg then
      let new_grouping_cols := PdrgpcrCreate popAgg.pdrgpcr next
      (.other (.logicalGbAgg { popAgg with
        pdrgpcr := new_grouping_cols, pdrgpcrMinimal := none, pdrgpcrArgDQA := none }),
        new_grouping_cols.zip popAgg.pdrgpcr)
    else
      (.other (.logicalGbAgg { popAgg with
        pdrgpcr := PdrgpcrExcludeColumns popAgg.pdrgpcr outer_refs
        pdrgpcrMinimal := popAgg.pdrgpcrMinimal.map (PdrgpcrExcludeColumns · outer_refs) }), [])
  | .other (.logicalSequenceProject pop) =>
    if (pop.pcrsLocalUsed cols).any (· ∈ outer_refs) then
      (.other (.logicalSequenceProject (pop.PopRemoveLocalOuterRefs outer_refs)), [])
    else (.other (.logicalSequenceProject pop), [])
  | pop => (pop, [])

/-- `CUtils::PcrFromProjElem`. -/
def pcrFromProjElem : Query D (GroupingOp K W Op) → Option CColRef
  | .node (.scalarProjectElement colref) _ => some colref
  | _ => none

def firstElement : Query D (GroupingOp K W Op) → Option CColRef
  | .node .scalarProjectList (projectElemExpr :: _) => pcrFromProjElem projectElemExpr
  | _ => none

/-- The column of the first element of a projection. -/
def firstProjected : Query D (GroupingOp K W Op) → Option CColRef
  | .node .logicalProject [_, projectListExpr] => firstElement projectListExpr
  | _ => none

/-- The column that an ALL subquery over the relation is moved to. -/
def pcrOuter : Query D (GroupingOp K W Op) → Option CColRef
  | .node (.other (.logicalGbAgg popAgg)) (projectExpr :: pdrgpexpr) =>
    if HasOuterRefs (GroupingOp.columns cols)
        (.node (.other (.logicalGbAgg popAgg)) (projectExpr :: pdrgpexpr)) then
      firstProjected projectExpr
    else none
  | _ => none

/-- The adjustment of an ALL subquery, after its children are processed. -/
def adjustAll (pdrgpexprChildren : List (Query D (GroupingOp K W Op))) :
    QueryOp D (GroupingOp K W Op) → QueryOp D (GroupingOp K W Op)
  | .scalarSubqueryAll mdidOp colref =>
    .scalarSubqueryAll mdidOp ((pdrgpexprChildren.head?.bind (pcrOuter cols)).getD colref)
  | pop => pop

/-- The projection goes on top of the first child. What it echoes are identifiers, so it is the same
    whether the child below it is processed before or after. -/
def addEchoes (echoes : List (CColRef × CColRef)) :
    List (Query D (GroupingOp K W Op)) → List (Query D (GroupingOp K W Op))
  | [] => []
  | child :: rest => PexprAddProjection echoes child :: rest

mutual

/-- `PexprRemoveSuperfluousOuterRefs` (CExpressionPreprocessor.cpp:515), with the next column id. -/
def pexprRemoveSuperfluousOuterRefs :
    Query D (GroupingOp K W Op) → ℕ → Query D (GroupingOp K W Op) × ℕ
  | .node pop pdrgpexpr, next =>
    let outer_refs := DeriveOuterReferences (GroupingOp.columns cols) (.node pop pdrgpexpr)
    let new := if outer_refs.isEmpty then (pop, []) else popNew cols outer_refs pdrgpexpr next pop
    let each := removeSuperfluousOuterRefsEach pdrgpexpr (next + new.2.length)
    let pdrgpexprChildren := addEchoes new.2 each.1
    (.node (adjustAll cols pdrgpexprChildren new.1) pdrgpexprChildren, each.2)

def removeSuperfluousOuterRefsEach :
    List (Query D (GroupingOp K W Op)) → ℕ → List (Query D (GroupingOp K W Op)) × ℕ
  | [], next => ([], next)
  | pexpr :: pdrgpexpr, next =>
    let first := pexprRemoveSuperfluousOuterRefs pexpr next
    let rest := removeSuperfluousOuterRefsEach pdrgpexpr first.2
    (first.1 :: rest.1, rest.2)

end

/-! ## New columns -/

attribute [local simp] pexprRemoveSuperfluousOuterRefs removeSuperfluousOuterRefsEach in
theorem pdrgpcrCreate_length (pdrgpcr : List CColRef) (next : ℕ) :
    (PdrgpcrCreate pdrgpcr next).length = pdrgpcr.length := by
  induction pdrgpcr generalizing next with
  | nil => rfl
  | cons colref pdrgpcr ih => simp [PdrgpcrCreate, ih]

theorem zip_pdrgpcrCreate_ne_nil {pdrgpcr : List CColRef} (hne : pdrgpcr ≠ []) (next : ℕ) :
    (PdrgpcrCreate pdrgpcr next).zip pdrgpcr ≠ [] := by
  obtain ⟨colref, rest, rfl⟩ := List.exists_cons_of_ne_nil hne
  exact List.cons_ne_nil _ _

theorem le_id_of_mem_pdrgpcrCreate {pdrgpcr : List CColRef} {next : ℕ} {c : CColRef}
    (hc : c ∈ PdrgpcrCreate pdrgpcr next) : next ≤ c.id := by
  induction pdrgpcr generalizing next with
  | nil => cases hc
  | cons colref pdrgpcr ih =>
    rcases List.mem_cons.1 hc with rfl | hc
    · exact le_rfl
    · exact (Nat.le_succ next).trans (ih hc)

theorem nodup_pdrgpcrCreate (pdrgpcr : List CColRef) (next : ℕ) :
    (PdrgpcrCreate pdrgpcr next).Nodup := by
  induction pdrgpcr generalizing next with
  | nil => exact .nil
  | cons colref pdrgpcr ih =>
    refine List.nodup_cons.2 ⟨fun hmem => ?_, ih _⟩
    exact absurd (le_id_of_mem_pdrgpcrCreate hmem) (by simp [PcrCreate])

theorem assign_pdrgpcrCreate {D : Type} {pdrgpcr : List CColRef} {next : ℕ} {row : Row D}
    {echo : CColRef × CColRef}
    (h : echo ∈ (PdrgpcrCreate pdrgpcr next).zip pdrgpcr) :
    assign (PdrgpcrCreate pdrgpcr next) (pdrgpcr.map row) row echo.1 = row echo.2 := by
  obtain ⟨i, hi, rfl⟩ := List.mem_iff_getElem.1 h
  have hlen := pdrgpcrCreate_length pdrgpcr next
  rw [List.length_zip, hlen, min_self] at hi
  rw [List.getElem_zip, assign_getElem (nodup_pdrgpcrCreate pdrgpcr next) (by rw [hlen]; exact hi)]
  simp [List.getD_eq_getElem?_getD, List.getElem?_eq_getElem hi]

@[simp] theorem projectRow_nil {D : Type} (row : Row D) : projectRow [] row = [row] := by
  refine (projectRow_single [] row).trans ?_
  rw [List.map_nil, List.map_nil]
  exact congrArg (fun row => [row]) (funext fun c => assign_of_notMem List.not_mem_nil)

/-! ## Where it is harmless -/

/-- The column that the pass moves an ALL subquery over the relation away from, to a column with the
    same values. -/
def movedFrom : Query D (GroupingOp K W Op) → Option CColRef
  | .node (.other (.logicalGbAgg popAgg)) (projectExpr :: pdrgpexpr) =>
    let outer_refs := DeriveOuterReferences (GroupingOp.columns cols)
      (.node (.other (.logicalGbAgg popAgg)) (projectExpr :: pdrgpexpr))
    if outer_refs.isEmpty then none
    else if FEchoes outer_refs (projectExpr :: pdrgpexpr) popAgg then
      popAgg.pdrgpcr.head?.or (firstProjected projectExpr)
    else firstProjected projectExpr
  | _ => none

end Query

namespace ColumnarSemantics

variable {D K W Op : Type} [LinearOrder D] (S : ColumnarSemantics D K W Op)

abbrev eval (pexpr : Query D (GroupingOp K W Op)) : Env D (RowGroup D W) → Result D :=
  Query.eval S.semantics pexpr

abbrev outer_refs (pexpr : Query D (GroupingOp K W Op)) : List CColRef :=
  Query.DeriveOuterReferences (GroupingOp.columns S.cols) pexpr

/-- Where an expression and what the pass makes of it agree, if they do below: an aggregate with a
    project list keeps a grouping column, unless no rows are no rows for its project list too; frames
    that measure distances keep their order columns; and an ALL subquery stays on its column. -/
def HarmlessAt : Query D (GroupingOp K W Op) → Prop
  | .node (.other (.logicalGbAgg popAgg)) [child, list] =>
    Query.FProjListEmpty [child, list] = false → popAgg.pdrgpcr ≠ [] →
      PdrgpcrExcludeColumns popAgg.pdrgpcr (S.outer_refs (.node (.other (.logicalGbAgg popAgg)) [child, list])) = [] →
      ∀ env, (S.eval child env).rows? = some [] → GroupingSemantics.projectEach (S.eval list)
        [{ row := env.row, group := GroupingSemantics.aggregated [] }] = some []
  | .node (.other (.logicalSequenceProject pop)) pdrgpexpr =>
    pop.pdrgpwf.any S.FBoundedRange = true → ∀ pos ∈ pop.pdrgpos, ∀ c ∈ pos.PcrsUsed,
      c ∉ S.outer_refs (.node (.other (.logicalSequenceProject pop)) pdrgpexpr)
  | .node (.scalarSubqueryAll _ colref) (pexprChild :: _) =>
    ∀ c, Query.movedFrom S.cols pexprChild = some c → c = colref
  | _ => True

/-! ## One operator -/

section

variable {pexpr : Query D (GroupingOp K W Op)}

/-- Outer references are no output columns of the first child, so all its rows have the values of
    the outer row there. -/
theorem constant_of_outer (pop : GroupingOp K W Op)
    (pdrgpexpr : List (Query D (GroupingOp K W Op))) {used : List CColRef}
    (houter : ∀ ds, (pop.columns S.cols ds).outer = DerivedColumns.outerReferences used ds)
    {env : Env D (RowGroup D W)} {rows : List (Row D)} (hrows : (S.eval pexpr env).rows? = some rows) :
    Constant (S.outer_refs (.node (.other pop) (pexpr :: pdrgpexpr))) env.row rows := by
  intro row hrow c hc
  refine (S.columnSemantics.carries_eval pexpr).rows env rows hrows row hrow c fun hout => ?_
  rw [outer_refs, Query.DeriveOuterReferences, Query.columns, CExpression.fold_node, QueryOp.columns, houter,
    DerivedColumns.outerReferences, List.mem_filter] at hc
  have hnot := of_decide_eq_true hc.2
  rw [List.map_cons, List.flatMap_cons, List.mem_append, not_or] at hnot
  exact hnot.1 hout

theorem op_limit_posExcludeColumns (popLimit : CLogicalLimit)
    (pdrgpexpr : List (Query D (GroupingOp K W Op))) (popLimit' : CLogicalLimit)
    (hpopLimit' : popLimit' = { popLimit with
      pos := popLimit.pos.PosExcludeColumns
        (S.outer_refs (.node (.other (.logicalLimit popLimit)) pdrgpexpr)) }) :
    S.groupingOp (.logicalLimit popLimit') (pdrgpexpr.map S.eval) =
      S.groupingOp (.logicalLimit popLimit) (pdrgpexpr.map S.eval) := by
  subst hpopLimit'
  funext env
  rcases pdrgpexpr with _ | ⟨child, _ | ⟨offset, _ | ⟨count, _ | _⟩⟩⟩ <;> try rfl
  simp only [List.map_cons, List.map_nil, GroupingSemantics.groupingOp]
  refine congrArg _ ?_
  cases hrows : (S.eval child env).rows? with
  | none => rfl
  | some rows =>
    have hconst := S.constant_of_outer (.logicalLimit popLimit) [offset, count]
      (fun _ => rfl) hrows
    rw [Option.bind_eq_bind, Option.bind_some, Option.bind_some]
    refine bind_congr fun o => bind_congr fun k => ?_
    rw [S.limitRows_posExcludeColumns popLimit _ _ hconst]

theorem op_gbAgg_excludeColumns (popAgg : CLogicalGbAgg)
    (pdrgpexpr : List (Query D (GroupingOp K W Op)))
    (harmless : S.HarmlessAt (.node (.other (.logicalGbAgg popAgg)) pdrgpexpr))
    (hkept : Query.FEchoes (S.outer_refs (.node (.other (.logicalGbAgg popAgg)) pdrgpexpr))
      pdrgpexpr popAgg = false)
    (popAgg' : CLogicalGbAgg) (hpopAgg' : popAgg'.pdrgpcr = PdrgpcrExcludeColumns popAgg.pdrgpcr
      (S.outer_refs (.node (.other (.logicalGbAgg popAgg)) pdrgpexpr))) :
    S.groupingOp (.logicalGbAgg popAgg') (pdrgpexpr.map S.eval) =
      S.groupingOp (.logicalGbAgg popAgg) (pdrgpexpr.map S.eval) := by
  funext env
  rcases pdrgpexpr with _ | ⟨child, _ | ⟨list, _ | _⟩⟩ <;> try rfl
  simp only [List.map_cons, List.map_nil, GroupingSemantics.groupingOp, hpopAgg']
  refine congrArg _ ?_
  cases hrows : (S.eval child env).rows? with
  | none => rfl
  | some rows =>
    have hconst := S.constant_of_outer (.logicalGbAgg popAgg) [list]
      (fun _ => rfl) hrows
    by_cases hleft : PdrgpcrExcludeColumns popAgg.pdrgpcr
        (S.outer_refs (.node (.other (.logicalGbAgg popAgg)) [child, list])) = [] →
        popAgg.pdrgpcr = [] ∨ rows ≠ []
    · rw [Option.bind_eq_bind, Option.bind_some, Option.bind_some,
        GroupingSemantics.groups_excludeColumns hconst hleft]
    · simp only [not_forall, not_or, not_not] at hleft
      obtain ⟨hnil, hne, rfl⟩ := hleft
      have hlist : Query.FProjListEmpty [child, list] = false := by
        simpa [Query.FEchoes, hnil] using hkept
      have hnone := harmless hlist hne hnil env hrows
      simp only [hnil, GroupingSemantics.groups, if_pos, if_neg hne]
      exact congrArg (fun o : Option (List (Row D)) => o.bind fun rows =>
        some (Result.relation rows)) hnone

theorem op_sequenceProject_removeLocalOuterRefs (pop : CLogicalSequenceProject K W)
    (pdrgpexpr : List (Query D (GroupingOp K W Op)))
    (harmless : S.HarmlessAt (.node (.other (.logicalSequenceProject pop)) pdrgpexpr)) :
    S.groupingOp (.logicalSequenceProject (pop.PopRemoveLocalOuterRefs
        (S.outer_refs (.node (.other (.logicalSequenceProject pop)) pdrgpexpr))))
        (pdrgpexpr.map S.eval) =
      S.groupingOp (.logicalSequenceProject pop) (pdrgpexpr.map S.eval) := by
  funext env
  rcases pdrgpexpr with _ | ⟨child, _ | ⟨list, _ | _⟩⟩ <;> try rfl
  simp only [List.map_cons, List.map_nil, GroupingSemantics.groupingOp]
  refine congrArg _ ?_
  cases hrows : (S.eval child env).rows? with
  | none => rfl
  | some rows =>
    have hconst := S.constant_of_outer (.logicalSequenceProject pop) [list]
      (fun _ => rfl) hrows
    have henvs := List.map_congr_left fun row hrow =>
      congrArg (Env.mk row) (S.windowed_popRemoveLocalOuterRefs pop hconst harmless hrow)
    exact congrArg (fun envs => (GroupingSemantics.projectEach (S.eval list) envs).bind fun rows =>
      some (Result.relation rows)) henvs

/-! ### The echo -/

theorem elements_echoes (echoes : List (CColRef × CColRef)) (env : Env D (RowGroup D W)) :
    (S.eval (.node .scalarProjectList (echoes.map fun echo =>
      .node (.scalarProjectElement echo.1) [.node (.scalarIdent echo.2) []])) env).elements? =
      some (echoes.map fun echo => (echo.1, [env.row echo.2])) := by
  have heach : (((echoes.map fun echo => (.node (.scalarProjectElement echo.1)
        [.node (.scalarIdent echo.2) []] : Query D (GroupingOp K W Op))).map S.eval).mapM
          fun f => (f env).elements?) = some (echoes.map fun echo => [(echo.1, [env.row echo.2])]) := by
    rw [mapM_eq_some_iff, List.forall₂_map_right_iff, List.forall₂_map_left_iff,
      List.forall₂_map_left_iff, List.forall₂_same]
    exact fun echo _ => by simp [QuerySemantics.op]
  rw [eval, Query.eval_node, QuerySemantics.op, heach]
  exact congrArg some List.map_eq_flatMap.symm

/-- The rows of the added projection: each with the echoed values. -/
theorem rows_pexprAddProjection {echoes : List (CColRef × CColRef)} (hne : echoes ≠ [])
    (pexpr : Query D (GroupingOp K W Op)) (env : Env D (RowGroup D W)) :
    (S.eval (Query.PexprAddProjection echoes pexpr) env).rows? =
      (S.eval pexpr env).rows?.map (List.map fun row =>
        assign (echoes.map (·.1)) (echoes.map fun echo => row echo.2) row) := by
  rw [Query.PexprAddProjection, if_neg hne, eval, Query.eval_node, List.map_cons, List.map_cons,
    List.map_nil, QuerySemantics.op, Result.rows?_ofOption]
  cases (S.eval pexpr env).rows? with
  | none => rfl
  | some rows =>
    have hproject : (rows.mapM fun row => do
        let els ← (S.eval (.node .scalarProjectList (echoes.map fun echo =>
          .node (.scalarProjectElement echo.1) [.node (.scalarIdent echo.2) []]))
          { env with row := row }).elements?
        some (Query.projectRow els row)) = some (rows.map fun row =>
          [assign (echoes.map (·.1)) (echoes.map fun echo => row echo.2) row]) := by
      refine mapM_eq_map fun row _ => ?_
      rw [S.elements_echoes]
      have hsingle := Query.projectRow_single (echoes.map fun echo => (echo.1, row echo.2)) row
      simp only [List.map_map, Function.comp_def] at hsingle
      exact congrArg some hsingle
    simp only [Option.bind_eq_bind, Option.bind_some, Option.map_some] at hproject ⊢
    rw [hproject]
    exact congrArg some List.map_eq_flatMap.symm

theorem projectEach_projectList_nil (envs : List (Env D (RowGroup D W))) :
    GroupingSemantics.projectEach (S.eval (.node .scalarProjectList [])) envs =
      some (envs.map (·.row)) := by
  have heach : (envs.mapM fun env => do
      let els ← (S.eval (.node .scalarProjectList []) env).elements?
      some (Query.projectRow els env.row)) = some (envs.map fun env => [env.row]) :=
    mapM_eq_map fun env _ => congrArg some (Query.projectRow_nil env.row)
  rw [GroupingSemantics.projectEach, heach]
  exact congrArg some List.map_eq_flatMap.symm

/-- An aggregate without a project list has the rows of its groups. -/
theorem rows_gbAgg_projectList_nil (popAgg : CLogicalGbAgg)
    (child : Env D (RowGroup D W) → Result D) (env : Env D (RowGroup D W)) :
    S.groupingOp (.logicalGbAgg popAgg) [child, S.eval (.node .scalarProjectList [])] env =
      Result.ofOption ((child env).rows?.map fun rows =>
        .relation ((GroupingSemantics.groups popAgg.pdrgpcr env.row rows).map (·.1))) := by
  rw [GroupingSemantics.groupingOp]
  cases (child env).rows? with
  | none => rfl
  | some rows =>
    rw [Option.bind_eq_bind, Option.bind_some, S.projectEach_projectList_nil, List.map_map]
    rfl

/-- The same values in two columns. -/
def SameColumn (n : ℕ) (c c' : CColRef) (f f' : Env D (RowGroup D W) → Result D) : Prop :=
  ∀ env env', env.Agree S.cols.PcrsUsedByFrame n env' →
    (f env).rows?.map (List.map (· c)) = (f' env').rows?.map (List.map (· c'))

/-- The groups of the new columns over rows that echo the grouping columns into them. -/
theorem groups_echo {n next : ℕ} (hnext : n ≤ next) {pdrgpcr : List CColRef} (hne : pdrgpcr ≠ [])
    (hfresh : Query.PdrgpcrCreate pdrgpcr next ≠ []) (hnames : ∀ c ∈ pdrgpcr, c.id < n)
    {outer outer' : Row D} (houter : keepBelow n outer = keepBelow n outer')
    {rows rows' : List (Row D)} (hrows : rows.map (keepBelow n) = rows'.map (keepBelow n))
    (hconst : Constant pdrgpcr outer rows) :
    let groups := (GroupingSemantics.groups pdrgpcr outer rows).map (·.1)
    let groups' := (GroupingSemantics.groups (Query.PdrgpcrCreate pdrgpcr next) outer'
      (rows'.map fun row => assign (Query.PdrgpcrCreate pdrgpcr next) (pdrgpcr.map row) row)).map
        (·.1)
    groups.map (keepBelow n) = groups'.map (keepBelow n) ∧
      ∀ echo ∈ (Query.PdrgpcrCreate pdrgpcr next).zip pdrgpcr,
        groups.map (· echo.2) = groups'.map (· echo.1) := by
  intro groups groups'
  by_cases hnil : rows = []
  · have hnil' : rows' = [] := by simpa [hnil] using hrows.symm
    have hgroups : groups = [] := by simp [groups, hnil, GroupingSemantics.groups, hne]
    have hgroups' : groups' = [] := by simp [groups', hnil', GroupingSemantics.groups, hfresh]
    simp [hgroups, hgroups']
  -- every row of the child has the values of the outer row in the grouping columns
  have hvalue : ∀ row ∈ rows', ∀ echo ∈ (Query.PdrgpcrCreate pdrgpcr next).zip pdrgpcr,
      assign (Query.PdrgpcrCreate pdrgpcr next) (pdrgpcr.map row) row echo.1 = outer echo.2 := by
    intro row' hrow' echo hecho
    have hmem : echo.2 ∈ pdrgpcr := (List.of_mem_zip hecho).2
    obtain ⟨row, hrow, hbelow⟩ := List.mem_map.1 (hrows ▸ List.mem_map_of_mem hrow')
    rw [Query.assign_pdrgpcrCreate hecho, ← keepBelow_eq_iff.1 hbelow _ (hnames _ hmem),
      hconst row hrow _ hmem]
  have hechoed : ∀ c ∈ Query.PdrgpcrCreate pdrgpcr next,
      ∃ echo ∈ (Query.PdrgpcrCreate pdrgpcr next).zip pdrgpcr, echo.1 = c := by
    intro c hc
    rw [← List.map_fst_zip (Query.pdrgpcrCreate_length pdrgpcr next).le] at hc
    exact List.mem_map.1 hc
  have hagree : ∀ row ∈ rows'.map fun row =>
        assign (Query.PdrgpcrCreate pdrgpcr next) (pdrgpcr.map row) row,
      ∀ row' ∈ rows'.map fun row =>
        assign (Query.PdrgpcrCreate pdrgpcr next) (pdrgpcr.map row) row,
      sameOn (Query.PdrgpcrCreate pdrgpcr next) row row' = true := by
    intro _ hrow _ hrow'
    obtain ⟨row, hmem, rfl⟩ := List.mem_map.1 hrow
    obtain ⟨row', hmem', rfl⟩ := List.mem_map.1 hrow'
    refine sameOn_iff.2 fun c hc => ?_
    obtain ⟨echo, hecho, rfl⟩ := hechoed c hc
    rw [hvalue row hmem echo hecho, hvalue row' hmem' echo hecho]
  obtain ⟨_, hrow, hgroup⟩ := GroupingSemantics.groups_of_agree outer' hfresh hagree
    fun h => hnil (by simpa [List.map_eq_nil_iff.1 h] using hrows)
  obtain ⟨row, hmem, rfl⟩ := List.mem_map.1 hrow
  have hgroups : groups = [outer] := by
    simp [groups, GroupingSemantics.groups_of_constant hne hconst hnil]
  simp only [groups', hgroup, hgroups, List.map_cons, List.map_nil, List.cons.injEq, and_true]
  refine ⟨houter.trans (keepBelow_eq_iff.2 fun c hc => ?_), fun echo hecho => ?_⟩
  · exact (merge_of_notMem fun hmem =>
      absurd (Query.le_id_of_mem_pdrgpcrCreate hmem) (by omega)).symm
  · rw [merge_of_mem (List.of_mem_zip hecho).1, hvalue row hmem echo hecho]

/-- **An aggregate over the echo of its grouping columns** has the same rows, and the values of the
grouping columns in the new columns. -/
theorem gbAgg_echo {n next : ℕ} (hnext : n ≤ next) {popAgg popAgg' : CLogicalGbAgg}
    (hne : popAgg.pdrgpcr ≠ []) (hnames : ∀ c ∈ popAgg.pdrgpcr, c.id < n)
    (hpopAgg' : popAgg'.pdrgpcr = Query.PdrgpcrCreate popAgg.pdrgpcr next)
    {pexpr pexpr' : Query D (GroupingOp K W Op)}
    (hconst : ∀ env rows, (S.eval pexpr env).rows? = some rows →
      Constant popAgg.pdrgpcr env.row rows)
    (h : Blind S.cols.PcrsUsedByFrame n (S.eval pexpr) (S.eval pexpr'))
    {env env' : Env D (RowGroup D W)} (henv : env.Agree S.cols.PcrsUsedByFrame n env') :
    Option.Rel (fun rows rows' => rows.map (keepBelow n) = rows'.map (keepBelow n) ∧
        ∀ echo ∈ (Query.PdrgpcrCreate popAgg.pdrgpcr next).zip popAgg.pdrgpcr,
          rows.map (· echo.2) = rows'.map (· echo.1))
      ((S.eval pexpr env).rows?.map fun rows =>
        (GroupingSemantics.groups popAgg.pdrgpcr env.row rows).map (·.1))
      ((S.eval (Query.PexprAddProjection
        ((Query.PdrgpcrCreate popAgg.pdrgpcr next).zip popAgg.pdrgpcr) pexpr') env').rows?.map
        fun rows => (GroupingSemantics.groups popAgg'.pdrgpcr env'.row rows).map (·.1)) := by
  have hlen : (Query.PdrgpcrCreate popAgg.pdrgpcr next).length = popAgg.pdrgpcr.length :=
    Query.pdrgpcrCreate_length ..
  have hfresh : Query.PdrgpcrCreate popAgg.pdrgpcr next ≠ [] := fun hnil =>
    hne (List.length_eq_zero_iff.1 (hlen.symm.trans (congrArg List.length hnil)))
  have hechoes := Query.zip_pdrgpcrCreate_ne_nil hne next
  have hproject : ∀ row : Row D, (((Query.PdrgpcrCreate popAgg.pdrgpcr next).zip
      popAgg.pdrgpcr).map fun echo => row echo.2) = popAgg.pdrgpcr.map row := fun row => by
    have hsnd := congrArg (List.map row) (List.map_snd_zip hlen.ge)
    rwa [List.map_map] at hsnd
  have hrows := h.rows? henv
  rw [S.rows_pexprAddProjection hechoes, List.map_fst_zip hlen.le]
  simp only [hproject]
  cases hr : (S.eval pexpr env).rows? with
  | none =>
    rw [hr] at hrows
    rw [Option.map_eq_none_iff.1 hrows.symm]
    exact .none
  | some rows =>
    rw [hr] at hrows
    obtain ⟨rows', hr', hbelow⟩ := Option.map_eq_some_iff.1 hrows.symm
    rw [hr']
    rw [hpopAgg']
    exact .some (groups_echo hnext hne hfresh hnames henv.keepBelow_row hbelow.symm
      (hconst env rows hr))

end

end ColumnarSemantics

end BossOptimizer

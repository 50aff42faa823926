import BossOptimizer.Xforms.QuantifiedValue

/-!
# Unnested quantified subqueries compute ANY and ALL

Over the rows of the built expression the residual scalar is compared with SQL's value of the
subquery. Both placements of the group-by are read the same way, by `Reads`. With the
not-nullable-inner optimization an outer IF answers NULL for a NULL scalar without asking whether
the inner relation returns a row, where SQL's answer over no rows is FALSE for ANY and TRUE for
ALL.
-/

namespace BossOptimizer

namespace CSubqueryHandler

variable {D : Type} [DecidableEq D] {cat : Catalog D} {op : ℕ} {sq : CScalarSubqueryQuantified D}
  {pcf : ℕ} {row row' : Row (SqlValue D)}

/-! ## The expression built -/

/-- The group-by is placed on the inner side: no outer references, and the select compares two
    columns for equality. -/
def fGbOnInner (cat : Catalog D) (op : ℕ) (sq : CScalarSubqueryQuantified D) : Bool :=
  !sq.pexprInner.hasOuterRefs && useNotNullableInnerOpt sq.pcr sq.pexprInner op &&
    CPredicateUtils.fSimpleEqualityUsingCols cat (predicate op sq).pexpr sq.pexprInner.output

def grpColsOnInner (ctxt : COptCtxt) (pexprOuter : LogicalLeaf D) (op : ℕ)
    (sq : CScalarSubqueryQuantified D) : List CColRef :=
  CPropConstraint.colRefSetIter ((predicate op sq).pexpr.usedColumns.filter
    (· ∉ pexprOuter.output.filter ctxt.fUsed))

def residual (pcf op : ℕ) (sq : CScalarSubqueryQuantified D) : ApplyScalar D :=
  pexprScalarIf (pcrCreate pcf) (groupColumns (pcf + 1)).pcrSum (groupColumns (pcf + 1)).pcrCount
    (.quantified sq) (useNotNullableInnerOpt sq.pcr sq.pexprInner op)

variable {ctxt : COptCtxt} {pexprOuter : LogicalLeaf D} {built : ApplyExpr D × ApplyScalar D}

omit [DecidableEq D] in
theorem pexprInnerSelect_snd : (pexprInnerSelect sq.pcr sq.pexprInner (predicate op sq)).2 =
    useNotNullableInnerOpt sq.pcr sq.pexprInner op := by
  have hop : (predicate op sq).mdidOp = op := rfl
  unfold pexprInnerSelect
  rw [hop]
  split
  · next h => exact h.symm
  · next h => exact (Bool.eq_false_of_not_eq_true h).symm

omit [DecidableEq D] in
theorem fCreateGrpCols_eq : fCreateGrpCols ctxt cat pexprOuter
    (pexprInnerSelect sq.pcr sq.pexprInner (predicate op sq)).1 false sq.pexprInner.hasOuterRefs =
      if fGbOnInner cat op sq then some (grpColsOnInner ctxt pexprOuter op sq, true)
      else (grpColsOnOuter ctxt pexprOuter).map (·, false) := by
  have hop : (predicate op sq).mdidOp = op := rfl
  unfold fCreateGrpCols fGbOnInner pexprInnerSelect
  rw [hop]
  cases hrefs : sq.pexprInner.hasOuterRefs with
  | true => simp
  | false =>
    cases hopt : useNotNullableInnerOpt sq.pcr sq.pexprInner op with
    | true => rfl
    | false => simp [CPredicateUtils.fSimpleEqualityUsingCols]

omit [DecidableEq D] in
/-- What is built: an expression for one placement of the group-by, and the residual. -/
theorem fCreateOuterApply_eq_some
    (h : fCreateOuterApplyForExistOrQuant ctxt cat pexprOuter
      (pexprInnerSelect sq.pcr sq.pexprInner (predicate op sq)).1 (.quantified sq)
      (some (predicate op sq).pexpr) sq.pexprInner.hasOuterRefs
      (pexprInnerSelect sq.pcr sq.pexprInner (predicate op sq)).2 = some built) :
    built.2 = residual ctxt.pcf op sq ∧
    (fGbOnInner cat op sq = true ∧ built.1 = .leftOuterApply (.leaf pexprOuter)
        (groupOnInner ctxt.pcf op sq (grpColsOnInner ctxt pexprOuter op sq)) sq.pcr ∨
      fGbOnInner cat op sq = false ∧ ∃ gcols, grpColsOnOuter ctxt pexprOuter = some gcols ∧
        built.1 = createGroupByNode (ctxt.pcf + 1)
          (.leftOuterApply (.leaf pexprOuter) (innerProject ctxt.pcf op sq) sq.pcr) gcols
          (pcrCreate ctxt.pcf) (some (predicate op sq).pexpr)) := by
  simp only [fCreateOuterApplyForExistOrQuant, fCreateGrpCols_eq, pexprInnerSelect_snd] at h
  cases hgb : fGbOnInner cat op sq with
  | true =>
    rw [hgb] at h
    cases h
    exact ⟨rfl, .inl ⟨rfl, rfl⟩⟩
  | false =>
    rw [hgb] at h
    cases hcols : grpColsOnOuter ctxt pexprOuter with
    | none => simp [hcols] at h
    | some gcols =>
      rw [hcols] at h
      cases h
      exact ⟨rfl, .inr ⟨rfl, gcols, rfl, rfl⟩⟩

omit [DecidableEq D] in
theorem fRemoveQuantifiedSubquery_eq_some {fEnforceCorrelatedApply : Bool}
    (h : fRemoveQuantifiedSubquery ctxt cat fEnforceCorrelatedApply pexprOuter sq = some built) :
    ∃ op, predicateOp cat sq = some op ∧ fCreateOuterApplyForExistOrQuant ctxt cat pexprOuter
      (pexprInnerSelect sq.pcr sq.pexprInner (predicate op sq)).1 (.quantified sq)
      (some (predicate op sq).pexpr) sq.pexprInner.hasOuterRefs
      (pexprInnerSelect sq.pcr sq.pexprInner (predicate op sq)).2 = some built := by
  unfold fRemoveQuantifiedSubquery at h
  unfold predicateOp
  cases hall : sq.fAll with
  | false =>
    rw [hall] at h
    simp only [fRemoveAnySubquery, Bool.false_eq_true, if_false] at h
    split at h
    · cases h
    split at h
    · cases h
    exact ⟨sq.mdidOp, rfl, h⟩
  | true =>
    rw [hall] at h
    simp only [fRemoveAllSubquery, if_true] at h
    split at h
    · cases h
    cases hinv : cat.getInverseOpMdid sq.mdidOp with
    | none => simp [CXformUtils.pexprInversePred, hinv] at h
    | some inv =>
      simp only [CXformUtils.pexprInversePred, hinv, Option.map_some, Option.bind_eq_bind,
        Option.bind_some] at h
      split at h
      · cases h
      exact ⟨inv, rfl, h⟩

/-! ## The value of the residual -/

/-- The scalar reads an outer reference the group-by on the inner side takes for a column of its
    own, and finds the NULL of an outer row without a match. -/
def Lost (ctxt : COptCtxt) (cat : Catalog D) (pexprOuter : LogicalLeaf D) (op : ℕ)
    (sq : CScalarSubqueryQuantified D) (row : Row (SqlValue D)) : Prop :=
  fGbOnInner cat op sq = true ∧
  (∃ c ∈ sq.pexprScalar.usedColumns, c ∉ pexprOuter.output.filter ctxt.fUsed) ∧
  sq.pexprScalar.eval cat row ≠ ⊥ ∧ some true ∉ comparisons cat op sq row

/-- What the residual and the parent read of the row of an outer row. -/
structure Reads (ctxt : COptCtxt) (cat : Catalog D) (pexprOuter : LogicalLeaf D) (op : ℕ)
    (sq : CScalarSubqueryQuantified D) (cols : List CColRef) (row row' : Row (SqlValue D)) :
    Prop where
  summary : Summarizes ctxt.pcf (keptComparisons cat op sq row) row'
  outer : ¬ Lost ctxt cat pexprOuter op sq row → ∀ c ∈ cols, row' c = row c
  scalar : Optimized op sq → ¬ Lost ctxt cat pexprOuter op sq row →
    sq.pexprScalar.eval cat row' = sq.pexprScalar.eval cat row
  lost : Lost ctxt cat pexprOuter op sq row → sq.pexprScalar.eval cat row' = ⊥

omit [DecidableEq D] in
theorem Optimized.of_fGbOnInner (h : fGbOnInner cat op sq = true) : Optimized op sq :=
  (Bool.and_eq_true_iff.1 (Bool.and_eq_true_iff.1 h).1).2

/-- The aggregates give SQL's value where the scalar is not NULL or the optimization does not
    apply. -/
theorem nestedIf_keptComparisons (hcat : cat.Lawful) (hop : predicateOp cat sq = some op)
    (h : Optimized op sq → sq.pexprScalar.eval cat row ≠ ⊥) :
    nestedIf (!sq.fAll) (keptComparisons cat op sq row) = sqlValue cat sq row := by
  rw [sqlValue_eq hcat hop, keptComparisons]
  cases hopt : useNotNullableInnerOpt sq.pcr sq.pexprInner op with
  | false => exact nestedIf_notFalse _ _
  | true =>
    exact nestedIf_true fun hnone => h hopt ((Optimized.none_mem_comparisons hcat hopt).1 hnone).1

omit [DecidableEq D] in
theorem residual_of_optimized (hopt : Optimized op sq) : residual pcf op sq =
    .scalarIf (.isNull sq.pexprScalar) (.constBool none)
      (pexprNestedIf (groupColumns (pcf + 1)).pcrSum (groupColumns (pcf + 1)).pcrCount !sq.fAll) :=
  if_pos hopt

omit [DecidableEq D] in
theorem residual_of_not (hopt : ¬ Optimized op sq) : residual pcf op sq =
    pexprNestedIf (groupColumns (pcf + 1)).pcrSum (groupColumns (pcf + 1)).pcrCount !sq.fAll :=
  if_neg hopt

open Classical in
/-- **The value of the residual**: NULL where the optimization meets a NULL scalar, SQL's value
    elsewhere. -/
theorem eval_residual (hcat : cat.Lawful) (hop : predicateOp cat sq = some op)
    {cols : List CColRef} (hreads : Reads ctxt cat pexprOuter op sq cols row row') :
    (residual ctxt.pcf op sq).eval cat row' =
      if Optimized op sq ∧
        (sq.pexprScalar.eval cat row = ⊥ ∨ Lost ctxt cat pexprOuter op sq row) then ⊥
      else SqlValue.ofTruth (sqlValue cat sq row) := by
  have hnested : (pexprNestedIf (groupColumns (ctxt.pcf + 1)).pcrSum
      (groupColumns (ctxt.pcf + 1)).pcrCount !sq.fAll).eval cat row' =
        SqlValue.ofTruth (nestedIf (!sq.fAll) (keptComparisons cat op sq row)) :=
    eval_pexprNestedIf hreads.summary
  by_cases hopt : Optimized op sq
  · have hresidual : (residual ctxt.pcf op sq).eval cat row' =
        if sq.pexprScalar.eval cat row' = ⊥ then ⊥
        else SqlValue.ofTruth (nestedIf (!sq.fAll) (keptComparisons cat op sq row)) := by
      rw [← hnested, residual_of_optimized hopt]
      by_cases hnull : sq.pexprScalar.eval cat row' = ⊥ <;> simp [ApplyScalar.eval, hnull]
    rw [hresidual]
    by_cases hlost : Lost ctxt cat pexprOuter op sq row
    · rw [if_pos (hreads.lost hlost), if_pos ⟨hopt, .inr hlost⟩]
    · rw [hreads.scalar hopt hlost]
      by_cases hnull : sq.pexprScalar.eval cat row = ⊥
      · rw [if_pos hnull, if_pos ⟨hopt, .inl hnull⟩]
      · rw [if_neg hnull, if_neg fun h => h.2.elim hnull hlost,
          nestedIf_keptComparisons hcat hop fun _ => hnull]
  · rw [if_neg fun h => hopt h.1, ← nestedIf_keptComparisons hcat hop fun h => absurd h hopt,
      ← hnested, residual_of_not hopt]

/-! ## The rows read -/

omit [DecidableEq D] in
theorem eq_ident_of_fGbOnInner (h : fGbOnInner cat op sq = true) :
    ∃ pcrScalar, sq.pexprScalar = .ident pcrScalar ∧ cat.isEquality op = true := by
  have hsimple := (Bool.and_eq_true_iff.1 h).2
  rw [predicate, CScalarCmp.pexpr] at hsimple
  cases hscalar : sq.pexprScalar with
  | ident pcrScalar =>
    rw [hscalar] at hsimple
    exact ⟨pcrScalar, rfl, (Bool.and_eq_true_iff.1 hsimple).1⟩
  | _ =>
    rw [hscalar] at hsimple
    simp [CPredicateUtils.fSimpleEqualityUsingCols] at hsimple

omit [DecidableEq D] in
theorem Optimized.pcr_mem (hopt : Optimized op sq) : sq.pcr ∈ sq.pexprInner.output :=
  sq.pexprInner.notNull_output _ (of_decide_eq_true (Bool.and_eq_true_iff.1 hopt).1)

omit [DecidableEq D] in
theorem mem_grpColsOnInner {c : CColRef} : c ∈ grpColsOnInner ctxt pexprOuter op sq ↔
    (c ∈ sq.pexprScalar.usedColumns ∨ c = sq.pcr) ∧ c ∉ pexprOuter.output.filter ctxt.fUsed := by
  simp [grpColsOnInner, CPropConstraint.colRefSetIter, predicate, CScalarCmp.pexpr,
    ApplyScalar.usedColumns, or_and_right, imp_iff_not_or]

/-- A scalar that is not lost has the NULL of the row without a match itself. -/
theorem eq_bot_of_not_lost (hgb : fGbOnInner cat op sq = true) {pcrScalar : CColRef}
    (hscalar : sq.pexprScalar = .ident pcrScalar)
    (hmem : pcrScalar ∈ grpColsOnInner ctxt pexprOuter op sq)
    (htrue : some true ∉ comparisons cat op sq row)
    (hlost : ¬ Lost ctxt cat pexprOuter op sq row) : row pcrScalar = ⊥ := by
  by_contra hne
  refine hlost ⟨hgb, ⟨pcrScalar, ?_, (mem_grpColsOnInner.1 hmem).2⟩, ?_, htrue⟩
  · simp [hscalar, ApplyScalar.usedColumns]
  · simpa [hscalar, ApplyScalar.eval] using hne

theorem reads_onInner (hcols : ColumnsDistinct ctxt.pcf pexprOuter sq)
    (hgb : fGbOnInner cat op sq = true)
    (hrow : RowOnInner cat op sq ctxt.pcf (grpColsOnInner ctxt pexprOuter op sq) row row') :
    Reads ctxt cat pexprOuter op sq pexprOuter.output row row' := by
  have hopt : Optimized op sq := .of_fGbOnInner hgb
  obtain ⟨pcrScalar, hscalar, -⟩ := eq_ident_of_fGbOnInner hgb
  have hused : sq.pexprScalar.usedColumns = [pcrScalar] := by rw [hscalar]; rfl
  have heval : ∀ row : Row (SqlValue D), sq.pexprScalar.eval cat row = row pcrScalar := fun row => by
    rw [hscalar]; rfl
  have hold : pcrScalar.id < ctxt.pcf := hcols.old_scalar pcrScalar (by simp [hused])
  by_cases htrue : some true ∈ comparisons cat op sq row
  · have hmatched := hrow.matched fun hnil => hopt.keptComparisons_eq_nil.1 hnil htrue
    exact {
      summary := hrow.summary
      outer := fun _ c hc =>
        hmatched c (hcols.old_outer c hc) fun h => hcols.inner_outer c h hc
      scalar := fun _ _ => by
        rw [heval, heval]
        exact hmatched pcrScalar hold fun h => hcols.inner_scalar _ h (by simp [hused])
      lost := fun hlost => absurd htrue hlost.2.2.2 }
  · have hunmatched := hrow.unmatched (hopt.keptComparisons_eq_nil.2 htrue)
    exact {
      summary := hrow.summary
      outer := fun hlost c hc => by
        rw [hunmatched c (hcols.old_outer c hc)]
        split
        · next hmem =>
          rcases (mem_grpColsOnInner.1 hmem).1 with hc' | rfl
          · rw [hused, List.mem_singleton] at hc'
            subst hc'
            exact (eq_bot_of_not_lost hgb hscalar hmem htrue hlost).symm
          · exact absurd hc (hcols.inner_outer _ hopt.pcr_mem)
        · rfl
      scalar := fun _ hlost => by
        rw [heval, heval, hunmatched pcrScalar hold]
        split
        · next hmem => exact (eq_bot_of_not_lost hgb hscalar hmem htrue hlost).symm
        · rfl
      lost := fun ⟨_, ⟨c, hc, hnot⟩, _, _⟩ => by
        rw [heval, hunmatched pcrScalar hold, if_pos]
        rw [hused, List.mem_singleton] at hc
        subst hc
        exact mem_grpColsOnInner.2 ⟨.inl (by simp [hused]), hnot⟩ }

theorem reads_onOuter {gcols cols : List CColRef} {env : Row (SqlValue D)}
    (hcols : ColumnsDistinct ctxt.pcf pexprOuter sq)
    (hgb : fGbOnInner cat op sq = false) (henv : row ∈ pexprOuter.rows env)
    (hsub : ∀ c ∈ cols, c ∈ gcols)
    (hscoped : Optimized op sq → ∀ c ∈ sq.pexprScalar.usedColumns, c ∈ pexprOuter.output →
      c ∈ gcols)
    (hrow : RowOnOuter cat op sq ctxt.pcf gcols env row row') :
    Reads ctxt cat pexprOuter op sq cols row row' where
  summary := hrow.summary
  outer _ c hc := hrow.grouping c (hsub c hc)
  scalar hopt _ := by
    refine ApplyScalar.eval_congr fun c hc => ?_
    by_cases hg : c ∈ gcols
    · exact hrow.grouping c hg
    · rw [hrow.dropped c (hcols.old_scalar c hc) hg]
      exact (LogicalLeaf.rows_of_notMem henv fun hout => hg (hscoped hopt c hc hout)).symm
  lost h := by rw [h.1] at hgb; cases hgb

/-! ## The subquery's value over the outer rows -/

/-- The columns of the outer relation that the expression returns. -/
def outerColumns (pexprOuter : LogicalLeaf D) (pexprNewOuter : ApplyExpr D) : List CColRef :=
  pexprOuter.output.filter (· ∈ pexprNewOuter.outputColumns)

/-- An expression and a scalar compute a value for each outer row. -/
structure Computes (cat : Catalog D) (pexprOuter : LogicalLeaf D)
    (value : Row (SqlValue D) → Truth) (built : ApplyExpr D × ApplyScalar D) : Prop where
  /-- The scalar reads columns the expression returns. -/
  inScope : ∀ c ∈ built.2.usedColumns, c ∈ pexprOuter.output → c ∈ built.1.outputColumns
  /-- A key of the outer relation is returned, so that its rows stay apart. -/
  key : ∃ pkc ∈ pexprOuter.keyCollection, ∃ key ∈ pkc, ∀ c ∈ key, c ∈ built.1.outputColumns
  /-- One row for each outer row, with its value. -/
  rows : ∀ env, ((built.1.rows cat env).map fun row =>
      ((outerColumns pexprOuter built.1).map row, built.2.eval cat row)).Perm
    ((pexprOuter.rows env).map fun row =>
      ((outerColumns pexprOuter built.1).map row, SqlValue.ofTruth (value row)))

/-- No outer row meets the defect of the optimization: a NULL scalar over no inner rows, a scalar
    that the grouping above the apply drops, and one that the grouping on the inner side takes for
    its own. -/
def HoldsWhen (ctxt : COptCtxt) (cat : Catalog D) (pexprOuter : LogicalLeaf D)
    (sq : CScalarSubqueryQuantified D) : Prop :=
  ∀ op ∈ predicateOp cat sq, useNotNullableInnerOpt sq.pcr sq.pexprInner op = true →
    (fGbOnInner cat op sq = false → ∀ gcols ∈ pdrgpcrGroupingKey ctxt pexprOuter,
      ∀ c ∈ sq.pexprScalar.usedColumns, c ∈ pexprOuter.output → c ∈ gcols) ∧
    ∀ env, ∀ row ∈ pexprOuter.rows env,
      (sq.pexprScalar.eval cat row = ⊥ → sq.pexprInner.rows row ≠ []) ∧
      (fGbOnInner cat op sq = true →
        (∃ c ∈ sq.pexprScalar.usedColumns, c ∉ pexprOuter.output.filter ctxt.fUsed) →
        sq.pexprScalar.eval cat row ≠ ⊥ → some true ∈ comparisons cat op sq row)

/-- The rows built are read as `Reads` says. -/
def ReadsAll (ctxt : COptCtxt) (cat : Catalog D) (pexprOuter : LogicalLeaf D) (op : ℕ)
    (sq : CScalarSubqueryQuantified D) (pexprNewOuter : ApplyExpr D) : Prop :=
  ∀ env, List.Forall₂
    (Reads ctxt cat pexprOuter op sq (outerColumns pexprOuter pexprNewOuter))
    (pexprOuter.rows env) (pexprNewOuter.rows cat env)

/-- Where the optimization answers NULL and SQL does not. -/
theorem sqlValue_ne_none (hcat : cat.Lawful) (hop : predicateOp cat sq = some op)
    (hopt : Optimized op sq)
    (hbad : sq.pexprScalar.eval cat row = ⊥ ∧ sq.pexprInner.rows row = [] ∨
      Lost ctxt cat pexprOuter op sq row) : sqlValue cat sq row ≠ none := by
  rw [Ne, hopt.sqlValue_eq_none hcat hop]
  rcases hbad with ⟨-, hnil⟩ | hlost
  · exact fun h => h.2 hnil
  · exact fun h => hlost.2.2.1 h.1

omit [DecidableEq D] in
/-- Outer rows with the same key columns are the same row. -/
theorem eq_of_outerColumns {pkc : CKeyCollection} (hpkc : pexprOuter.keyCollection = some pkc)
    {key cols : List CColRef} (hkey : key ∈ pkc) (hsub : ∀ c ∈ key, c ∈ cols)
    {env : Row (SqlValue D)} (hrow : row ∈ pexprOuter.rows env) (hrow' : row' ∈ pexprOuter.rows env)
    (heq : cols.map row = cols.map row') : row = row' := by
  have hcols : ∀ c ∈ cols, row c = row' c := List.map_inj_left.1 heq
  by_contra hne
  have hsymm : Std.Symm fun row row' : Row (SqlValue D) => ∃ c ∈ key, row c ≠ row' c :=
    ⟨fun _ _ ⟨c, hc, h⟩ => ⟨c, hc, h.symm⟩⟩
  obtain ⟨c, hc, h⟩ := (LogicalLeaf.pairwise_key hpkc hkey).forall hrow hrow' hne
  exact h (hcols c (hsub c hc))

/-- With the rows read as `Reads` says, the values are SQL's exactly if no row is a bad one. -/
theorem perm_iff (hcat : cat.Lawful) (hop : predicateOp cat sq = some op)
    {pexprNewOuter : ApplyExpr D} (hreads : ReadsAll ctxt cat pexprOuter op sq pexprNewOuter)
    (hkey : ∃ pkc ∈ pexprOuter.keyCollection, ∃ key ∈ pkc, ∀ c ∈ key,
      c ∈ outerColumns pexprOuter pexprNewOuter) (env : Row (SqlValue D)) :
    ((pexprNewOuter.rows cat env).map fun row =>
      ((outerColumns pexprOuter pexprNewOuter).map row,
        (residual ctxt.pcf op sq).eval cat row)).Perm
    ((pexprOuter.rows env).map fun row =>
      ((outerColumns pexprOuter pexprNewOuter).map row, SqlValue.ofTruth (sqlValue cat sq row))) ↔
    ∀ row ∈ pexprOuter.rows env, Optimized op sq →
      (sq.pexprScalar.eval cat row = ⊥ → sq.pexprInner.rows row ≠ []) ∧
      ¬ Lost ctxt cat pexprOuter op sq row := by
  set cols := outerColumns pexprOuter pexprNewOuter
  constructor
  · intro hperm row hrow hopt
    by_contra hgood
    have hbad : sq.pexprScalar.eval cat row = ⊥ ∧ sq.pexprInner.rows row = [] ∨
        Lost ctxt cat pexprOuter op sq row := by
      by_contra hnot
      rw [not_or, not_and] at hnot
      exact hgood hnot
    -- a row that carries SQL's value comes from an outer row that is not lost, which is this one
    have hmem := hperm.mem_iff.2 (List.mem_map_of_mem hrow)
    obtain ⟨row₂', hrow₂', heq⟩ := List.mem_map.1 hmem
    obtain ⟨row₂, hrow₂, hr⟩ := exists_of_forall₂_right (hreads env) hrow₂'
    obtain ⟨heqCols, heqValue⟩ := Prod.mk.inj heq
    rw [eval_residual hcat hop hr] at heqValue
    have hne : sqlValue cat sq row ≠ none := sqlValue_ne_none hcat hop hopt hbad
    have hnot : ¬ (Optimized op sq ∧ (sq.pexprScalar.eval cat row₂ = ⊥ ∨
        Lost ctxt cat pexprOuter op sq row₂)) := by
      intro h
      rw [if_pos h] at heqValue
      exact hne (SqlValue.ofTruth_eq_bot.1 heqValue.symm)
    obtain ⟨pkc, hpkc, key, hkey, hsub⟩ := hkey
    have hlost₂ : ¬ Lost ctxt cat pexprOuter op sq row₂ := fun h => hnot ⟨hopt, .inr h⟩
    have hsame : cols.map row₂ = cols.map row :=
      (List.map_congr_left (hr.outer hlost₂)).symm.trans heqCols
    rw [eq_of_outerColumns hpkc hkey hsub hrow₂ hrow hsame] at hnot
    exact hnot ⟨hopt, hbad.imp_left And.left⟩
  · intro hgood
    refine List.Perm.of_eq (map_eq_map_of_forall₂ (hreads env) fun row hrow row' hr => ?_).symm
    have hlost : ¬ Lost ctxt cat pexprOuter op sq row := fun h =>
      (hgood row hrow (.of_fGbOnInner h.1)).2 h
    refine Prod.ext (List.map_congr_left (hr.outer hlost)).symm ?_
    dsimp only
    rw [eval_residual hcat hop hr]
    split
    · next h =>
      have hnull : sq.pexprScalar.eval cat row = ⊥ := h.2.resolve_right hlost
      exact SqlValue.ofTruth_eq_bot.2
        ((h.1.sqlValue_eq_none hcat hop).2 ⟨hnull, (hgood row hrow h.1).1 hnull⟩)
    · rfl

/-! ## The whole transformation -/

/-- The scalar of the outer IF is there above the group-by. -/
def Scoped (ctxt : COptCtxt) (cat : Catalog D) (pexprOuter : LogicalLeaf D) (op : ℕ)
    (sq : CScalarSubqueryQuantified D) : Prop :=
  Optimized op sq → fGbOnInner cat op sq = false → ∀ gcols ∈ pdrgpcrGroupingKey ctxt pexprOuter,
    ∀ c ∈ sq.pexprScalar.usedColumns, c ∈ pexprOuter.output → c ∈ gcols

theorem holdsWhen_iff (hop : predicateOp cat sq = some op) :
    HoldsWhen ctxt cat pexprOuter sq ↔ Scoped ctxt cat pexprOuter op sq ∧
      ∀ env, ∀ row ∈ pexprOuter.rows env, Optimized op sq →
        (sq.pexprScalar.eval cat row = ⊥ → sq.pexprInner.rows row ≠ []) ∧
        ¬ Lost ctxt cat pexprOuter op sq row := by
  have hlost : ∀ row : Row (SqlValue D), ¬ Lost ctxt cat pexprOuter op sq row ↔
      (fGbOnInner cat op sq = true →
        (∃ c ∈ sq.pexprScalar.usedColumns, c ∉ pexprOuter.output.filter ctxt.fUsed) →
        sq.pexprScalar.eval cat row ≠ ⊥ → some true ∈ comparisons cat op sq row) := fun row => by
    simp only [Lost, not_and, not_not]
  constructor
  · intro h
    refine ⟨fun hopt => (h op hop hopt).1, fun env row hrow hopt => ?_⟩
    rw [hlost]
    exact (h op hop hopt).2 env row hrow
  · rintro ⟨hscoped, hrows⟩ op' hop' hopt
    rw [Option.mem_def, hop, Option.some.injEq] at hop'
    subst hop'
    refine ⟨hscoped hopt, fun env row hrow => ?_⟩
    rw [← hlost]
    exact hrows env row hrow hopt

omit [DecidableEq D] in
theorem mem_usedColumns_residual {c : CColRef} (hc : c.id < pcf) :
    c ∈ (residual pcf op sq).usedColumns ↔ Optimized op sq ∧ c ∈ sq.pexprScalar.usedColumns := by
  have hcount : c ≠ (groupColumns (pcf + 1)).pcrCount := ne_pcrCreate hc (by omega)
  have hsum : c ≠ (groupColumns (pcf + 1)).pcrSum := ne_pcrCreate hc (by omega)
  by_cases hopt : Optimized op sq
  · simp [residual_of_optimized hopt, pexprNestedIf, ApplyScalar.usedColumns, hopt, hcount, hsum]
  · simp [residual_of_not hopt, pexprNestedIf, ApplyScalar.usedColumns, hopt, hcount, hsum]

/-- From one placement of the group-by to the transformation. -/
theorem computes_iff_of_reads (hcat : cat.Lawful) (hop : predicateOp cat sq = some op)
    {pexprNewOuter : ApplyExpr D}
    (hscope : (∀ c ∈ (residual ctxt.pcf op sq).usedColumns, c ∈ pexprOuter.output →
      c ∈ pexprNewOuter.outputColumns) ↔ Scoped ctxt cat pexprOuter op sq)
    (hkey : ∃ pkc ∈ pexprOuter.keyCollection, ∃ key ∈ pkc, ∀ c ∈ key,
      c ∈ pexprNewOuter.outputColumns)
    (hreads : Scoped ctxt cat pexprOuter op sq →
      ReadsAll ctxt cat pexprOuter op sq pexprNewOuter) :
    Computes cat pexprOuter (sqlValue cat sq) (pexprNewOuter, residual ctxt.pcf op sq) ↔
      HoldsWhen ctxt cat pexprOuter sq := by
  have hkeyCols : ∃ pkc ∈ pexprOuter.keyCollection, ∃ key ∈ pkc, ∀ c ∈ key,
      c ∈ outerColumns pexprOuter pexprNewOuter := by
    obtain ⟨pkc, hpkc, key, hmem, hsub⟩ := hkey
    refine ⟨pkc, hpkc, key, hmem, fun c hc => List.mem_filter.2 ⟨?_, by simpa using hsub c hc⟩⟩
    exact pexprOuter.key_output pkc hpkc key hmem c hc
  rw [holdsWhen_iff hop]
  constructor
  · rintro ⟨hin, -, hrows⟩
    have hscoped := hscope.1 hin
    exact ⟨hscoped, fun env => (perm_iff hcat hop (hreads hscoped) hkeyCols env).1 (hrows env)⟩
  · rintro ⟨hscoped, hgood⟩
    exact ⟨hscope.2 hscoped, hkey,
      fun env => (perm_iff hcat hop (hreads hscoped) hkeyCols env).2 (hgood env)⟩

omit [DecidableEq D] in
/-- The grouping columns above the apply: output columns of the outer relation with a key. -/
theorem grpColsOnOuter_spec {gcols : List CColRef}
    (h : grpColsOnOuter ctxt pexprOuter = some gcols) :
    pdrgpcrGroupingKey ctxt pexprOuter = some gcols ∧ (∀ c ∈ gcols, c ∈ pexprOuter.output) ∧
      ∃ pkc ∈ pexprOuter.keyCollection, ∃ key ∈ pkc, key ≠ [] ∧ ∀ c ∈ key, c ∈ gcols := by
  have hgroup : pdrgpcrGroupingKey ctxt pexprOuter = some gcols := by
    unfold grpColsOnOuter at h
    split at h
    · cases h
    split at h
    · cases h
    exact h
  refine ⟨hgroup, ?_⟩
  simp only [pdrgpcrGroupingKey, Option.bind_eq_bind, Option.bind_eq_some_iff, Option.pure_def,
    Option.some.injEq] at hgroup
  obtain ⟨pkc, hpkc, key, hkey, rfl⟩ := hgroup
  have hmem : key ∈ pkc := by
    cases hfind : pkc.find? fun key => key.all ctxt.fHashable with
    | some found =>
      rw [hfind] at hkey
      cases hkey
      exact List.mem_of_find?_eq_some hfind
    | none =>
      rw [hfind] at hkey
      exact List.mem_of_head? hkey
  have hiter : ∀ c, c ∈ CPropConstraint.colRefSetIter ((pexprOuter.output.filter fun c =>
      ctxt.fUsed c && !ctxt.fSystemCol c) ++ key) ↔
        c ∈ (pexprOuter.output.filter fun c => ctxt.fUsed c && !ctxt.fSystemCol c) ∨ c ∈ key := by
    intro c
    rw [CPropConstraint.colRefSetIter, List.mem_insertionSort, List.mem_dedup, List.mem_append]
  refine ⟨fun c hc => ?_, pkc, hpkc, key, hmem, pexprOuter.key_ne_nil pkc hpkc key hmem,
    fun c hc => (hiter c).2 (.inr hc)⟩
  rcases (hiter c).1 hc with hc | hc
  · exact List.mem_of_mem_filter hc
  · exact pexprOuter.key_output pkc hpkc key hmem c hc

/-- The group-by above the apply. -/
theorem computes_iff_onOuter (hcat : cat.Lawful) (hop : predicateOp cat sq = some op)
    (hcols : ColumnsDistinct ctxt.pcf pexprOuter sq) (hgb : fGbOnInner cat op sq = false)
    {gcols : List CColRef} (hgcols : grpColsOnOuter ctxt pexprOuter = some gcols) :
    Computes cat pexprOuter (sqlValue cat sq) (createGroupByNode (ctxt.pcf + 1)
      (.leftOuterApply (.leaf pexprOuter) (innerProject ctxt.pcf op sq) sq.pcr) gcols
      (pcrCreate ctxt.pcf) (some (predicate op sq).pexpr), residual ctxt.pcf op sq) ↔
      HoldsWhen ctxt cat pexprOuter sq := by
  obtain ⟨hgroup, hout, pkc, hpkc, key, hkey, hne, hsub⟩ := grpColsOnOuter_spec hgcols
  have hcolumns : (createGroupByNode (ctxt.pcf + 1)
      (.leftOuterApply (.leaf pexprOuter) (innerProject ctxt.pcf op sq) sq.pcr) gcols
      (pcrCreate ctxt.pcf) (some (predicate op sq).pexpr)).outputColumns =
        gcols ++ (aggregates ctxt.pcf).map (·.1) := rfl
  have hmem : ∀ c ∈ pexprOuter.output, c ∈ gcols ++ (aggregates ctxt.pcf).map (·.1) ↔
      c ∈ gcols := fun c hc => by
    rw [List.mem_append, or_iff_left (notMem_aggregates (hcols.old_outer c hc))]
  refine computes_iff_of_reads hcat hop ?_ ⟨pkc, hpkc, key, hkey, fun c hc => ?_⟩ fun hscoped => ?_
  · rw [hcolumns]
    constructor
    · intro h hopt _ gcols' hgcols' c hc hcout
      rw [Option.mem_def, hgroup, Option.some.injEq] at hgcols'
      subst hgcols'
      exact (hmem c hcout).1
        (h c ((mem_usedColumns_residual (hcols.old_outer c hcout)).2 ⟨hopt, hc⟩) hcout)
    · intro h c hc hcout
      obtain ⟨hopt, hc⟩ := (mem_usedColumns_residual (hcols.old_outer c hcout)).1 hc
      exact (hmem c hcout).2 (h hopt hgb gcols hgroup c hc hcout)
  · rw [hcolumns]
    exact List.mem_append_left _ (hsub c hc)
  · intro env
    have hpair : (pexprOuter.rows env).Pairwise fun row row' => ∃ c ∈ gcols, row c ≠ row' c :=
      (LogicalLeaf.pairwise_key hpkc hkey).imp fun ⟨c, hc, h⟩ => ⟨c, hsub c hc, h⟩
    have hgne : gcols ≠ [] := by
      obtain ⟨c, hc⟩ := List.exists_mem_of_ne_nil _ hne
      exact List.ne_nil_of_mem (hsub c hc)
    refine forall₂_imp_of_mem (rows_onOuter hcols hgne hout hpair) fun row hrow row' hr =>
      reads_onOuter hcols hgb hrow ?_
        (fun hopt c hc hcout => hscoped hopt hgb gcols hgroup c hc hcout) hr
    intro c hc
    obtain ⟨hcout, hc⟩ := List.mem_filter.1 hc
    rw [hcolumns] at hc
    exact (hmem c hcout).1 (of_decide_eq_true hc)

/-- The group-by on the inner side. -/
theorem computes_iff_onInner (hcat : cat.Lawful) (hop : predicateOp cat sq = some op)
    (hcols : ColumnsDistinct ctxt.pcf pexprOuter sq)
    (hkey : ∃ pkc ∈ pexprOuter.keyCollection, pkc ≠ []) (hgb : fGbOnInner cat op sq = true) :
    Computes cat pexprOuter (sqlValue cat sq) (.leftOuterApply (.leaf pexprOuter)
      (groupOnInner ctxt.pcf op sq (grpColsOnInner ctxt pexprOuter op sq)) sq.pcr,
        residual ctxt.pcf op sq) ↔
      HoldsWhen ctxt cat pexprOuter sq := by
  have hopt : Optimized op sq := .of_fGbOnInner hgb
  obtain ⟨pcrScalar, hscalar, heq⟩ := eq_ident_of_fGbOnInner hgb
  have hpcr : sq.pcr ∈ grpColsOnInner ctxt pexprOuter op sq :=
    mem_grpColsOnInner.2 ⟨.inr rfl, fun h =>
      hcols.inner_outer _ hopt.pcr_mem (List.mem_of_mem_filter h)⟩
  obtain ⟨pkc, hpkc, hne⟩ := hkey
  obtain ⟨key, hkeyMem⟩ := List.exists_mem_of_ne_nil _ hne
  refine computes_iff_of_reads hcat hop ⟨fun _ _ hgb' => ?_, fun _ c _ hc =>
    List.mem_append_left _ hc⟩ ⟨pkc, hpkc, key, hkeyMem, fun c hc =>
      List.mem_append_left _ (pexprOuter.key_output pkc hpkc key hkeyMem c hc)⟩ fun _ env => ?_
  · rw [hgb] at hgb'
    cases hgb'
  have hold : ∀ c ∈ grpColsOnInner ctxt pexprOuter op sq, c.id < ctxt.pcf := fun c hc => by
    rcases (mem_grpColsOnInner.1 hc).1 with h | rfl
    · exact hcols.old_scalar c h
    · exact hcols.old_pcr
  -- the kept inner rows equal the scalar, so they are one group
  have hconst : ∀ row ∈ pexprOuter.rows env, ∀ inner ∈ kept cat op sq row,
      ∀ inner' ∈ kept cat op sq row, ∀ c ∈ grpColsOnInner ctxt pexprOuter op sq,
        inner c = inner' c := by
    intro row _ inner hinner inner' hinner' c hc
    obtain ⟨hinner, hkeep⟩ := List.mem_filter.1 hinner
    obtain ⟨hinner', hkeep'⟩ := List.mem_filter.1 hinner'
    rcases (mem_grpColsOnInner.1 hc).1 with hc | rfl
    · have hnot : c ∉ sq.pexprInner.output := fun h => hcols.inner_scalar c h hc
      rw [LogicalLeaf.rows_of_notMem hinner hnot, LogicalLeaf.rows_of_notMem hinner' hnot]
    · rw [hopt] at hkeep hkeep'
      simp only [keeps, if_true, decide_eq_true_eq] at hkeep hkeep'
      exact hcat.equality op (Bool.and_eq_true_iff.1 hopt).2 heq _ _ _ hkeep hkeep'
  refine (rows_onInner hcols (List.ne_nil_of_mem hpcr) hold hconst).imp fun row row' hr => ?_
  have hreads := reads_onInner hcols hgb hr
  exact { hreads with outer := fun h c hc => hreads.outer h c (List.mem_of_mem_filter hc) }

/-! ## Integers -/

/-- `=` and `<>` on int4. -/
def int4Catalog : Catalog ℤ where
  compare op
    | some a, some b => if op = 518 then some (a ≠ b) else some (a = b)
    | _, _ => none
  isEquality op := op = 96
  getInverseOpMdid op := if op = 96 then some 518 else if op = 518 then some 96 else none
  fVolatile _ := false
  scalar _ _ := ⊥

theorem int4Catalog_lawful : int4Catalog.Lawful where
  veryStrict op _ a b := by
    rcases a with _ | a
    · exact iff_of_true rfl (.inl rfl)
    rcases b with _ | b
    · exact iff_of_true rfl (.inr rfl)
    refine iff_of_false (fun h => ?_) (by rintro (h | h) <;> cases h)
    simp only [int4Catalog] at h
    split at h <;> cases h
  equality op _ heq a b b' h h' := by
    have hop : op = 96 := by simpa [int4Catalog] using heq
    subst hop
    rcases a with _ | a
    · cases h
    rcases b with _ | b
    · cases h
    rcases b' with _ | b'
    · cases h'
    have hb : a = b := by simpa [int4Catalog] using h
    have hb' : a = b' := by simpa [int4Catalog] using h'
    rw [← hb, ← hb']
  inverse op inv hinv a b := by
    have hcases : op = 96 ∧ inv = 518 ∨ op = 518 ∧ inv = 96 := by
      simp only [int4Catalog] at hinv
      split at hinv
      · exact .inl ⟨‹_›, by simpa using hinv.symm⟩
      · split at hinv
        · exact .inr ⟨‹_›, by simpa using hinv.symm⟩
        · cases hinv
    rcases hcases with ⟨rfl, rfl⟩ | ⟨rfl, rfl⟩ <;> cases a <;> cases b <;>
      simp [int4Catalog, Truth.not]

def colA : CColRef := ⟨0, true, true, true⟩

def colB : CColRef := ⟨1, true, true, false⟩

/-- `T(a)` with distinct values. -/
def leafT (vals : List (Datum (SqlValue ℤ))) (hnd : vals.Nodup) : LogicalLeaf ℤ where
  output := [colA]
  tuples _ := vals.map ([·])
  hasOuterRefs := false
  notNullColumns := []
  keyCollection := some [[colA]]
  notNull_output := by simp
  notNull_sound := by simp
  key_output := by simp
  key_ne_nil := by simp
  key_sound := by
    simp only [Option.mem_def, Option.some.injEq, forall_eq', List.mem_singleton, forall_eq]
    exact fun env => List.pairwise_map.2 (hnd.imp fun h => ⟨colA, rfl, by simpa [assign] using h⟩)

/-- `S(b)` with `b` not null. -/
def leafS (vals : List (Datum (SqlValue ℤ))) (hnn : ⊥ ∉ vals) : LogicalLeaf ℤ where
  output := [colB]
  tuples _ := vals.map ([·])
  hasOuterRefs := false
  notNullColumns := [colB]
  keyCollection := none
  notNull_output := by simp
  notNull_sound := by
    simp only [List.mem_map, List.mem_singleton, forall_eq, forall_exists_index, and_imp]
    rintro env _ v hv rfl
    simpa [assign] using fun h : v = ⊥ => hnn (h ▸ hv)
  key_output := by simp
  key_ne_nil := by simp
  key_sound := by simp

/-- `T.a = ANY (S.b)` or `T.a = ALL (S.b)`. -/
def subqueryS (fAll : Bool) (vals : List (Datum (SqlValue ℤ))) (hnn : ⊥ ∉ vals) :
    CScalarSubqueryQuantified ℤ :=
  ⟨fAll, 96, colB, leafS vals hnn, .ident colA, false⟩

def ctxtT : COptCtxt := ⟨fun _ => true, fun _ => false, fun _ => true, [], 2⟩

theorem columnsDistinct_leafT {vals valsS : List (Datum (SqlValue ℤ))} (hnd : vals.Nodup)
    (hnn : ⊥ ∉ valsS) (fAll : Bool) :
    ColumnsDistinct ctxtT.pcf (leafT vals hnd) (subqueryS fAll valsS hnn) := by
  constructor <;> simp [leafT, subqueryS, leafS, ctxtT, colA, colB, ApplyScalar.usedColumns]

/-- **Value-context unnesting computes SQL's ANY and ALL** exactly where no outer row meets the
    defect of the not-nullable-inner optimization. -/
theorem fRemoveQuantifiedSubquery_computes_iff (ctxt : COptCtxt) (cat : Catalog D)
    (fEnforceCorrelatedApply : Bool) (pexprOuter : LogicalLeaf D)
    (pexprSubquery : CScalarSubqueryQuantified D) (built : ApplyExpr D × ApplyScalar D)
    (hcat : cat.Lawful) (hcols : ColumnsDistinct ctxt.pcf pexprOuter pexprSubquery)
    (hkey : ∃ pkc ∈ pexprOuter.keyCollection, pkc ≠ [])
    (hbuilt : fRemoveQuantifiedSubquery ctxt cat fEnforceCorrelatedApply pexprOuter pexprSubquery =
      some built) :
    Computes cat pexprOuter (sqlValue cat pexprSubquery) built ↔
      HoldsWhen ctxt cat pexprOuter pexprSubquery := by
  obtain ⟨op, hop, hcreate⟩ := fRemoveQuantifiedSubquery_eq_some hbuilt
  obtain ⟨pexprNewOuter, pexprResidual⟩ := built
  obtain ⟨rfl, ⟨hgb, rfl⟩ | ⟨hgb, gcols, hgcols, rfl⟩⟩ := fCreateOuterApply_eq_some hcreate
  · exact computes_iff_onInner hcat hop hcols hkey hgb
  · exact computes_iff_onOuter hcat hop hcols hgb hgcols

/-- `T.a = ANY (S.b)` for `T` with the rows 1 and NULL and `S` with 1 and 2. -/
theorem fRemoveQuantifiedSubquery_computes_any :
    let pexprSubquery := subqueryS false [(.data 1 : SqlValue ℤ), (.data 2 : SqlValue ℤ)] (by simp)
    let pexprOuter := leafT [(.data 1 : SqlValue ℤ), ⊥] (by simp)
    ∃ built, fRemoveQuantifiedSubquery ctxtT int4Catalog false pexprOuter pexprSubquery =
      some built ∧ Computes int4Catalog pexprOuter (sqlValue int4Catalog pexprSubquery) built := by
  intro pexprSubquery pexprOuter
  refine ⟨_, rfl, (fRemoveQuantifiedSubquery_computes_iff ctxtT int4Catalog false pexprOuter
    pexprSubquery _ int4Catalog_lawful (columnsDistinct_leafT _ _ false) ⟨_, rfl, by simp⟩ rfl).2 ?_⟩
  intro op hop _
  cases hop
  refine ⟨fun h => absurd h (by decide), fun env row hrow => ⟨fun _ => ?_, fun _ hskip => ?_⟩⟩
  · simp [pexprSubquery, subqueryS, leafS, LogicalLeaf.rows]
  · exfalso
    revert hskip
    decide

/-- `NULL = ANY (S.b)` and `NULL = ALL (S.b)` over an empty `S`: SQL's answers are FALSE and TRUE,
    the residual's are NULL. -/
theorem fRemoveQuantifiedSubquery_null_over_empty :
    int4Catalog.Lawful ∧
    ColumnsDistinct ctxtT.pcf (leafT [⊥] (by simp)) (subqueryS false [] (by simp)) ∧
    ColumnsDistinct ctxtT.pcf (leafT [⊥] (by simp)) (subqueryS true [] (by simp)) ∧
    (∃ built, fRemoveQuantifiedSubquery ctxtT int4Catalog false (leafT [⊥] (by simp))
        (subqueryS false [] (by simp)) = some built ∧
      ¬ Computes int4Catalog (leafT [⊥] (by simp))
        (sqlValue int4Catalog (subqueryS false [] (by simp))) built) ∧
    (∃ built, fRemoveQuantifiedSubquery ctxtT int4Catalog false (leafT [⊥] (by simp))
        (subqueryS true [] (by simp)) = some built ∧
      ¬ Computes int4Catalog (leafT [⊥] (by simp))
        (sqlValue int4Catalog (subqueryS true [] (by simp))) built) := by
  refine ⟨int4Catalog_lawful, columnsDistinct_leafT _ _ false, columnsDistinct_leafT _ _ true,
    ⟨_, rfl, fun h => ?_⟩, ⟨_, rfl, fun h => ?_⟩⟩
  · exact absurd (h.rows nullRow) (by decide +kernel)
  · exact absurd (h.rows nullRow) (by decide +kernel)

end CSubqueryHandler

end BossOptimizer

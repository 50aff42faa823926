import BossOptimizer.Operators.SuperfluousOuterRefs

/-!
# What the removal of outer references preserves

The run of `PexprRemoveSuperfluousOuterRefs`: the new query has the same rows, in the columns that
the old one has, where every operator is harmless. It is shown node by node, together with the
derived columns, which tell where an ALL subquery is moved.
-/

namespace BossOptimizer

namespace ColumnarSemantics

variable {D K W Op : Type} [LinearOrder D] (S : ColumnarSemantics D K W Op)

/-! ## Columns -/

section Narrows

open DerivedColumns

variable {ds ds' : List DerivedColumns} (h : List.Forall₂ Narrows ds ds')

include h

omit [LinearOrder D] in
theorem narrows_limit {popLimit popLimit' : CLogicalLimit}
    (hpos : ∀ c ∈ popLimit'.pos.PcrsUsed, c ∈ popLimit.pos.PcrsUsed) :
    ((GroupingOp.logicalLimit popLimit).columns S.cols ds).Narrows
      ((GroupingOp.logicalLimit popLimit').columns S.cols ds') :=
  ⟨Narrows.outputs h, Narrows.outerReferences h hpos, fun _ => id, fun _ => id⟩

omit [LinearOrder D] in
theorem narrows_gbAgg {popAgg popAgg' : CLogicalGbAgg}
    (hkept : ∀ c ∈ popAgg.pdrgpcr, c ∈ ds.flatMap (·.output) → c ∈ popAgg'.pdrgpcr)
    (hsub : ∀ c ∈ popAgg'.pdrgpcr, c ∈ popAgg.pdrgpcr) :
    ((GroupingOp.logicalGbAgg popAgg).columns S.cols ds).Narrows
      ((GroupingOp.logicalGbAgg popAgg').columns S.cols ds') := by
  refine ⟨fun c hc => ?_, Narrows.outerReferences h hsub, fun _ => id, fun _ => id⟩
  rcases List.mem_append.1 hc with hc | hc
  · obtain ⟨hmem, hout⟩ := List.mem_filter.1 hc
    have hout := of_decide_eq_true hout
    exact List.mem_append_left _ (List.mem_filter.2
      ⟨hkept c hmem hout, decide_eq_true (Narrows.outputs h c hout)⟩)
  · exact List.mem_append_right _ (Narrows.defineds (List.forall₂_drop 1 h) c hc)

omit [LinearOrder D] in
theorem narrows_sequenceProject {pop pop' : CLogicalSequenceProject K W}
    (hused : ∀ c ∈ pop'.pcrsLocalUsed S.cols, c ∈ pop.pcrsLocalUsed S.cols) :
    ((GroupingOp.logicalSequenceProject pop).columns S.cols ds).Narrows
      ((GroupingOp.logicalSequenceProject pop').columns S.cols ds') := by
  refine ⟨fun c hc => ?_, Narrows.outerReferences h hused, fun _ => id, fun _ => id⟩
  rcases List.mem_append.1 hc with hc | hc
  · exact List.mem_append_left _ (Narrows.outputs h c hc)
  · exact List.mem_append_right _ (Narrows.defineds (List.forall₂_drop 1 h) c hc)

omit [LinearOrder D] in
theorem narrows_op (pop : QueryOp D (GroupingOp K W Op)) :
    (pop.columns (GroupingOp.columns S.cols) ds).Narrows
      (pop.columns (GroupingOp.columns S.cols) ds') := by
  refine QueryOp.columns_narrows (fun pop ds ds' h => ?_) pop h
  cases pop with
  | logicalLimit popLimit => exact S.narrows_limit h fun _ => id
  | logicalGbAgg popAgg => exact S.narrows_gbAgg h (fun _ hc _ => hc) fun _ => id
  | logicalSequenceProject pop => exact S.narrows_sequenceProject h fun _ => id
  | other pop => exact S.narrows pop ds ds' h

end Narrows

/-! ## One node -/

/-- What the pass makes of an expression: the same rows, no more needed and no less offered, and the
    column that an ALL subquery is moved to holds what the one it is moved away from holds. -/
structure Simulates (n : ℕ) (pexpr pexpr' : Query D (GroupingOp K W Op)) : Prop where
  blind : Blind S.cols.PcrsUsedByFrame n (S.eval pexpr) (S.eval pexpr')
  narrows : (Query.columns (GroupingOp.columns S.cols) pexpr).Narrows
    (Query.columns (GroupingOp.columns S.cols) pexpr')
  element : Query.pcrFromProjElem pexpr' = Query.pcrFromProjElem pexpr
  first : Query.firstElement pexpr' = Query.firstElement pexpr
  projected : Query.firstProjected pexpr' = Query.firstProjected pexpr
  moved : ∀ c', Query.pcrOuter S.cols pexpr' = some c' →
    ∃ c, Query.movedFrom S.cols pexpr = some c ∧ S.SameColumn n c c' (S.eval pexpr) (S.eval pexpr') ∧
      (c' = c ∨ c' ∈ Query.DeriveOutputColumns (GroupingOp.columns S.cols) pexpr')

variable {n : ℕ}

omit [LinearOrder D] in
theorem sameColumn_of_blind {f f' : Env D (RowGroup D W) → Result D} {c : CColRef} (hc : c.id < n)
    (hblind : Blind S.cols.PcrsUsedByFrame n f f') : S.SameColumn n c c f f' := by
  intro env env' henv
  have hrows := hblind.rows? henv
  cases hr : (f env).rows? <;> cases hr' : (f' env').rows? <;>
    simp only [hr, hr', Option.map_none, Option.map_some, reduceCtorEq, Option.some.injEq] at hrows
  · rfl
  · exact congrArg some (map_column_congr hc hrows id)

omit [LinearOrder D] in
/-- A comparison with all values of a column. -/
theorem below_allOf {rows rows' : Option (List (Row D))} {c c' : CColRef}
    (hrows : rows.map (List.map (· c)) = rows'.map (List.map (· c'))) (mdidOp : ℕ)
    (left : Option (Datum D)) :
    (Result.ofOption (rows.bind fun rows => left.bind fun l => some (Result.value
        (S.ofTruth (Truth.all (rows.map fun row => S.cmp mdidOp l (row c))))))).below n =
      (Result.ofOption (rows'.bind fun rows => left.bind fun l => some (Result.value
        (S.ofTruth (Truth.all (rows.map fun row => S.cmp mdidOp l (row c'))))))).below n := by
  have hcmp : ∀ (rows : List (Row D)) c l, (rows.map fun row => S.cmp mdidOp l (row c)) =
      (rows.map (· c)).map (S.cmp mdidOp l) := fun rows c l => by
    rw [List.map_map]
    rfl
  cases rows <;> cases rows' <;> simp only [Option.map_none, Option.map_some, reduceCtorEq,
    Option.some.injEq] at hrows
  · rfl
  · simp only [Option.bind_some, hcmp, hrows]

section Step

variable {pexprs pexprs' : List (Query D (GroupingOp K W Op))}
  (h : List.Forall₂ (S.Simulates n) pexprs pexprs')

include h

theorem blind_children : List.Forall₂ (Blind S.cols.PcrsUsedByFrame n) (pexprs.map S.eval)
    (pexprs'.map S.eval) := by
  rw [List.forall₂_map_left_iff, List.forall₂_map_right_iff]
  exact h.imp fun _ _ hs => hs.blind

theorem narrows_children : List.Forall₂ DerivedColumns.Narrows
    (pexprs.map (Query.columns (GroupingOp.columns S.cols)))
    (pexprs'.map (Query.columns (GroupingOp.columns S.cols))) := by
  rw [List.forall₂_map_left_iff, List.forall₂_map_right_iff]
  exact h.imp fun _ _ hs => hs.narrows

theorem firstElement_node (pop : QueryOp D (GroupingOp K W Op)) :
    Query.firstElement (.node pop pexprs') = Query.firstElement (.node pop pexprs) := by
  cases h with
  | nil => rfl
  | cons hs _ => cases pop <;> first | exact hs.element | rfl

theorem firstProjected_node (pop : QueryOp D (GroupingOp K W Op)) :
    Query.firstProjected (.node pop pexprs') = Query.firstProjected (.node pop pexprs) := by
  rcases h with _ | ⟨_, _ | ⟨hs, _ | _⟩⟩ <;> cases pop <;> first | exact hs.first | rfl

/-- An operator that the pass does not change. -/
theorem simulates_same {pop : QueryOp D (GroupingOp K W Op)}
    (hnames : ∀ c ∈ pop.mentions (GroupingOp.mentions S.cols S.mentions), c.id < n)
    (hpop : ∀ l, Query.pcrOuter S.cols (.node pop l) = none) :
    S.Simulates n (.node pop pexprs) (.node pop pexprs') where
  blind := by
    rw [eval, eval, Query.eval_node, Query.eval_node]
    exact S.op_blind hnames (S.blind_children h)
  narrows := by
    rw [Query.columns, Query.columns, CExpression.fold_node, CExpression.fold_node]
    exact S.narrows_op (S.narrows_children h) pop
  element := by cases pop <;> rfl
  first := S.firstElement_node h pop
  projected := S.firstProjected_node h pop
  moved c' hc' := by simp [hpop] at hc'

/-- An operator that the pass changes without a projection below it. -/
theorem simulates_changed {pop pop' : GroupingOp K W Op}
    (hop : S.groupingOp pop' (pexprs.map S.eval) = S.groupingOp pop (pexprs.map S.eval))
    (hnames : ∀ c ∈ pop'.mentions S.cols S.mentions, c.id < n)
    (hnarrows : ∀ ds ds', List.Forall₂ DerivedColumns.Narrows ds ds' →
      ds = pexprs.map (Query.columns (GroupingOp.columns S.cols)) →
      (pop.columns S.cols ds).Narrows (pop'.columns S.cols ds'))
    (hmoved : ∀ c', Query.pcrOuter S.cols (.node (.other pop') pexprs') = some c' →
      Query.movedFrom S.cols (.node (.other pop) pexprs) = some c' ∧ c'.id < n) :
    S.Simulates n (.node (.other pop) pexprs) (.node (.other pop') pexprs') := by
  have hblind : Blind S.cols.PcrsUsedByFrame n (S.eval (.node (.other pop) pexprs))
      (S.eval (.node (.other pop') pexprs')) := by
    rw [eval, eval, Query.eval_node, Query.eval_node]
    have hsame : S.semantics.op (.other pop) (pexprs.map S.eval) =
        S.semantics.op (.other pop') (pexprs.map S.eval) := hop.symm
    rw [hsame]
    exact S.op_blind hnames (S.blind_children h)
  refine ⟨hblind, ?_, rfl, S.firstElement_node h _, S.firstProjected_node h _, fun c' hc' => ?_⟩
  · rw [Query.columns, Query.columns, CExpression.fold_node, CExpression.fold_node]
    exact hnarrows _ _ (S.narrows_children h) rfl
  · obtain ⟨hfrom, hlt⟩ := hmoved c' hc'
    exact ⟨c', hfrom, S.sameColumn_of_blind hlt hblind, .inl rfl⟩

/-- An ALL subquery, moved to a column with the same values or left where it is. -/
theorem simulates_all {mdidOp : ℕ} {colref : CColRef} (hcolref : colref.id < n)
    (harmless : S.HarmlessAt (.node (.scalarSubqueryAll mdidOp colref) pexprs)) :
    S.Simulates n (.node (.scalarSubqueryAll mdidOp colref) pexprs)
      (.node (Query.adjustAll S.cols pexprs' (.scalarSubqueryAll mdidOp colref)) pexprs') := by
  have hstays : S.Simulates n (.node (.scalarSubqueryAll mdidOp colref) pexprs)
      (.node (.scalarSubqueryAll mdidOp colref) pexprs') :=
    S.simulates_same h (fun c hc => by cases List.mem_singleton.1 hc; exact hcolref) fun _ => rfl
  cases h with
  | nil => exact hstays
  | @cons pexprChild pexprChild' rest rest' hs hrest =>
    cases houter : Query.pcrOuter S.cols pexprChild' with
    | none => simpa [Query.adjustAll, houter] using hstays
    | some c' =>
      obtain ⟨c, hfrom, hsame, hout⟩ := hs.moved c' houter
      obtain rfl : c = colref := harmless c hfrom
      have hadjust : Query.adjustAll S.cols (pexprChild' :: rest')
          (.scalarSubqueryAll mdidOp c) = (.scalarSubqueryAll mdidOp c' : QueryOp D _) := by
        simp [Query.adjustAll, houter]
      rw [hadjust]
      refine ⟨?_, ?_, rfl, S.firstElement_node (.cons hs hrest) _,
        S.firstProjected_node (.cons hs hrest) _, fun _ hnone => by cases hnone⟩
      · rw [eval, eval, Query.eval_node, Query.eval_node, List.map_cons, List.map_cons]
        intro env env' henv
        rcases hrest with _ | ⟨hleft, _ | _⟩ <;> try rfl
        simp only [List.map_cons, List.map_nil, QuerySemantics.op, hleft.blind.value? henv]
        exact S.below_allOf (hsame env env' henv) _ _
      · have hchildren := S.narrows_children (.cons hs hrest)
        rw [Query.columns, Query.columns, CExpression.fold_node, CExpression.fold_node]
        refine DerivedColumns.Narrows.scalar hchildren ?_ []
        rcases hout with rfl | hout
        · exact DerivedColumns.Narrows.subqueryColumn hchildren c'
        · intro d hd
          rw [DerivedColumns.subqueryColumn, if_pos] at hd
          · cases hd
          · exact List.mem_flatMap.2 ⟨_, List.mem_map_of_mem List.mem_cons_self, hout⟩

end Step

/-! ## The echo as a node -/

omit [LinearOrder D] in
theorem columns_echoes (echoes : List (CColRef × CColRef)) :
    Query.columns (GroupingOp.columns S.cols) (.node .scalarProjectList (echoes.map fun echo =>
      .node (.scalarProjectElement echo.1) [.node (.scalarIdent echo.2) []]) :
        Query D (GroupingOp K W Op)) =
      { output := [], outer := [], used := echoes.map (·.2), defined := echoes.map (·.1) } := by
  rw [Query.columns, CExpression.fold_node, List.map_map]
  simp only [QueryOp.columns, DerivedColumns.scalar, DerivedColumns.usedByChildren,
    List.flatMap_map, Function.comp_apply, CExpression.fold_node, List.map_cons, List.map_nil,
    List.flatMap_cons, List.flatMap_nil, List.append_nil, List.nil_append]
  rw [List.map_eq_flatMap, List.map_eq_flatMap]

omit [LinearOrder D] in
/-- An aggregate that groups by the echoes needs and offers what it did before. -/
theorem narrows_echo {popAgg popAgg' : CLogicalGbAgg} {d d' dl : DerivedColumns}
    (hd : d.Narrows d') (hdl : dl = ⟨[], [], [], []⟩) {echoes : List (CColRef × CColRef)}
    (hpopAgg : echoes.map (·.2) = popAgg.pdrgpcr) (hpopAgg' : echoes.map (·.1) = popAgg'.pdrgpcr)
    (hout : ∀ c ∈ popAgg.pdrgpcr, c ∉ d.output) :
    ((GroupingOp.logicalGbAgg popAgg).columns S.cols [d, dl]).Narrows
      ((GroupingOp.logicalGbAgg popAgg').columns S.cols
        [QueryOp.columns (D := D) (GroupingOp.columns S.cols) .logicalProject
          [d', { output := [], outer := [], used := echoes.map (·.2),
                 defined := echoes.map (·.1) }], dl]) := by
  subst hdl
  rw [hpopAgg, hpopAgg']
  simp only [GroupingOp.columns, QueryOp.columns, DerivedColumns.outerReferences,
    DerivedColumns.usedByChildren]
  refine ⟨fun c hc => ?_, fun c hc => ?_, fun _ => id, fun _ => id⟩
  · simp at hc
    exact absurd hc.2 (hout c hc.1)
  · simp at hc ⊢
    have hused := hd.used c
    have houter := hd.outer c
    have houtput := hd.output c
    tauto

/-- **The projection below an aggregate** whose grouping columns are all outer references. -/
theorem simulates_echo {n next : ℕ} (hnext : n ≤ next) {popAgg popAgg' : CLogicalGbAgg}
    {pexpr pexpr' : Query D (GroupingOp K W Op)} (hs : S.Simulates n pexpr pexpr')
    (hne : popAgg.pdrgpcr ≠ []) (hnames : ∀ c ∈ popAgg.pdrgpcr, c.id < n)
    (hall : PdrgpcrExcludeColumns popAgg.pdrgpcr (S.outer_refs
      (.node (.other (.logicalGbAgg popAgg)) [pexpr, .node .scalarProjectList []])) = [])
    (hpopAgg' : popAgg'.pdrgpcr = Query.PdrgpcrCreate popAgg.pdrgpcr next) :
    S.Simulates n (.node (.other (.logicalGbAgg popAgg)) [pexpr, .node .scalarProjectList []])
      (.node (.other (.logicalGbAgg popAgg'))
        [Query.PexprAddProjection ((Query.PdrgpcrCreate popAgg.pdrgpcr next).zip popAgg.pdrgpcr)
          pexpr', .node .scalarProjectList []]) := by
  have hlen : (Query.PdrgpcrCreate popAgg.pdrgpcr next).length = popAgg.pdrgpcr.length :=
    Query.pdrgpcrCreate_length ..
  have hechoes := Query.zip_pdrgpcrCreate_ne_nil hne next
  have houter : ∀ c ∈ popAgg.pdrgpcr, c ∈ S.outer_refs
      (.node (.other (.logicalGbAgg popAgg)) [pexpr, .node .scalarProjectList []]) := by
    simpa [PdrgpcrExcludeColumns] using hall
  have hconst : ∀ env rows, (S.eval pexpr env).rows? = some rows →
      Constant popAgg.pdrgpcr env.row rows := fun env rows hrows row hrow c hc =>
    S.constant_of_outer (.logicalGbAgg popAgg) [.node .scalarProjectList []] (fun _ => rfl) hrows
      row hrow c (houter c hc)
  have heval : ∀ (popAgg : CLogicalGbAgg) (pexpr : Query D (GroupingOp K W Op)) env,
      S.eval (.node (.other (.logicalGbAgg popAgg)) [pexpr, .node .scalarProjectList []]) env =
        Result.ofOption (((S.eval pexpr env).rows?.map fun rows =>
          (GroupingSemantics.groups popAgg.pdrgpcr env.row rows).map (·.1)).map .relation) := by
    intro popAgg pexpr env
    rw [eval, Query.eval_node, Option.map_map]
    exact S.rows_gbAgg_projectList_nil popAgg (S.eval pexpr) env
  have hecho := fun env env' (henv : Env.Agree S.cols.PcrsUsedByFrame n env env') =>
    S.gbAgg_echo hnext hne hnames hpopAgg' hconst hs.blind henv
  refine ⟨fun env env' henv => ?_, ?_, rfl, rfl, rfl, fun c' hc' => ?_⟩
  · rw [heval, heval]
    generalize hrows : Option.map _ (S.eval pexpr env).rows? = o
    generalize hrows' : Option.map _ (S.eval _ env').rows? = o'
    have hrel := hecho env env' henv
    rw [hrows, hrows'] at hrel
    cases hrel with
    | none => rfl
    | some hrel => exact congrArg Result.relation hrel.1
  · have hnarrows := S.narrows_echo hs.narrows
      (rfl : Query.columns (GroupingOp.columns S.cols)
        (.node .scalarProjectList [] : Query D (GroupingOp K W Op)) = ⟨[], [], [], []⟩)
      (List.map_snd_zip hlen.ge) ((List.map_fst_zip hlen.le).trans hpopAgg'.symm) fun c hc hout =>
        of_decide_eq_true (List.mem_filter.1 (houter c hc)).2
          (List.mem_flatMap.2 ⟨_, List.mem_cons_self, hout⟩)
    rw [← S.columns_echoes] at hnarrows
    rw [Query.PexprAddProjection, if_neg hechoes]
    exact hnarrows
  · obtain ⟨c, rest, hpdrgpcr⟩ := List.exists_cons_of_ne_nil hne
    have hfirst : Query.firstProjected (Query.PexprAddProjection
        ((Query.PdrgpcrCreate popAgg.pdrgpcr next).zip popAgg.pdrgpcr) pexpr') =
        some (Query.PcrCreate c next) := by
      rw [hpdrgpcr]
      rfl
    have hc'eq : c' = Query.PcrCreate c next := by
      rw [Query.pcrOuter] at hc'
      split_ifs at hc'
      exact (Option.some.inj (hfirst.symm.trans hc')).symm
    subst hc'eq
    have hzip : (Query.PcrCreate c next, c) ∈
        (Query.PdrgpcrCreate popAgg.pdrgpcr next).zip popAgg.pdrgpcr := by
      rw [hpdrgpcr]
      exact List.mem_cons_self
    refine ⟨c, ?_, fun env env' henv => ?_, .inr ?_⟩
    · have hnonempty := List.ne_nil_of_mem (houter c (by simp [hpdrgpcr]))
      have hechoing : Query.FEchoes (S.outer_refs
          (.node (.other (.logicalGbAgg popAgg)) [pexpr, .node .scalarProjectList []]))
          [pexpr, .node .scalarProjectList []] popAgg = true := by
        simp [Query.FEchoes, Query.FProjListEmpty, hall]
      simp only [Query.movedFrom]
      rw [if_neg (by simpa using hnonempty), if_pos hechoing, hpdrgpcr]
      rfl
    · rw [heval, heval]
      generalize hrows : Option.map _ (S.eval pexpr env).rows? = o
      generalize hrows' : Option.map _ (S.eval _ env').rows? = o'
      have hrel := hecho env env' henv
      rw [hrows, hrows'] at hrel
      cases hrel with
      | none => rfl
      | some hrel => exact congrArg some (hrel.2 _ hzip)
    · have hproject : Query.PcrCreate c next ∈ (Query.columns (GroupingOp.columns S.cols)
          (Query.PexprAddProjection ((Query.PdrgpcrCreate popAgg.pdrgpcr next).zip popAgg.pdrgpcr)
            pexpr')).output := by
        rw [Query.PexprAddProjection, if_neg hechoes, Query.columns, CExpression.fold_node]
        refine List.mem_append_right _ (List.mem_flatMap.2
          ⟨_, List.mem_cons_of_mem _ (List.mem_singleton_self _), ?_⟩)
        rw [← Query.columns, S.columns_echoes]
        exact List.mem_map_of_mem (f := Prod.fst) hzip
      rw [Query.DeriveOutputColumns, Query.columns, CExpression.fold_node]
      refine List.mem_append_left _ (List.mem_filter.2 ⟨?_, decide_eq_true ?_⟩)
      · rw [hpopAgg']
        exact (List.of_mem_zip hzip).1
      · exact List.mem_flatMap.2 ⟨_, List.mem_cons_self, hproject⟩

/-! ## The run -/

omit [LinearOrder D] in
theorem subexpression_of_firstProjected {pexpr : Query D (GroupingOp K W Op)} {c : CColRef}
    (h : Query.firstProjected pexpr = some c) :
    ∃ l, CExpression.SubexpressionOf (.node (.scalarProjectElement c) l) pexpr := by
  unfold Query.firstProjected at h
  split at h
  · rename_i child list
    unfold Query.firstElement at h
    split at h
    · rename_i el els
      unfold Query.pcrFromProjElem at h
      split at h
      · cases h
        exact ⟨_, .child (List.mem_cons_of_mem _ (List.mem_singleton_self _))
          (.child List.mem_cons_self .refl)⟩
      · cases h
    · cases h
  · cases h

/-- An ALL subquery over an aggregate that the pass does not put on an echo. -/
theorem movedFrom_of_pcrOuter {n : ℕ} {popAgg popAgg' : CLogicalGbAgg}
    {pexprs pexprs' : List (Query D (GroupingOp K W Op))}
    (h : List.Forall₂ (S.Simulates n) pexprs pexprs')
    (hechoes : Query.FEchoes (S.outer_refs (.node (.other (.logicalGbAgg popAgg)) pexprs)) pexprs
      popAgg = true → popAgg.pdrgpcr = [])
    (hnarrows : ∀ c ∈ S.outer_refs (.node (.other (.logicalGbAgg popAgg')) pexprs'),
      c ∈ S.outer_refs (.node (.other (.logicalGbAgg popAgg)) pexprs)) {c' : CColRef}
    (hc' : Query.pcrOuter S.cols (.node (.other (.logicalGbAgg popAgg')) pexprs') = some c') :
    Query.movedFrom S.cols (.node (.other (.logicalGbAgg popAgg)) pexprs) = some c' ∧
      ∃ pexpr ∈ pexprs, Query.firstProjected pexpr = some c' := by
  rcases h with _ | @⟨pexpr, pexpr', rest, rest', hs, hrest⟩
  · cases hc'
  · rw [Query.pcrOuter] at hc'
    split_ifs at hc' with houter
    rw [hs.projected] at hc'
    have hnonempty : ¬(S.outer_refs (.node (.other (.logicalGbAgg popAgg))
        (pexpr :: rest))).isEmpty := by
      obtain ⟨c, hc⟩ : ∃ c, c ∈ S.outer_refs (.node (.other (.logicalGbAgg popAgg'))
          (pexpr' :: rest')) :=
        List.exists_mem_of_ne_nil _ (by simpa [Query.HasOuterRefs] using houter)
      simpa using List.ne_nil_of_mem (hnarrows c hc)
    refine ⟨?_, _, List.mem_cons_self, hc'⟩
    simp only [Query.movedFrom]
    rw [if_neg hnonempty]
    split_ifs with hechoing
    · rw [hechoes hechoing, List.head?_nil, Option.none_or, hc']
    · exact hc'

section Run

variable {n : ℕ} {pexprs pexprs' : List (Query D (GroupingOp K W Op))}

omit [LinearOrder D] in
theorem outer_refs_node (pop : GroupingOp K W Op) (pexprs : List (Query D (GroupingOp K W Op))) :
    S.outer_refs (.node (.other pop) pexprs) =
      (pop.columns S.cols (pexprs.map (Query.columns (GroupingOp.columns S.cols)))).outer := by
  rw [outer_refs, Query.DeriveOuterReferences, Query.columns, CExpression.fold_node]
  rfl

omit [LinearOrder D] in
theorem outer_of_narrows {pop pop' : GroupingOp K W Op}
    (h : (pop.columns S.cols (pexprs.map (Query.columns (GroupingOp.columns S.cols)))).Narrows
      (pop'.columns S.cols (pexprs'.map (Query.columns (GroupingOp.columns S.cols))))) :
    ∀ c ∈ S.outer_refs (.node (.other pop') pexprs'),
      c ∈ S.outer_refs (.node (.other pop) pexprs) := by
  rw [S.outer_refs_node, S.outer_refs_node]
  exact h.outer

/-- A node whose operator stays, but for the column of an ALL subquery. -/
theorem simulates_unchanged (h : List.Forall₂ (S.Simulates n) pexprs pexprs')
    {pop : QueryOp D (GroupingOp K W Op)}
    (hnames : ∀ s, CExpression.SubexpressionOf s (.node pop pexprs) →
      ∀ c ∈ s.Pop.mentions (GroupingOp.mentions S.cols S.mentions), c.id < n)
    (harmless : S.HarmlessAt (.node pop pexprs))
    (hechoes : ∀ popAgg, pop = .other (.logicalGbAgg popAgg) →
      Query.FEchoes (S.outer_refs (.node pop pexprs)) pexprs popAgg = true →
        popAgg.pdrgpcr = []) :
    S.Simulates n (.node pop pexprs) (.node (Query.adjustAll S.cols pexprs' pop) pexprs') := by
  have hpop := hnames _ .refl
  cases pop with
  | scalarSubqueryAll mdidOp colref =>
    exact S.simulates_all h (hpop colref (List.mem_singleton_self _)) harmless
  | other pop =>
    cases pop with
    | logicalGbAgg popAgg =>
      refine S.simulates_changed h rfl hpop
        (fun ds ds' h _ => S.narrows_gbAgg h (fun _ hc _ => hc) fun _ => id) fun c' hc' => ?_
      obtain ⟨hfrom, pexpr, hmem, hfirst⟩ := S.movedFrom_of_pcrOuter h (hechoes popAgg rfl)
        (S.outer_of_narrows (S.narrows_gbAgg (S.narrows_children h) (fun _ hc _ => hc) fun _ => id))
        hc'
      obtain ⟨l, hs⟩ := subexpression_of_firstProjected hfirst
      exact ⟨hfrom, hnames _ (.child hmem hs) c' (List.mem_singleton_self _)⟩
    | _ => exact S.simulates_same h hpop fun _ => rfl
  | _ => exact S.simulates_same h hpop fun _ => rfl

omit [LinearOrder D] in
/-- The pass on a node without an echo. -/
theorem pass_node {pop pop' : QueryOp D (GroupingOp K W Op)} {next : ℕ}
    (hnew : (if (S.outer_refs (.node pop pexprs)).isEmpty then (pop, [])
      else Query.popNew S.cols (S.outer_refs (.node pop pexprs)) pexprs next pop) = (pop', [])) :
    (Query.pexprRemoveSuperfluousOuterRefs S.cols (.node pop pexprs) next).1 =
      .node (Query.adjustAll S.cols (Query.removeSuperfluousOuterRefsEach S.cols pexprs next).1 pop')
        (Query.removeSuperfluousOuterRefsEach S.cols pexprs next).1 := by
  have hadd : ∀ l : List (Query D (GroupingOp K W Op)), Query.addEchoes [] l = l := fun l => by
    cases l <;> rfl
  rw [Query.pexprRemoveSuperfluousOuterRefs]
  simp only [hnew, hadd]
  rfl

omit [LinearOrder D] in
theorem pcrsLocalUsed_subset {pop : CLogicalSequenceProject K W} {outer_refs : List CColRef} :
    (pop.PopRemoveLocalOuterRefs outer_refs).pcrsLocalUsed S.cols ⊆ pop.pcrsLocalUsed S.cols := by
  have hpds : (pop.pds.excludeColumns outer_refs).PcrsUsed S.cols ⊆ pop.pds.PcrsUsed S.cols := by
    cases pop.pds with
    | singleton => exact fun _ => id
    | hashed pdrgpexpr fNullsColocated =>
      rw [PartitionSpec.excludeColumns]
      split_ifs
      · exact List.nil_subset _
      · intro c hc
        obtain ⟨key, hkey, hc⟩ := List.mem_flatMap.1 hc
        exact List.mem_flatMap.2 ⟨key, (List.mem_filter.1 hkey).1, hc⟩
  intro c hc
  simp only [CLogicalSequenceProject.pcrsLocalUsed, List.mem_append, List.mem_flatMap] at hc ⊢
  rcases hc with (⟨pos, hpos, hc⟩ | hc) | hc
  · obtain ⟨pos, hmem, rfl⟩ := List.mem_map.1 hpos
    exact .inl (.inl ⟨pos, hmem, List.map_subset _ (List.filter_subset_self _) hc⟩)
  · exact .inl (.inr (hpds hc))
  · exact .inr hc

theorem groupingOp_gbAgg_congr {popAgg popAgg' : CLogicalGbAgg}
    (h : popAgg'.pdrgpcr = popAgg.pdrgpcr) (fs : List (Env D (RowGroup D W) → Result D)) :
    S.groupingOp (.logicalGbAgg popAgg') fs = S.groupingOp (.logicalGbAgg popAgg) fs := by
  rcases fs with _ | ⟨child, _ | ⟨list, _ | _⟩⟩ <;> try rfl
  funext env
  rw [GroupingSemantics.groupingOp, GroupingSemantics.groupingOp, h]

/-- An aggregate with outer references. -/
theorem simulates_node_gbAgg {next : ℕ} (hnext : n ≤ next) (popAgg : CLogicalGbAgg)
    (hnames : ∀ s, CExpression.SubexpressionOf s (.node (.other (.logicalGbAgg popAgg)) pexprs) →
      ∀ c ∈ s.Pop.mentions (GroupingOp.mentions S.cols S.mentions), c.id < n)
    (harmless : S.HarmlessAt (.node (.other (.logicalGbAgg popAgg)) pexprs))
    (h : ∀ next ≥ n, List.Forall₂ (S.Simulates n) pexprs
      (Query.removeSuperfluousOuterRefsEach S.cols pexprs next).1)
    (hempty : ¬(S.outer_refs (.node (.other (.logicalGbAgg popAgg)) pexprs)).isEmpty) :
    S.Simulates n (.node (.other (.logicalGbAgg popAgg)) pexprs)
      (Query.pexprRemoveSuperfluousOuterRefs S.cols
        (.node (.other (.logicalGbAgg popAgg)) pexprs) next).1 := by
  have hpop : ∀ c ∈ popAgg.pdrgpcr, c.id < n := hnames _ .refl
  have hmoved : ∀ popAgg', (∀ c ∈ S.outer_refs (.node (.other (.logicalGbAgg popAgg'))
        (Query.removeSuperfluousOuterRefsEach S.cols pexprs next).1),
        c ∈ S.outer_refs (.node (.other (.logicalGbAgg popAgg)) pexprs)) →
      (Query.FEchoes (S.outer_refs (.node (.other (.logicalGbAgg popAgg)) pexprs)) pexprs popAgg =
        true → popAgg.pdrgpcr = []) →
      ∀ c', Query.pcrOuter S.cols (.node (.other (.logicalGbAgg popAgg'))
        (Query.removeSuperfluousOuterRefsEach S.cols pexprs next).1) = some c' →
      Query.movedFrom S.cols (.node (.other (.logicalGbAgg popAgg)) pexprs) = some c' ∧
        c'.id < n := by
    intro popAgg' hnarrows hechoes c' hc'
    obtain ⟨hfrom, pexpr, hmem, hfirst⟩ :=
      S.movedFrom_of_pcrOuter (h next hnext) hechoes hnarrows hc'
    obtain ⟨l, hs⟩ := subexpression_of_firstProjected hfirst
    exact ⟨hfrom, hnames _ (.child hmem hs) c' (List.mem_singleton_self _)⟩
  by_cases hechoes : Query.FEchoes (S.outer_refs (.node (.other (.logicalGbAgg popAgg)) pexprs))
      pexprs popAgg = true
  · by_cases hne : popAgg.pdrgpcr = []
    · -- nothing to echo
      have hnew : Query.popNew S.cols
          (S.outer_refs (.node (.other (.logicalGbAgg popAgg)) pexprs)) pexprs next
          (.other (.logicalGbAgg popAgg)) = (.other (.logicalGbAgg { popAgg with
            pdrgpcr := [], pdrgpcrMinimal := none, pdrgpcrArgDQA := none }), []) := by
        rw [Query.popNew, if_pos hechoes, hne]
        rfl
      rw [S.pass_node ((if_neg hempty).trans hnew)]
      exact S.simulates_changed (h next hnext) (S.groupingOp_gbAgg_congr hne.symm _)
        (fun c hc => by cases hc)
        (fun ds ds' hds _ => S.narrows_gbAgg hds (fun c hc _ => by rw [hne] at hc; exact hc)
          fun c hc => by cases hc)
        (hmoved _ (S.outer_of_narrows (S.narrows_gbAgg (S.narrows_children (h next hnext))
          (fun c hc _ => by rw [hne] at hc; exact hc) fun c hc => by cases hc)) fun _ => hne)
    · obtain ⟨hlist, hall⟩ := Bool.and_eq_true_iff.1 hechoes
      obtain ⟨child, rfl⟩ : ∃ child, pexprs = [child, .node .scalarProjectList []] := by
        unfold Query.FProjListEmpty at hlist
        split at hlist
        · exact ⟨_, rfl⟩
        · cases hlist
      have hs := h (next + ((Query.PdrgpcrCreate popAgg.pdrgpcr next).zip popAgg.pdrgpcr).length)
        (hnext.trans (Nat.le_add_right _ _))
      rcases hs with _ | ⟨hs, -⟩
      rw [Query.pexprRemoveSuperfluousOuterRefs]
      simp only [if_neg hempty, Query.popNew, if_pos hechoes]
      exact S.simulates_echo hnext hs hne hpop (by simpa using hall) rfl
  · have hechoes := Bool.eq_false_iff.2 hechoes
    rw [S.pass_node ((if_neg hempty).trans (if_neg (by rw [hechoes]; exact Bool.false_ne_true)))]
    have hnarrows : ∀ ds ds', List.Forall₂ DerivedColumns.Narrows ds ds' →
        ds = pexprs.map (Query.columns (GroupingOp.columns S.cols)) →
        ((GroupingOp.logicalGbAgg popAgg).columns S.cols ds).Narrows
          ((GroupingOp.logicalGbAgg { popAgg with
            pdrgpcr := PdrgpcrExcludeColumns popAgg.pdrgpcr
              (S.outer_refs (.node (.other (.logicalGbAgg popAgg)) pexprs))
            pdrgpcrMinimal := popAgg.pdrgpcrMinimal.map (PdrgpcrExcludeColumns ·
              (S.outer_refs (.node (.other (.logicalGbAgg popAgg)) pexprs))) }).columns S.cols
            ds') := by
      rintro ds ds' hds rfl
      refine S.narrows_gbAgg hds (fun c hc hout => ?_) fun c hc => (List.mem_filter.1 hc).1
      refine List.mem_filter.2 ⟨hc, decide_eq_true fun hmem => ?_⟩
      rw [S.outer_refs_node] at hmem
      exact of_decide_eq_true (List.mem_filter.1 hmem).2 hout
    exact S.simulates_changed (h next hnext)
      (S.op_gbAgg_excludeColumns popAgg pexprs harmless hechoes _ rfl)
      (fun c hc => hpop c (List.mem_filter.1 hc).1) hnarrows
      (hmoved _ (S.outer_of_narrows (hnarrows _ _ (S.narrows_children (h next hnext)) rfl))
        fun htrue => by rw [hechoes] at htrue; cases htrue)

/-- **One node**, from what the pass makes of its children. -/
theorem simulates_node {next : ℕ} (hnext : n ≤ next) (pop : QueryOp D (GroupingOp K W Op))
    (hnames : ∀ s, CExpression.SubexpressionOf s (.node pop pexprs) →
      ∀ c ∈ s.Pop.mentions (GroupingOp.mentions S.cols S.mentions), c.id < n)
    (harmless : S.HarmlessAt (.node pop pexprs))
    (h : ∀ next ≥ n, List.Forall₂ (S.Simulates n) pexprs
      (Query.removeSuperfluousOuterRefsEach S.cols pexprs next).1) :
    S.Simulates n (.node pop pexprs)
      (Query.pexprRemoveSuperfluousOuterRefs S.cols (.node pop pexprs) next).1 := by
  have hpop := hnames _ .refl
  have hchildren := h next hnext
  by_cases hempty : (S.outer_refs (.node pop pexprs)).isEmpty
  · rw [S.pass_node (if_pos hempty)]
    refine S.simulates_unchanged hchildren hnames harmless fun popAgg hagg hechoes => ?_
    have hnil : S.outer_refs (.node pop pexprs) = [] := by simpa using hempty
    rw [hnil, Query.FEchoes, Bool.and_eq_true] at hechoes
    simpa [PdrgpcrExcludeColumns] using hechoes.2
  · have hsame : ∀ pop' : QueryOp D (GroupingOp K W Op),
        Query.popNew S.cols (S.outer_refs (.node pop pexprs)) pexprs next pop = (pop', []) →
        (Query.pexprRemoveSuperfluousOuterRefs S.cols (.node pop pexprs) next).1 =
          .node (Query.adjustAll S.cols
              (Query.removeSuperfluousOuterRefsEach S.cols pexprs next).1 pop')
            (Query.removeSuperfluousOuterRefsEach S.cols pexprs next).1 := fun pop' hnew =>
      S.pass_node ((if_neg hempty).trans hnew)
    cases pop with
    | other pop =>
      cases pop with
      | logicalLimit popLimit =>
        rw [hsame _ rfl]
        have hsub : ∀ c ∈ (popLimit.pos.PosExcludeColumns
            (S.outer_refs (.node (.other (.logicalLimit popLimit)) pexprs))).PcrsUsed,
            c ∈ popLimit.pos.PcrsUsed := fun c hc =>
          List.map_subset _ (List.filter_subset_self _) hc
        exact S.simulates_changed hchildren (S.op_limit_posExcludeColumns popLimit pexprs _ rfl)
          (fun c hc => hpop c (hsub c hc)) (fun ds ds' h _ => S.narrows_limit h hsub)
          fun _ hc' => by cases hc'
      | logicalGbAgg popAgg => exact S.simulates_node_gbAgg hnext popAgg hnames harmless h hempty
      | logicalSequenceProject pop =>
        have hsub : ∀ c ∈ (pop.PopRemoveLocalOuterRefs
            (S.outer_refs (.node (.other (.logicalSequenceProject pop)) pexprs))).pcrsLocalUsed
              S.cols, c ∈ pop.pcrsLocalUsed S.cols := fun _ hc => S.pcrsLocalUsed_subset hc
        by_cases hlocal : (pop.pcrsLocalUsed S.cols).any
            (· ∈ S.outer_refs (.node (.other (.logicalSequenceProject pop)) pexprs))
        · rw [hsame _ (if_pos hlocal)]
          exact S.simulates_changed hchildren
            (S.op_sequenceProject_removeLocalOuterRefs pop pexprs harmless)
            (fun c hc => hpop c (hsub c hc)) (fun ds ds' h _ => S.narrows_sequenceProject h hsub)
            fun _ hc' => by cases hc'
        · rw [hsame _ (if_neg hlocal)]
          exact S.simulates_same hchildren hpop fun _ => rfl
      | other pop =>
        rw [hsame _ rfl]
        exact S.simulates_same hchildren hpop fun _ => rfl
    | _ =>
      rw [hsame _ rfl]
      exact S.simulates_unchanged hchildren hnames harmless fun _ h => by cases h

omit [LinearOrder D] in
theorem le_next_each {l : List (Query D (GroupingOp K W Op))}
    (h : ∀ pexpr ∈ l, ∀ next, next ≤ (Query.pexprRemoveSuperfluousOuterRefs S.cols pexpr next).2)
    (next : ℕ) : next ≤ (Query.removeSuperfluousOuterRefsEach S.cols l next).2 := by
  induction l generalizing next with
  | nil => exact le_rfl
  | cons pexpr l ih =>
    exact (h pexpr (by simp) next).trans (ih (fun e he => h e (by simp [he])) _)

omit [LinearOrder D] in
/-- Ids of new columns only grow. -/
theorem le_next (pexpr : Query D (GroupingOp K W Op)) (next : ℕ) :
    next ≤ (Query.pexprRemoveSuperfluousOuterRefs S.cols pexpr next).2 := by
  induction pexpr using CExpression.induction generalizing next with
  | node pop l ih =>
    rw [Query.pexprRemoveSuperfluousOuterRefs]
    exact (Nat.le_add_right _ _).trans (S.le_next_each ih _)

omit [LinearOrder D] in
theorem forall₂_each {R : Query D (GroupingOp K W Op) → Query D (GroupingOp K W Op) → Prop}
    {l : List (Query D (GroupingOp K W Op))}
    (h : ∀ pexpr ∈ l, ∀ next ≥ n, R pexpr
      (Query.pexprRemoveSuperfluousOuterRefs S.cols pexpr next).1) {next : ℕ} (hnext : n ≤ next) :
    List.Forall₂ R l (Query.removeSuperfluousOuterRefsEach S.cols l next).1 := by
  induction l generalizing next with
  | nil => exact .nil
  | cons pexpr l ih =>
    exact .cons (h pexpr (by simp) next hnext)
      (ih (fun e he => h e (by simp [he])) (hnext.trans (S.le_next pexpr next)))

/-- **What the pass makes of a query simulates it**, where every operator is harmless. -/
theorem simulates_pexprRemoveSuperfluousOuterRefs (pexpr : Query D (GroupingOp K W Op))
    (hnames : ∀ s, CExpression.SubexpressionOf s pexpr →
      ∀ c ∈ s.Pop.mentions (GroupingOp.mentions S.cols S.mentions), c.id < n)
    (harmless : ∀ s, CExpression.SubexpressionOf s pexpr → S.HarmlessAt s) {next : ℕ}
    (hnext : n ≤ next) :
    S.Simulates n pexpr (Query.pexprRemoveSuperfluousOuterRefs S.cols pexpr next).1 := by
  induction pexpr using CExpression.induction generalizing next with
  | node pop l ih =>
    refine S.simulates_node hnext pop hnames (harmless _ .refl) fun next hnext =>
      S.forall₂_each (fun pexpr hmem next hnext => ?_) hnext
    exact ih pexpr hmem (fun s hs => hnames s (.child hmem hs))
      (fun s hs => harmless s (.child hmem hs)) hnext

end Run

/-! ## Results -/

/-- Numbers, and one more operator: the number of rows of a group. -/
def countRows : ColumnarSemantics ℕ Empty Unit Unit where
  truth v := v.map (· == 1)
  ofTruth t := t.map fun b => if b then 1 else 0
  truth_ofTruth := by exact Query.selections.truth_ofTruth
  cmp _ v w := Option.map₂ (· == ·) v w
  other _ _ env := .value (some (env.group.contexts.map fun context => context.rows.length).sum)
  before _ _ v w := decide (v < w)
  before_irrefl _ _ v := by simp
  key k := k.elim
  number v := v.map Int.ofNat
  FBoundedRange _ := false
  cols :=
    { PcrsUsedByKey := fun k => k.elim, PcrsUsedByFrame := fun _ => []
      derive := fun _ children => DerivedColumns.scalar [] [] children }
  mentions _ := []
  key_used k := k.elim
  blind n pop fs fs' _ _ env env' henv := by
    have hgroup := congrArg (fun env => (env.group.contexts.map fun context =>
      context.rows.length).sum) henv.below
    simp only [Env.below, RowGroup.below, WindowContext.below, List.map_map, Function.comp_def,
      List.length_map] at hgroup
    dsimp only
    rw [hgroup]
  carries pop ds fs _ := ColumnSemantics.carries_of_none (fun _ => rfl) fun _ => rfl
  narrows pop ds ds' h := .scalar h (fun _ => id) []

/-- `select count(*) from s group by t.y`, for a table with one column. -/
def countByOuter (data : List (List (Datum ℕ))) : Query ℕ (GroupingOp Empty Unit Unit) :=
  .node (.other (.logicalGbAgg ⟨[Query.colY], none, .gbaggGlobal, false, none⟩))
    [.node (.logicalConstTableGet [Query.colX] data) [],
      .node .scalarProjectList
        [.node (.scalarProjectElement Query.colC) [.node (.other (.other ())) []]]]

theorem subexpressionOf_countByOuter {data : List (List (Datum ℕ))}
    {s : Query ℕ (GroupingOp Empty Unit Unit)}
    (hs : CExpression.SubexpressionOf s (countByOuter data)) :
    s = countByOuter data ∨ s = .node (.logicalConstTableGet [Query.colX] data) [] ∨
      s = .node .scalarProjectList
        [.node (.scalarProjectElement Query.colC) [.node (.other (.other ())) []]] ∨
      s = .node (.scalarProjectElement Query.colC) [.node (.other (.other ())) []] ∨
      s = .node (.other (.other ())) [] := by
  simpa [countByOuter, CExpression.subexpressionOf_node_iff, or_assoc] using hs

theorem mentions_countByOuter (data : List (List (Datum ℕ)))
    (s : Query ℕ (GroupingOp Empty Unit Unit))
    (hs : CExpression.SubexpressionOf s (countByOuter data)) :
    ∀ c ∈ s.Pop.mentions (GroupingOp.mentions countRows.cols countRows.mentions), c.id < 4 := by
  have hnames : (∀ c ∈ [Query.colY], c.id < 4) ∧ (∀ c ∈ [Query.colX], c.id < 4) ∧
      ∀ c ∈ [Query.colC], c.id < 4 := by decide
  rcases subexpressionOf_countByOuter hs with rfl | rfl | rfl | rfl | rfl
  · exact hnames.1
  · exact hnames.2.1
  · exact List.forall_mem_nil _
  · exact hnames.2.2
  · exact List.forall_mem_nil _

end ColumnarSemantics

end BossOptimizer

import BossOptimizer.Xforms.GroupedRows
import BossOptimizer.Xforms.SharedCtes

/-!
# Aggregates on different distinct arguments

`CXformUtils::PexprGbAggOnCTEConsumer2Join` computes the aggregates of one distinct argument at a
time, each over its own consumer of a common table expression, and joins the results where the
grouping columns are not distinct. All aggregates are over the same rows under different columns,
so that they have the same groups, and the join pairs the rows of a group.
-/

namespace BossOptimizer

variable {D : Type}

deriving instance DecidableEq for XformOperand

/-! ## Project elements by argument -/

namespace CXformUtils

section

variable [DecidableEq D]

/-- The key of a project element in the map: the argument of a distinct aggregate with one
    argument. -/
def pexprKey (pexprTrue : XformOperand D) (pexprPrjEl : AggCall D) : XformOperand D :=
  match pexprPrjEl.fDistinct, pexprPrjEl.args with
  | true, [pexprArg] => pexprArg
  | _, _ => pexprTrue

/-- `ExprToExprArrayMap`: project elements by key. -/
abbrev PrjElemsMap (D : Type) : Type := List (XformOperand D × List (AggCall D))

/-- A project element is appended to the array of its key, which is inserted at its first
    occurrence. -/
def appendPrjEl (key : XformOperand D) (pexprPrjEl : AggCall D) : PrjElemsMap D → PrjElemsMap D
  | [] => [(key, [pexprPrjEl])]
  | entry :: phmexprdrgpexpr =>
    if entry.1 = key then (entry.1, entry.2 ++ [pexprPrjEl]) :: phmexprdrgpexpr
    else entry :: appendPrjEl key pexprPrjEl phmexprdrgpexpr

/-- `MapPrjElemsWithDistinctAggs` (CXformUtils.cpp:4342). -/
def MapPrjElemsWithDistinctAggs (pexprTrue : XformOperand D) (pexprPrjList : List (AggCall D)) :
    PrjElemsMap D :=
  pexprPrjList.foldl (fun phmexprdrgpexpr pexprPrjEl =>
    appendPrjEl (pexprKey pexprTrue pexprPrjEl) pexprPrjEl phmexprdrgpexpr) []

/-- The id of the column of the first project element. -/
def firstId (pdrgpexprPrjElems : List (AggCall D)) : ℕ :=
  (pdrgpexprPrjElems.head?.map (·.pcr.id)).getD 0

/-- `PdrgpdrgpexprSortedPrjElemsArray` (CXformUtils.cpp:4476): the order does not depend on that of
    the map. -/
def PdrgpdrgpexprSortedPrjElemsArray (phmexprdrgpexpr : PrjElemsMap D) : List (List (AggCall D)) :=
  (phmexprdrgpexpr.map (·.2)).insertionSort fun els els' => firstId els ≤ firstId els'

variable {pexprTrue : XformOperand D} {phmexprdrgpexpr : PrjElemsMap D} {pexprPrjEl : AggCall D}

theorem appendPrjEl_perm (key : XformOperand D) :
    ((appendPrjEl key pexprPrjEl phmexprdrgpexpr).flatMap (·.2)).Perm
      (phmexprdrgpexpr.flatMap (·.2) ++ [pexprPrjEl]) := by
  induction phmexprdrgpexpr with
  | nil => exact List.Perm.refl _
  | cons entry phmexprdrgpexpr ih =>
    rw [appendPrjEl, List.flatMap_cons]
    split
    · rw [List.flatMap_cons, List.append_assoc, List.append_assoc]
      exact List.Perm.append_left _ List.perm_append_comm
    · rw [List.flatMap_cons, List.append_assoc]
      exact ih.append_left _

/-- **Every project element is in one array**. -/
theorem sortedPrjElems_perm (pexprPrjList : List (AggCall D)) :
    (PdrgpdrgpexprSortedPrjElemsArray
      (MapPrjElemsWithDistinctAggs pexprTrue pexprPrjList)).flatten.Perm pexprPrjList := by
  have hmap : ∀ (els : List (AggCall D)) (phm : PrjElemsMap D),
      ((els.foldl (fun phm el => appendPrjEl (pexprKey pexprTrue el) el phm) phm).flatMap
        (·.2)).Perm (phm.flatMap (·.2) ++ els) := by
    intro els
    induction els with
    | nil => simp
    | cons el els ih =>
      intro phm
      rw [List.foldl_cons]
      refine (ih _).trans (((appendPrjEl_perm _).append_right els).trans ?_)
      rw [List.append_assoc]
      exact List.Perm.refl _
  refine (List.Perm.flatten (List.perm_insertionSort _ _)).trans ?_
  rw [← List.flatMap_def]
  exact hmap pexprPrjList []

end

/-! ## The join -/

/-- `CPredicateUtils::PexprINDFConjunction` (CPredicateUtils.cpp:984). -/
def PexprINDFConjunction (pdrgpcrFirst pdrgpcrSecond : List CColRef) : XformScalar D :=
  .PexprConjunction (List.zipWith .PexprINDF pdrgpcrFirst pdrgpcrSecond)

/-- The condition of a join. -/
def joinCondition (pdrgpcrLastGrpCols pdrgpcrNewGrpCols : List CColRef) : XformScalar D :=
  if pdrgpcrLastGrpCols = [] then .const (some true)
  else PexprINDFConjunction pdrgpcrLastGrpCols pdrgpcrNewGrpCols

/-- A project element over other columns; it keeps its own column. -/
def remapPrjEl (colref_mapping : ColRefMapping) (pexprPrjEl : AggCall D) : AggCall D :=
  { pexprPrjEl with args := pexprPrjEl.args.map (XformOperand.remap (PcrRemap colref_mapping)) }

theorem remapPrjEl_nil (pexprPrjEl : AggCall D) : remapPrjEl [] pexprPrjEl = pexprPrjEl := by
  have hself : XformOperand.remap (D := D) (PcrRemap []) = id := by
    funext arg
    cases arg with
    | other id used => exact congrArg (XformOperand.other id) (List.map_id used)
    | _ => rfl
  rw [remapPrjEl, hself, List.map_id]

/-- The aggregate of an array of project elements over a new consumer. -/
def newGbAgg (ulCTEId : ℕ) (pdrgpcrConsumerOutput pdrgpcrGrpCols pdrgpcrNewConsumerOutput :
    List CColRef) (pdrgpexprPrjElems : List (AggCall D)) : XformExpr D :=
  let colref_mapping := pdrgpcrConsumerOutput.zip pdrgpcrNewConsumerOutput
  .gbAgg (PdrgpcrRemap colref_mapping pdrgpcrGrpCols) none
    (.cteConsumer ulCTEId pdrgpcrNewConsumerOutput)
    (pdrgpexprPrjElems.map (remapPrjEl colref_mapping))

/-- The loop of `PexprGbAggOnCTEConsumer2Join` after the first array. -/
def joinGbAggs (ulCTEId : ℕ) (pdrgpcrConsumerOutput pdrgpcrGrpCols : List CColRef) :
    ℕ → XformExpr D → List CColRef → List (List (AggCall D)) → XformExpr D
  | _, pexprJoin, _, [] => pexprJoin
  | m_aul, pexprJoin, pdrgpcrLastGrpCols, pdrgpexprPrjElems :: rest =>
    let pdrgpcrNewConsumerOutput := PdrgpcrCopy m_aul pdrgpcrConsumerOutput
    let pdrgpcrNewGrpCols :=
      PdrgpcrRemap (pdrgpcrConsumerOutput.zip pdrgpcrNewConsumerOutput) pdrgpcrGrpCols
    joinGbAggs ulCTEId pdrgpcrConsumerOutput pdrgpcrGrpCols (m_aul + pdrgpcrConsumerOutput.length)
      (.join .inner pexprJoin
        (newGbAgg ulCTEId pdrgpcrConsumerOutput pdrgpcrGrpCols pdrgpcrNewConsumerOutput
          pdrgpexprPrjElems)
        (joinCondition pdrgpcrLastGrpCols pdrgpcrNewGrpCols)) pdrgpcrNewGrpCols rest

/-- `PexprGbAggOnCTEConsumer2Join` (CXformUtils.cpp:4521). -/
def PexprGbAggOnCTEConsumer2Join [DecidableEq D] (pexprTrue : XformOperand D) (m_aul : ℕ) :
    XformExpr D → Option (XformExpr D)
  | .gbAgg pdrgpcrGrpCols pdrgpcrMinimal (.cteConsumer ulCTEId pdrgpcrConsumerOutput)
      pexprPrjList =>
    let pexprGbAgg := .gbAgg pdrgpcrGrpCols pdrgpcrMinimal
      (.cteConsumer ulCTEId pdrgpcrConsumerOutput) pexprPrjList
    let phmexprdrgpexpr := MapPrjElemsWithDistinctAggs pexprTrue pexprPrjList
    if (pexprPrjList.countP fun call => call.fDistinct) = 1 then some pexprGbAgg
    else if phmexprdrgpexpr.length = 1 then some pexprGbAgg
    else
      match PdrgpdrgpexprSortedPrjElemsArray phmexprdrgpexpr with
      | [] => none
      | pdrgpexprPrjElems :: rest => some (joinGbAggs ulCTEId pdrgpcrConsumerOutput pdrgpcrGrpCols
        m_aul (.gbAgg pdrgpcrGrpCols none (.cteConsumer ulCTEId pdrgpcrConsumerOutput)
          pdrgpexprPrjElems) pdrgpcrGrpCols rest)
  | _ => none

end CXformUtils

/-- The project elements of the aggregates of an expression. -/
def XformExpr.prjElems : XformExpr D → List (AggCall D)
  | .leaf _ | .cteConsumer _ _ => []
  | .select child _ | .project child _ | .limit child _ _ | .sequenceProject child _ _
  | .cteAnchor _ child => child.prjElems
  | .gbAgg _ _ child pexprPrL => child.prjElems ++ pexprPrL
  | .join _ left right _ | .setOp _ _ _ _ left right => left.prjElems ++ right.prjElems

/-! ## Consumers of the same rows -/

attribute [local simp] XformExpr.prjElems in
theorem pcrRemap_of_notMem {l : ColRefMapping} {c : CColRef} (h : c ∉ l.map (·.1)) :
    PcrRemap l c = c := by
  induction l with
  | nil => rfl
  | cons p l ih =>
    rw [List.map_cons, List.mem_cons, not_or] at h
    rw [pcrRemap_cons, if_neg h.1, ih h.2]

section

variable [LinearOrder D] {ex : Engine D} {ctes : ℕ → List (List (Datum D))} {env : Row D} {id : ℕ}
  {cols cols' : List CColRef}

/-- Two consumers have the same rows, each under its own columns. -/
theorem rows_cteConsumer_copy (hnd : cols.Nodup) (hnd' : cols'.Nodup)
    (hlen : cols.length = cols'.length) :
    (XformExpr.cteConsumer id cols').rows ex ctes env =
      ((XformExpr.cteConsumer id cols).rows ex ctes env).map (consumerRow cols cols' env) := by
  rw [XformExpr.rows, XformExpr.rows, List.map_map]
  refine List.map_congr_left fun vals _ => ?_
  funext c
  rw [Function.comp_apply, consumerRow]
  by_cases hc : c ∈ cols'
  · obtain ⟨i, hi, rfl⟩ := List.mem_iff_getElem.1 hc
    have hi' : i < cols.length := hlen ▸ hi
    rw [assign_getElem hnd' hi, assign_getElem hnd' hi,
      List.getD_eq_getElem (cols.map _) _ (by simpa using hi'), List.getElem_map,
      assign_getElem hnd hi']
  · rw [assign_of_notMem hc, assign_of_notMem hc]

/-- What a copy reads under the new columns. -/
theorem consumerRow_pcrRemap (hnd : cols.Nodup) (hnd' : cols'.Nodup)
    (hlen : cols.length = cols'.length) {row : Row D}
    (hrow : row ∈ (XformExpr.cteConsumer id cols).rows ex ctes env) {c : CColRef}
    (hc : c ∉ cols') : consumerRow cols cols' env row (PcrRemap (cols.zip cols') c) = row c := by
  by_cases hmem : c ∈ cols
  · exact apply_pcrRemap_zip hnd hlen (map_consumerRow hnd' hlen) c hmem
  · rw [pcrRemap_of_notMem (by rwa [List.map_fst_zip hlen.le]), consumerRow, assign_of_notMem hc,
      XformExpr.rows_of_notMem hrow hmem]

omit [LinearOrder D] in
theorem map_pdrgpcrRemap (hnd : cols.Nodup) (hnd' : cols'.Nodup)
    (hlen : cols.length = cols'.length) {grpCols : List CColRef} (hgrp : ∀ c ∈ grpCols, c ∈ cols)
    (row : Row D) : (PdrgpcrRemap (cols.zip cols') grpCols).map (consumerRow cols cols' env row) =
      grpCols.map row := by
  rw [PdrgpcrRemap, List.map_map]
  exact List.map_congr_left fun c hc =>
    apply_pcrRemap_zip hnd hlen (map_consumerRow hnd' hlen) c (hgrp c hc)

end

namespace CXformUtils

/-- What the optimizer keeps up: the grouping columns and the arguments are of the consumer or
    outer references, each aggregate has a column of its own, and all columns are older than new
    ones. -/
structure OverConsumer (m_aul : ℕ) (outerRefs cols grpCols : List CColRef)
    (aggs : List (AggCall D)) : Prop where
  nodup_cols : cols.Nodup
  grpCols_mem : ∀ c ∈ grpCols, c ∈ cols
  args_mem : ∀ agg ∈ aggs, ∀ arg ∈ agg.args, ∀ c ∈ arg.usedColumns, c ∈ cols ++ outerRefs
  nodup_pcr : (aggs.map (·.pcr)).Nodup
  pcr_notMem : ∀ agg ∈ aggs, agg.pcr ∉ cols
  lt : ∀ c ∈ cols ++ outerRefs ++ aggs.map (·.pcr), c.id < m_aul

section

variable [LinearOrder D] {ex : Engine D} {ctes : ℕ → List (List (Datum D))} {env : Row D} {id : ℕ}
  {m_aul : ℕ} {outerRefs cols cols' grpCols : List CColRef} {els : List (AggCall D)}

/-- A remapped aggregate over a copy. -/
theorem eval_remapPrjEl (hnd : cols.Nodup) (hnd' : cols'.Nodup) (hlen : cols.length = cols'.length)
    {rows : List (Row D)} (hrows : rows ⊆ (XformExpr.cteConsumer id cols).rows ex ctes env)
    {el : AggCall D} (hargs : ∀ arg ∈ el.args, ∀ c ∈ arg.usedColumns, c ∉ cols') :
    (remapPrjEl (cols.zip cols') el).eval ex (rows.map (consumerRow cols cols' env)) =
      el.eval ex rows := by
  have hvals : (rows.map (consumerRow cols cols' env)).map (fun row =>
      (remapPrjEl (cols.zip cols') el).args.map (XformOperand.eval ex.scalars row)) =
      rows.map fun row => el.args.map (XformOperand.eval ex.scalars row) := by
    rw [List.map_map]
    refine List.map_congr_left fun row hrow => ?_
    rw [Function.comp_apply, remapPrjEl, List.map_map]
    refine List.map_congr_left fun arg harg => ?_
    rw [Function.comp_apply, XformOperand.eval_remap]
    exact XformOperand.eval_congr fun c hc =>
      consumerRow_pcrRemap hnd hnd' hlen (hrows hrow) (hargs arg harg c hc)
  rw [AggCall.eval, AggCall.eval, hvals]
  rfl

/-- The rows of a branch: one for each group of the first consumer, under other columns. -/
theorem rows_newGbAgg (hnd : cols.Nodup) (hnd' : cols'.Nodup) (hlen : cols.length = cols'.length)
    (hgrp : ∀ c ∈ grpCols, c ∈ cols) :
    (newGbAgg id cols grpCols cols' els).rows ex ctes env =
      (leaders env grpCols ((XformExpr.cteConsumer id cols).rows ex ctes env)).map fun l =>
        groupRow ex env (PdrgpcrRemap (cols.zip cols') grpCols)
          (els.map (remapPrjEl (cols.zip cols')))
          ((XformExpr.cteConsumer id cols').rows ex ctes env) (consumerRow cols cols' env l) := by
  set grpCols' := PdrgpcrRemap (cols.zip cols') grpCols with hgrp'
  rw [newGbAgg, XformExpr.rows, groupRows_eq]
  rcases eq_or_ne grpCols [] with hnil | hne
  · have hnil' : grpCols' = [] := by simp [hgrp', hnil, PdrgpcrRemap]
    rw [← hgrp', hnil', hnil]
    simp only [leaders, if_true, List.map_singleton]
    refine congrArg (fun row => [row]) ?_
    rw [groupRow, groupRow, sameOn_nil, sameOn_nil]
    refine congrArg _ (funext fun c => ?_)
    rw [merge_of_notMem (by simp), merge_of_notMem (by simp)]
  · have hne' : grpCols' ≠ [] := by simpa [hgrp', PdrgpcrRemap] using hne
    have hdedup : dedupOn grpCols' ((XformExpr.cteConsumer id cols').rows ex ctes env) =
        (dedupOn grpCols ((XformExpr.cteConsumer id cols).rows ex ctes env)).map
          (consumerRow cols cols' env) := by
      rw [rows_cteConsumer_copy hnd hnd' hlen, dedupOn, List.pwFilter_map, dedupOn]
      refine congrArg _ (Groups.pwFilter_congr fun b _ b' _ => ?_)
      simp only [sameOn_eq_map, hgrp', map_pdrgpcrRemap hnd hnd' hlen hgrp]
    rw [leaders, leaders, if_neg hne, if_neg hne', hdedup, List.map_map]
    rfl

/-- A group keeps its values under the other columns. -/
theorem rows_newGbAgg_apply (hnd : cols.Nodup) (hnd' : cols'.Nodup)
    (hlen : cols.length = cols'.length) (hgrp : ∀ c ∈ grpCols, c ∈ cols)
    (hpcr : (els.map (·.pcr)).Nodup) (hnew : ∀ el ∈ els, el.pcr ∉ cols')
    (hargs : ∀ el ∈ els, ∀ arg ∈ el.args, ∀ c ∈ arg.usedColumns, c ∉ cols') (l : Row D) :
    let g := groupRow ex env (PdrgpcrRemap (cols.zip cols') grpCols)
      (els.map (remapPrjEl (cols.zip cols')))
      ((XformExpr.cteConsumer id cols').rows ex ctes env) (consumerRow cols cols' env l)
    (PdrgpcrRemap (cols.zip cols') grpCols).map g = grpCols.map l ∧ ∀ el ∈ els,
      g el.pcr = el.eval ex
        (((XformExpr.cteConsumer id cols).rows ex ctes env).filter (sameOn grpCols l)) := by
  intro g
  have hpcrs : (els.map (remapPrjEl (cols.zip cols'))).map (·.pcr) = els.map (·.pcr) := by
    rw [List.map_map]
    rfl
  constructor
  · have hold : (PdrgpcrRemap (cols.zip cols') grpCols).map (consumerRow cols cols' env l) =
        grpCols.map l := map_pdrgpcrRemap hnd hnd' hlen hgrp l
    refine Eq.trans (List.map_congr_left fun c hc => ?_) hold
    obtain ⟨c₀, hc₀, rfl⟩ := List.mem_map.1 hc
    have hmem := pcrRemap_zip_mem hnd hlen (hgrp c₀ hc₀)
    refine (groupRow_of_notMem ?_).trans (merge_of_mem hc)
    rw [hpcrs]
    intro hel
    obtain ⟨el, hel, heq⟩ := List.mem_map.1 hel
    exact hnew el hel (heq ▸ hmem)
  · intro el hel
    have hval : g (remapPrjEl (cols.zip cols') el).pcr = _ :=
      groupRow_pcr (hpcrs ▸ hpcr) (List.mem_map_of_mem hel)
    refine hval.trans ?_
    have hfilter : ((XformExpr.cteConsumer id cols').rows ex ctes env).filter
        (sameOn (PdrgpcrRemap (cols.zip cols') grpCols) (consumerRow cols cols' env l)) =
        (((XformExpr.cteConsumer id cols).rows ex ctes env).filter (sameOn grpCols l)).map
          (consumerRow cols cols' env) := by
      rw [rows_cteConsumer_copy hnd hnd' hlen, List.filter_map]
      refine congrArg _ (List.filter_congr fun row _ => ?_)
      simp only [Function.comp_apply, sameOn_eq_map, map_pdrgpcrRemap hnd hnd' hlen hgrp]
    rw [hfilter]
    exact eval_remapPrjEl hnd hnd' hlen (List.filter_subset_self _) (hargs el hel)

variable (ex ctes env id outerRefs cols grpCols) in
/-- The join of the aggregates of some project elements: it has one row for each group of the first
    consumer, which has the key of the group, under the columns of the last consumer, too, and the
    values of the project elements. -/
structure JoinsGroups (m_aul : ℕ) (pexprJoin : XformExpr D) (last : List CColRef)
    (els : List (AggCall D)) : Prop where
  wellScoped : pexprJoin.WellScoped outerRefs
  output : grpCols ++ last ++ els.map (·.pcr) ⊆ pexprJoin.outputColumns
  prjElems : List.Forall₂ (fun el el' => ∃ colref_mapping, el' = remapPrjEl colref_mapping el) els
    pexprJoin.prjElems
  length_last : last.length = grpCols.length
  lt : ∀ c ∈ last, c.id < m_aul
  rows : ∃ f : Row D → Row D,
    pexprJoin.rows ex ctes env =
      (leaders env grpCols ((XformExpr.cteConsumer id cols).rows ex ctes env)).map f ∧
    ∀ l : Row D, grpCols.map (f l) = grpCols.map l ∧ last.map (f l) = grpCols.map l ∧
      ∀ el ∈ els, f l el.pcr = el.eval ex
        (((XformExpr.cteConsumer id cols).rows ex ctes env).filter (sameOn grpCols l))

omit [LinearOrder D] in
theorem length_pdrgpcrRemap (l : ColRefMapping) (pcrs : List CColRef) :
    (PdrgpcrRemap l pcrs).length = pcrs.length := List.length_map _

/-- The condition of a join compares the keys. -/
theorem isTrue_joinCondition {S : ScalarFunctions D} {row : Row D} {last new : List CColRef}
    (hlen : last.length = new.length) :
    (joinCondition last new).isTrue S row = true ↔ last.map row = new.map row := by
  unfold joinCondition
  split
  · next hnil =>
    have hnew : new = [] := List.eq_nil_of_length_eq_zero (by simpa [hnil] using hlen.symm)
    simp [hnil, hnew, XformScalar.isTrue, XformScalar.eval]
  · exact XformScalar.isTrue_pexprConjINDFCond hlen

omit [LinearOrder D] in
theorem usedColumns_joinCondition {last new : List CColRef} {c : CColRef}
    (hc : c ∈ (joinCondition last new : XformScalar D).usedColumns) : c ∈ last ++ new := by
  unfold joinCondition at hc
  split at hc
  · cases hc
  · exact XformScalar.usedColumns_pexprConjINDFCond hc

/-- Different groups have different keys. -/
theorem nodup_leaders (rows : List (Row D)) :
    ((leaders env grpCols rows).map fun l => grpCols.map l).Nodup := by
  unfold leaders
  split
  · exact List.nodup_singleton _
  · rw [dedupOn_eq_representatives]
    exact Groups.nodup_map_representatives _ rows

/-- **A new aggregate joins its values to each group**. -/
theorem JoinsGroups.join {els' : List (AggCall D)} {pexprJoin : XformExpr D} {last : List CColRef}
    (hover : OverConsumer m_aul outerRefs cols grpCols (els ++ els'))
    (hlast : ∀ el ∈ els', el.pcr ∉ last)
    (h : JoinsGroups ex ctes env id outerRefs cols grpCols m_aul pexprJoin last els) :
    let cols' := PdrgpcrCopy m_aul cols
    let grpCols' := PdrgpcrRemap (cols.zip cols') grpCols
    JoinsGroups ex ctes env id outerRefs cols grpCols (m_aul + cols.length)
      (.join .inner pexprJoin (newGbAgg id cols grpCols cols' els') (joinCondition last grpCols'))
      grpCols' (els ++ els') := by
  intro cols' grpCols'
  obtain ⟨f, hrows, hf⟩ := h.rows
  have hlen : cols.length = cols'.length := length_pdrgpcrCopy.symm
  have hnd : ((els ++ els').map (·.pcr)).Nodup := hover.nodup_pcr
  have hdisjoint : ∀ el ∈ els, el.pcr ∉ els'.map (·.pcr) := by
    intro el hel hel'
    rw [List.map_append, List.nodup_append'] at hnd
    exact hnd.2.2 (List.mem_map_of_mem hel) hel'
  have hnd' : (els'.map (·.pcr)).Nodup := (List.nodup_append'.1 (List.map_append ▸ hnd)).2.1
  -- old columns are not those of the new consumer
  have hnew : ∀ c, c.id < m_aul → c ∉ cols' := fun c hc hmem =>
    absurd (mem_pdrgpcrCopy hmem).1 (by omega)
  have hgrpCols' : ∀ c ∈ grpCols', c ∈ cols' := by
    intro c hc
    obtain ⟨c₀, hc₀, rfl⟩ := List.mem_map.1 hc
    exact pcrRemap_zip_mem hover.nodup_cols hlen (hover.grpCols_mem c₀ hc₀)
  have hltPcr : ∀ el ∈ els ++ els', el.pcr.id < m_aul := fun el hel =>
    hover.lt _ (List.mem_append_right _ (List.mem_map_of_mem hel))
  have hltCols : ∀ c ∈ cols ++ outerRefs, c.id < m_aul := fun c hc =>
    hover.lt c (List.mem_append_left _ hc)
  have hinner : (newGbAgg id cols grpCols cols' els').outputColumns =
      grpCols' ++ els'.map (·.pcr) := by
    rw [newGbAgg, XformExpr.outputColumns, List.map_map]
    rfl
  -- what the joined row of two rows reads
  have hleft : ∀ {c}, c.id < m_aul → c ∉ els'.map (·.pcr) → ∀ row row' : Row D,
      merge (grpCols' ++ els'.map (·.pcr)) row row' c = row c := by
    intro c hlt hpcr row row'
    refine merge_of_notMem fun hmem => ?_
    rcases List.mem_append.1 hmem with hc | hc
    · exact hnew c hlt (hgrpCols' c hc)
    · exact hpcr hc
  have hlastLeft : ∀ row row' : Row D,
      last.map (merge (grpCols' ++ els'.map (·.pcr)) row row') = last.map row := by
    intro row row'
    refine List.map_congr_left fun c hc => hleft (h.lt c hc) (fun hpcr => ?_) row row'
    obtain ⟨el, hel, rfl⟩ := List.mem_map.1 hpcr
    exact hlast el hel hc
  have hright : ∀ row row' : Row D,
      grpCols'.map (merge (grpCols' ++ els'.map (·.pcr)) row row') = grpCols'.map row' := fun row row' =>
    List.map_congr_left fun c hc => merge_of_mem (List.mem_append_left _ hc)
  have hg := @rows_newGbAgg_apply _ _ ex ctes env id _ _ _ _ hover.nodup_cols
    nodup_pdrgpcrCopy hlen hover.grpCols_mem hnd'
    (fun el hel => hnew _ (hltPcr el (List.mem_append_right _ hel)))
    (fun el hel arg harg c hc => hnew c (hltCols c
      (hover.args_mem el (List.mem_append_right _ hel) arg harg c hc)))
  constructor
  case wellScoped =>
    refine ⟨h.wellScoped, ⟨trivial, fun c hc => ?_⟩, fun c hc => ?_⟩
    · rcases List.mem_append.1 hc with hc | hc
      · exact List.mem_append_left _ (hgrpCols' c hc)
      · obtain ⟨call, hcall, hc⟩ := List.mem_flatMap.1 hc
        obtain ⟨el, hel, rfl⟩ := List.mem_map.1 hcall
        obtain ⟨arg, harg, hc⟩ := List.mem_flatMap.1 hc
        obtain ⟨arg₀, harg₀, rfl⟩ := List.mem_map.1 harg
        rw [XformOperand.usedColumns_remap] at hc
        obtain ⟨c₀, hc₀, rfl⟩ := List.mem_map.1 hc
        have hmem := hover.args_mem el (List.mem_append_right _ hel) arg₀ harg₀ c₀ hc₀
        by_cases hcols : c₀ ∈ cols
        · exact List.mem_append_left _ (pcrRemap_zip_mem hover.nodup_cols hlen hcols)
        · rw [pcrRemap_of_notMem (by rwa [List.map_fst_zip hlen.le])]
          exact List.mem_append_right _ ((List.mem_append.1 hmem).resolve_left hcols)
    · rw [hinner]
      rcases List.mem_append.1 (usedColumns_joinCondition hc) with hc | hc
      · exact List.mem_append_left _ (List.mem_append_left _
          (h.output (List.mem_append_left _ (List.mem_append_right _ hc))))
      · exact List.mem_append_left _ (List.mem_append_right _ (List.mem_append_left _ hc))
  case output =>
    intro c hc
    have hcols : (XformExpr.join .inner pexprJoin (newGbAgg id cols grpCols cols' els')
        (joinCondition last grpCols')).outputColumns =
        pexprJoin.outputColumns ++ (grpCols' ++ els'.map (·.pcr)) := hinner ▸ rfl
    rw [hcols]
    simp only [List.mem_append, List.map_append] at hc ⊢
    have hjoin := @h.output c
    simp only [List.mem_append] at hjoin
    tauto
  case prjElems =>
    refine List.rel_append h.prjElems (List.forall₂_map_right_iff.2 ?_)
    exact List.forall₂_same.2 fun el _ => ⟨_, rfl⟩
  case length_last => exact length_pdrgpcrRemap _ _
  case lt => exact fun c hc => (mem_pdrgpcrCopy (hgrpCols' c hc)).2
  case rows =>
    refine ⟨fun l => merge (grpCols' ++ els'.map (·.pcr)) (f l)
      (groupRow ex env grpCols' (els'.map (remapPrjEl (cols.zip cols')))
        ((XformExpr.cteConsumer id cols').rows ex ctes env) (consumerRow cols cols' env l)),
      ?_, fun l => ⟨?_, ?_, fun el hel => ?_⟩⟩
    · rw [XformExpr.rows, hrows, hinner, rows_newGbAgg hover.nodup_cols nodup_pdrgpcrCopy hlen
        hover.grpCols_mem]
      refine Joins.inner_map_map (nodup_leaders _) fun a _ b _ => ?_
      rw [Bool.eq_iff_iff, isTrue_joinCondition
        (h.length_last.trans (length_pdrgpcrRemap _ _).symm), decide_eq_true_eq, hlastLeft, hright,
        (hf a).2.1, (hg b).1]
    · refine Eq.trans (List.map_congr_left fun c hc => ?_) (hf l).1
      have hcols := hover.grpCols_mem c hc
      refine hleft (hltCols c (List.mem_append_left _ hcols)) (fun hpcr => ?_) _ _
      obtain ⟨el, hel, rfl⟩ := List.mem_map.1 hpcr
      exact hover.pcr_notMem el (List.mem_append_right _ hel) hcols
    · exact (hright _ _).trans (hg l).1
    · rcases List.mem_append.1 hel with hel | hel
      · exact (hleft (hltPcr el (List.mem_append_left _ hel)) (hdisjoint el hel) _ _).trans
          ((hf l).2.2 el hel)
      · exact (merge_of_mem (List.mem_append_right _ (List.mem_map_of_mem hel))).trans
          ((hg l).2 el hel)

theorem OverConsumer.mono {aggs aggs' : List (AggCall D)} {m_aul' : ℕ}
    (h : OverConsumer m_aul outerRefs cols grpCols aggs) (hsub : aggs' ⊆ aggs)
    (hnd : (aggs'.map (·.pcr)).Nodup) (hle : m_aul ≤ m_aul') :
    OverConsumer m_aul' outerRefs cols grpCols aggs' where
  nodup_cols := h.nodup_cols
  grpCols_mem := h.grpCols_mem
  args_mem agg hagg := h.args_mem agg (hsub hagg)
  nodup_pcr := hnd
  pcr_notMem agg hagg := h.pcr_notMem agg (hsub hagg)
  lt c hc := by
    refine lt_of_lt_of_le (h.lt c ?_) hle
    rw [List.mem_append] at hc ⊢
    exact hc.imp_right fun hpcr => List.map_subset _ hsub hpcr

/-- The loop joins all arrays. -/
theorem joinsGroups_joinGbAggs {rest : List (List (AggCall D))} {pexprJoin : XformExpr D}
    {last : List CColRef}
    (hover : OverConsumer m_aul outerRefs cols grpCols (els ++ rest.flatten))
    (hlast : ∀ el ∈ rest.flatten, el.pcr ∉ last)
    (h : JoinsGroups ex ctes env id outerRefs cols grpCols m_aul pexprJoin last els) :
    ∃ m_aul' last', JoinsGroups ex ctes env id outerRefs cols grpCols m_aul'
      (joinGbAggs id cols grpCols m_aul pexprJoin last rest) last' (els ++ rest.flatten) := by
  induction rest generalizing m_aul pexprJoin last els with
  | nil =>
    rw [List.flatten_nil, List.append_nil]
    exact ⟨m_aul, last, h⟩
  | cons els' rest ih =>
    rw [List.flatten_cons] at hover hlast ⊢
    rw [List.forall_mem_append] at hlast
    rw [← List.append_assoc] at hover ⊢
    have hstep : OverConsumer m_aul outerRefs cols grpCols (els ++ els') :=
      hover.mono (List.subset_append_left _ _) (List.map_append ▸ hover.nodup_pcr).of_append_left
        le_rfl
    refine ih (hover.mono (List.Subset.refl _) hover.nodup_pcr (Nat.le_add_right _ _)) (fun el hel hmem => ?_)
      (h.join hstep hlast.1)
    obtain ⟨c, hc, heq⟩ := List.mem_map.1 hmem
    have hcopy : el.pcr ∈ PdrgpcrCopy m_aul cols := heq ▸ pcrRemap_zip_mem hover.nodup_cols
      length_pdrgpcrCopy.symm (hover.grpCols_mem c hc)
    have hold := hover.lt el.pcr (List.mem_append_right _
      (List.mem_map_of_mem (List.mem_append_right _ hel)))
    exact absurd (mem_pdrgpcrCopy hcopy).1 (Nat.not_le.2 hold)

/-- The first aggregate has a row for each group. -/
theorem joinsGroups_gbAgg {pdrgpcrMinimal : Option (List CColRef)}
    (hover : OverConsumer m_aul outerRefs cols grpCols els) :
    JoinsGroups ex ctes env id outerRefs cols grpCols m_aul
      (.gbAgg grpCols pdrgpcrMinimal (.cteConsumer id cols) els) grpCols els := by
  constructor
  case wellScoped =>
    refine ⟨trivial, fun c hc => ?_⟩
    rcases List.mem_append.1 hc with hc | hc
    · exact List.mem_append_left _ (hover.grpCols_mem c hc)
    · obtain ⟨el, hel, hc⟩ := List.mem_flatMap.1 hc
      obtain ⟨arg, harg, hc⟩ := List.mem_flatMap.1 hc
      exact hover.args_mem el hel arg harg c hc
  case output =>
    intro c hc
    simpa [XformExpr.outputColumns] using hc
  case prjElems => exact List.forall₂_same.2 fun el _ => ⟨[], (remapPrjEl_nil el).symm⟩
  case length_last => rfl
  case lt =>
    exact fun c hc => hover.lt c (List.mem_append_left _ (List.mem_append_left _
      (hover.grpCols_mem c hc)))
  case rows =>
    have hkey : ∀ l : Row D, grpCols.map (groupRow ex env grpCols els
        ((XformExpr.cteConsumer id cols).rows ex ctes env) l) = grpCols.map l := by
      refine fun l => List.map_congr_left fun c hc => ?_
      refine (groupRow_of_notMem fun hpcr => ?_).trans (merge_of_mem hc)
      obtain ⟨el, hel, rfl⟩ := List.mem_map.1 hpcr
      exact hover.pcr_notMem el hel (hover.grpCols_mem _ hc)
    refine ⟨groupRow ex env grpCols els ((XformExpr.cteConsumer id cols).rows ex ctes env), ?_,
      fun l => ⟨hkey l, hkey l, fun el hel => groupRow_pcr hover.nodup_pcr hel⟩⟩
    rw [XformExpr.rows, groupRows_eq]

/-- Two such joins of the same project elements have the same rows. -/
theorem JoinsGroups.sameRows {m_aul' : ℕ} {els' : List (AggCall D)} {pexprJoin pexprJoin' : XformExpr D}
    {last last' : List CColRef}
    (h : JoinsGroups ex ctes env id outerRefs cols grpCols m_aul pexprJoin last els)
    (h' : JoinsGroups ex ctes env id outerRefs cols grpCols m_aul' pexprJoin' last' els')
    (hperm : els.Perm els') :
    SameRows (grpCols ++ els'.map (·.pcr)) (pexprJoin.rows ex ctes env)
      (pexprJoin'.rows ex ctes env) := by
  obtain ⟨f, hrows, hf⟩ := h.rows
  obtain ⟨f', hrows', hf'⟩ := h'.rows
  rw [hrows, hrows', SameRows, tuplesOn, tuplesOn, List.map_map, List.map_map]
  refine List.Perm.of_eq (List.map_congr_left fun l _ => ?_)
  rw [Function.comp_apply, Function.comp_apply, List.map_append, List.map_append, (hf l).1,
    (hf' l).1, List.map_map, List.map_map]
  refine congrArg _ (List.map_congr_left fun el hel => ?_)
  exact ((hf l).2.2 el (hperm.mem_iff.2 hel)).trans ((hf' l).2.2 el hel).symm

/-- **Joining the aggregates of the distinct arguments** keeps the rows of the aggregate, and each
    project element is in one of them. -/
theorem PexprGbAggOnCTEConsumer2Join_rewrites (pexprTrue : XformOperand D)
    (pdrgpcrMinimal : Option (List CColRef)) {aggs : List (AggCall D)} (haggs : aggs ≠ [])
    (hover : OverConsumer m_aul outerRefs cols grpCols aggs) :
    ∃ pexprNew, PexprGbAggOnCTEConsumer2Join pexprTrue m_aul
      (.gbAgg grpCols pdrgpcrMinimal (.cteConsumer id cols) aggs) = some pexprNew ∧
    (XformExpr.gbAgg grpCols pdrgpcrMinimal (.cteConsumer id cols) aggs).Rewrites ex ctes env
      outerRefs pexprNew ∧
    ∃ els : List (AggCall D), els.Perm aggs ∧
      List.Forall₂ (fun el el' => ∃ colref_mapping, el' = remapPrjEl colref_mapping el) els
        pexprNew.prjElems := by
  have horig : JoinsGroups ex ctes env id outerRefs cols grpCols m_aul
      (.gbAgg grpCols pdrgpcrMinimal (.cteConsumer id cols) aggs) grpCols aggs :=
    joinsGroups_gbAgg hover
  suffices hjoin : ∃ pexprNew m_aul' last' els, PexprGbAggOnCTEConsumer2Join pexprTrue m_aul
      (.gbAgg grpCols pdrgpcrMinimal (.cteConsumer id cols) aggs) = some pexprNew ∧
      els.Perm aggs ∧ JoinsGroups ex ctes env id outerRefs cols grpCols m_aul' pexprNew last' els by
    obtain ⟨pexprNew, m_aul', last', els, hnew, hperm, hjoin⟩ := hjoin
    refine ⟨pexprNew, hnew, ⟨hjoin.wellScoped, fun c hc => hjoin.output ?_,
      hjoin.sameRows horig hperm⟩, els, hperm, hjoin.prjElems⟩
    rcases List.mem_append.1 hc with hc | hc
    · exact List.mem_append_left _ (List.mem_append_left _ hc)
    · exact List.mem_append_right _ ((hperm.map _).mem_iff.2 hc)
  rw [PexprGbAggOnCTEConsumer2Join]
  split
  · exact ⟨_, m_aul, grpCols, aggs, rfl, List.Perm.refl _, horig⟩
  split
  · exact ⟨_, m_aul, grpCols, aggs, rfl, List.Perm.refl _, horig⟩
  have hflatten := @sortedPrjElems_perm _ _ pexprTrue aggs
  split
  · next hsorted =>
    rw [hsorted] at hflatten
    exact absurd hflatten.symm.eq_nil haggs
  · next els rest hsorted =>
    rw [hsorted, List.flatten_cons] at hflatten
    have hall : OverConsumer m_aul outerRefs cols grpCols (els ++ rest.flatten) :=
      hover.mono hflatten.subset ((hflatten.map _).nodup_iff.2 hover.nodup_pcr) le_rfl
    have hfirst : JoinsGroups ex ctes env id outerRefs cols grpCols m_aul
        (.gbAgg grpCols none (.cteConsumer id cols) els) grpCols els :=
      joinsGroups_gbAgg (hall.mono (List.subset_append_left _ _)
        (List.map_append ▸ hall.nodup_pcr).of_append_left le_rfl)
    obtain ⟨m_aul', last', hjoin⟩ := joinsGroups_joinGbAggs hall
      (fun el hel hmem => hall.pcr_notMem el (List.mem_append_right _ hel)
        (hover.grpCols_mem _ hmem)) hfirst
    exact ⟨_, m_aul', last', _, rfl, hflatten, hjoin⟩

end

/-- A column of the table `t(a, b, c)`. -/
def tabcol (id : ℕ) : CColRef := ⟨id, true, true, true⟩

/-- `count(DISTINCT b)` and `count(DISTINCT c)`. -/
def distinctCounts : List (AggCall ℕ) :=
  [⟨tabcol 4, 0, .global, false, true, [.ident (tabcol 2)]⟩,
    ⟨tabcol 5, 0, .global, false, true, [.ident (tabcol 3)]⟩]

theorem PexprGbAggOnCTEConsumer2Join_rewrites_distinctCounts :
    ∃ pexprNew, PexprGbAggOnCTEConsumer2Join (.const (1 : ℕ)) 6
      (.gbAgg [tabcol 1] none (.cteConsumer 0 [tabcol 1, tabcol 2, tabcol 3]) distinctCounts) =
        some pexprNew ∧
    (XformExpr.gbAgg [tabcol 1] none (.cteConsumer 0 [tabcol 1, tabcol 2, tabcol 3])
      distinctCounts).Rewrites (Engine.inOrder fun _ => .count)
      (fun _ => [[⊥, (7 : ℕ), (8 : ℕ)], [⊥, (7 : ℕ), ⊥]]) (fun _ => ⊥) [] pexprNew ∧
    ∃ els : List (AggCall ℕ), els.Perm distinctCounts ∧
      List.Forall₂ (fun el el' => ∃ colref_mapping, el' = remapPrjEl colref_mapping el) els
        pexprNew.prjElems :=
  PexprGbAggOnCTEConsumer2Join_rewrites (.const (1 : ℕ)) none (by simp [distinctCounts])
    ⟨by decide, by decide, by decide, by decide, by decide, by decide⟩

end CXformUtils

end BossOptimizer

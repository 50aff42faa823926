import BossOptimizer.Lib.Groups
import BossOptimizer.Operators.FreshColumns

/-!
# Outer references of limits, aggregates and window operators

All rows below an operator have the values of the outer row in its outer references. Leaving them
out of an order, of grouping columns beside others and of a partition changes nothing; leaving out
all grouping columns makes one group of no rows.
-/

namespace BossOptimizer

/-! ## Leaving columns out -/

/-- `COrderSpec::PosExcludeColumns` (COrderSpec.cpp:314). -/
def OrderSpec.PosExcludeColumns (pos : OrderSpec) (pcrs : List CColRef) : OrderSpec :=
  pos.filter (·.pcr ∉ pcrs)

/-- `CUtils::PdrgpcrExcludeColumns` (CUtils.cpp:2608). -/
def PdrgpcrExcludeColumns (pdrgpcrOriginal pcrsExcluded : List CColRef) : List CColRef :=
  pdrgpcrOriginal.filter (· ∉ pcrsExcluded)

/-- An identifier of one of the columns. -/
def PartitionKey.FMember {K : Type} (pcrs : List CColRef) : PartitionKey K → Bool
  | .scalarIdent colref => colref ∈ pcrs
  | .other _ => false

/-- `CDistributionSpecHashed::PdshashedExcludeColumns` (CDistributionSpecHashed.cpp:243), and the
    singleton if nothing is left (CLogicalSequenceProject.cpp:446). -/
def PartitionSpec.excludeColumns {K : Type} (pcrs : List CColRef) : PartitionSpec K → PartitionSpec K
  | .singleton => .singleton
  | .hashed pdrgpexpr fNullsColocated =>
    let pdrgpexprNew := pdrgpexpr.filter (!·.FMember pcrs)
    if pdrgpexprNew = [] then .singleton else .hashed pdrgpexprNew fNullsColocated

/-- `PopRemoveLocalOuterRefs` (CLogicalSequenceProject.cpp:434). The frames stay. -/
def CLogicalSequenceProject.PopRemoveLocalOuterRefs {K W : Type} (outer_refs : List CColRef)
    (pop : CLogicalSequenceProject K W) : CLogicalSequenceProject K W where
  pds := pop.pds.excludeColumns outer_refs
  pdrgpos := pop.pdrgpos.map (·.PosExcludeColumns outer_refs)
  pdrgpwf := pop.pdrgpwf

/-! ## Rows that agree -/

/-- The rows have the values of the outer row in these columns. -/
def Constant {D : Type} (cols : List CColRef) (outer : Row D) (rows : List (Row D)) : Prop :=
  ∀ row ∈ rows, ∀ c ∈ cols, row c = outer c

section

variable {D : Type} {cols : List CColRef} {outer : Row D} {rows : List (Row D)}

theorem Constant.mono {rows' : List (Row D)} (h : Constant cols outer rows) (hsub : rows' ⊆ rows) :
    Constant cols outer rows' := fun row hrow => h row (hsub hrow)

theorem Constant.eq (h : Constant cols outer rows) {row row' : Row D} (hrow : row ∈ rows)
    (hrow' : row' ∈ rows) {c : CColRef} (hc : c ∈ cols) : row c = row' c := by
  rw [h row hrow c hc, h row' hrow' c hc]

end

namespace GroupingSemantics

variable {D K W Op : Type} (S : GroupingSemantics D K W Op) {cols : List CColRef} {outer : Row D}
  {rows : List (Row D)}

theorem precedes_posExcludeColumns (pos : OrderSpec) {row row' : Row D}
    (h : ∀ c ∈ cols, row c = row' c) :
    S.precedes (pos.PosExcludeColumns cols) row row' = S.precedes pos row row' := by
  induction pos with
  | nil => rfl
  | cons poe pos ih =>
    rw [OrderSpec.PosExcludeColumns] at ih ⊢
    by_cases hpoe : poe.pcr ∈ cols
    · rw [List.filter_cons_of_neg (by simpa using hpoe), ih, precedes, h _ hpoe, S.before_irrefl]
      rfl
    · rw [List.filter_cons_of_pos (by simpa using hpoe), precedes, precedes, ih]

theorem sorted_posExcludeColumns (pos : OrderSpec) (h : Constant cols outer rows) :
    S.sorted (pos.PosExcludeColumns cols) rows = S.sorted pos rows := by
  have hsorted := List.map_mergeSort (f := id) (l := rows)
    (r := fun row row' => !S.precedes (pos.PosExcludeColumns cols) row' row)
    (s := fun row row' => !S.precedes pos row' row) fun row hrow row' hrow' => by
      rw [S.precedes_posExcludeColumns pos fun c hc => h.eq hrow' hrow hc, id, id]
  rwa [List.map_id, List.map_id] at hsorted

theorem limitRows_posExcludeColumns (popLimit : CLogicalLimit) (offset count : Option ℤ)
    (h : Constant cols outer rows) :
    S.limitRows { popLimit with pos := popLimit.pos.PosExcludeColumns cols } offset count rows =
      S.limitRows popLimit offset count rows := by
  simp only [limitRows, S.sorted_posExcludeColumns popLimit.pos h]

theorem mem_sorted {pos : OrderSpec} {row : Row D} : row ∈ S.sorted pos rows ↔ row ∈ rows :=
  List.mem_mergeSort

theorem merge_excludeColumns (pdrgpcr : List CColRef) {row : Row D}
    (h : ∀ c ∈ cols, row c = outer c) :
    merge (PdrgpcrExcludeColumns pdrgpcr cols) outer row = merge pdrgpcr outer row := by
  funext c
  by_cases hmem : c ∈ cols <;> by_cases hc : c ∈ pdrgpcr <;>
    simp [merge, PdrgpcrExcludeColumns, hmem, hc, h c]

theorem posExcludeColumns_of_disjoint {pos : OrderSpec} (h : ∀ c ∈ pos.PcrsUsed, c ∉ cols) :
    pos.PosExcludeColumns cols = pos :=
  List.filter_eq_self.2 fun poe hpoe => by simpa using h _ (List.mem_map_of_mem hpoe)

theorem context_posExcludeColumns (fBoundedRange : Bool) (pos : OrderSpec)
    (h : Constant cols outer rows)
    (hrange : fBoundedRange = true → ∀ c ∈ pos.PcrsUsed, c ∉ cols) :
    S.context fBoundedRange rows (pos.PosExcludeColumns cols) = S.context fBoundedRange rows pos := by
  cases fBoundedRange with
  | true => rw [posExcludeColumns_of_disjoint (hrange rfl)]
  | false =>
    rw [context, context, S.sorted_posExcludeColumns pos h, if_neg Bool.false_ne_true,
      if_neg Bool.false_ne_true]
    congr 1
    refine List.map_congr_left fun row hrow => congrArg (Prod.mk row) ?_
    refine List.countP_congr fun row' hrow' => ?_
    rw [S.precedes_posExcludeColumns pos fun c hc => h.eq hrow' (S.mem_sorted.1 hrow) hc]

variable [LinearOrder D]

theorem sameOn_excludeColumns (pdrgpcr : List CColRef) {row row' : Row D}
    (h : ∀ c ∈ cols, row c = row' c) :
    sameOn (PdrgpcrExcludeColumns pdrgpcr cols) row row' = sameOn pdrgpcr row row' := by
  rw [Bool.eq_iff_iff, sameOn_iff, sameOn_iff]
  refine ⟨fun hsame c hc => ?_, fun hsame c hc => hsame c (List.mem_filter.1 hc).1⟩
  by_cases hmem : c ∈ cols
  · exact h c hmem
  · exact hsame c (List.mem_filter.2 ⟨hc, by simpa using hmem⟩)

theorem partition_subset (pds : PartitionSpec K) (rows : List (Row D)) (row : Row D) :
    S.partition pds rows row ⊆ rows := by
  cases pds with
  | singleton => exact fun _ => id
  | hashed => exact List.filter_subset_self _

/-- Rows that agree in the grouping columns make one group. -/
theorem groups_of_agree (outer : Row D) {pdrgpcr : List CColRef} (hne : pdrgpcr ≠ [])
    (h : ∀ row ∈ rows, ∀ row' ∈ rows, sameOn pdrgpcr row row' = true) (hrows : rows ≠ []) :
    ∃ row ∈ rows, groups pdrgpcr outer rows = [(merge pdrgpcr outer row, rows)] := by
  have hsame : ∀ row ∈ rows, ∀ row' ∈ rows, ¬sameOn pdrgpcr row row' = false :=
    fun row hrow row' hrow' => by simpa using h row hrow row' hrow'
  obtain ⟨row, hrow, hfilter⟩ := Groups.pwFilter_eq_singleton hrows hsame
  refine ⟨row, hrow, ?_⟩
  rw [groups, if_neg hne, hfilter, List.map_singleton, List.filter_eq_self.2 (h row hrow)]

theorem groups_of_constant {pdrgpcr : List CColRef} (hne : pdrgpcr ≠ [])
    (h : Constant pdrgpcr outer rows) (hrows : rows ≠ []) :
    groups pdrgpcr outer rows = [(outer, rows)] := by
  obtain ⟨row, hrow, hgroups⟩ := groups_of_agree outer hne
    (fun row hrow row' hrow' => sameOn_iff.2 fun c hc => h.eq hrow hrow' hc) hrows
  have hmerge : merge pdrgpcr outer row = outer := by
    funext c
    by_cases hc : c ∈ pdrgpcr
    · rw [merge_of_mem hc, h row hrow c hc]
    · rw [merge_of_notMem hc]
  rw [hgroups, hmerge]

/-- **Constant columns are superfluous among the grouping columns**, if another column or a row is
left. -/
theorem groups_excludeColumns {pdrgpcr : List CColRef} (h : Constant cols outer rows)
    (hleft : PdrgpcrExcludeColumns pdrgpcr cols = [] → pdrgpcr = [] ∨ rows ≠ []) :
    groups (PdrgpcrExcludeColumns pdrgpcr cols) outer rows = groups pdrgpcr outer rows := by
  by_cases hne : PdrgpcrExcludeColumns pdrgpcr cols = []
  · by_cases hpdrgpcr : pdrgpcr = []
    · rw [hpdrgpcr, PdrgpcrExcludeColumns, List.filter_nil]
    · have hsub : ∀ c ∈ pdrgpcr, c ∈ cols := by simpa [PdrgpcrExcludeColumns] using hne
      rw [hne, groups_of_constant hpdrgpcr (fun row hrow c hc => h row hrow c (hsub c hc))
        ((hleft hne).resolve_left hpdrgpcr), groups, if_pos rfl]
  · have hpdrgpcr : pdrgpcr ≠ [] := by
      rintro rfl
      exact hne rfl
    have hsame : ∀ row ∈ rows, ∀ row' ∈ rows,
        sameOn (PdrgpcrExcludeColumns pdrgpcr cols) row row' = sameOn pdrgpcr row row' :=
      fun row hrow row' hrow' => sameOn_excludeColumns pdrgpcr fun c hc => h.eq hrow hrow' hc
    have hsame' : ∀ row ∈ rows, ∀ row' ∈ rows,
        sameOn (PdrgpcrExcludeColumns pdrgpcr cols) row row' = false ↔
          sameOn pdrgpcr row row' = false :=
      fun row hrow row' hrow' => by rw [hsame row hrow row' hrow']
    rw [groups, if_neg hne, groups, if_neg hpdrgpcr, Groups.pwFilter_congr hsame']
    refine List.map_congr_left fun row hrow => ?_
    have hmem : row ∈ rows := List.pwFilter_subset _ hrow
    rw [merge_excludeColumns pdrgpcr (h row hmem), List.filter_congr (hsame row hmem)]

theorem partition_excludeColumns (pds : PartitionSpec K) (h : Constant cols outer rows)
    {row : Row D} (hrow : row ∈ rows) :
    S.partition (pds.excludeColumns cols) rows row = S.partition pds rows row := by
  cases pds with
  | singleton => rfl
  | hashed pdrgpexpr fNullsColocated =>
    have hall : ∀ row' ∈ rows,
        (pdrgpexpr.all fun key => decide (S.keyValue key row = S.keyValue key row')) =
          (pdrgpexpr.filter (!·.FMember cols)).all fun key =>
            decide (S.keyValue key row = S.keyValue key row') := by
      intro row' hrow'
      rw [List.all_filter]
      refine List.all_congr rfl fun key => ?_
      cases key with
      | scalarIdent colref =>
        by_cases hc : colref ∈ cols
        · simp [PartitionKey.FMember, hc, keyValue, h.eq hrow hrow' hc]
        · simp [PartitionKey.FMember, hc]
      | other key => simp [PartitionKey.FMember]
    rw [PartitionSpec.excludeColumns, partition, List.filter_congr hall]
    split_ifs with hnil
    · rw [hnil]
      simp [partition]
    · rfl

/-- **Constant columns are superfluous in a window operator**, without frames that measure distances
in them. -/
theorem windowed_popRemoveLocalOuterRefs (pop : CLogicalSequenceProject K W)
    (h : Constant cols outer rows)
    (hrange : pop.pdrgpwf.any S.FBoundedRange = true →
      ∀ pos ∈ pop.pdrgpos, ∀ c ∈ pos.PcrsUsed, c ∉ cols)
    {row : Row D} (hrow : row ∈ rows) :
    S.windowed (pop.PopRemoveLocalOuterRefs cols) rows row = S.windowed pop rows row := by
  rw [windowed, windowed, CLogicalSequenceProject.PopRemoveLocalOuterRefs, List.map_map]
  congr 1
  refine List.map_congr_left fun pos hpos => ?_
  rw [Function.comp_apply, S.partition_excludeColumns pop.pds h hrow]
  refine S.context_posExcludeColumns _ pos (h.mono (S.partition_subset pop.pds rows row))
    fun hany => hrange hany pos hpos

end GroupingSemantics

/-! ## Rows below an operator -/

namespace ColumnarSemantics

variable {D K W Op : Type} (S : ColumnarSemantics D K W Op)

open GroupingSemantics

theorem exists_of_mem_projectEach {list : Env D (RowGroup D W) → Result D}
    {envs : List (Env D (RowGroup D W))} {projected : List (Row D)}
    (h : projectEach list envs = some projected) {row : Row D} (hrow : row ∈ projected) :
    ∃ env ∈ envs, ∃ els, (list env).elements? = some els ∧ row ∈ Query.projectRow els env.row := by
  simp only [projectEach, Option.bind_eq_bind, Option.bind_eq_some_iff, Option.some.injEq] at h
  obtain ⟨each, heach, rfl⟩ := h
  obtain ⟨rows, hrows, hrow⟩ := List.mem_flatten.1 hrow
  obtain ⟨env, henv, hlist⟩ := exists_of_forall₂_right (mapM_eq_some_iff.1 heach) hrows
  obtain ⟨els, hels, hrows⟩ := Option.bind_eq_some_iff.1 hlist
  cases hrows
  exact ⟨env, henv, els, hels, hrow⟩

/-- A projected row holds what its environment holds, but for the columns of the project list. -/
theorem eq_of_mem_projectEach {dl : DerivedColumns} {list : Env D (RowGroup D W) → Result D}
    (hlist : Carries dl list) {envs : List (Env D (RowGroup D W))} {projected : List (Row D)}
    (h : projectEach list envs = some projected) {row : Row D} (hrow : row ∈ projected) :
    ∃ env ∈ envs, ∀ c ∉ dl.defined, row c = env.row c := by
  obtain ⟨env, henv, els, hels, hrow⟩ := exists_of_mem_projectEach h hrow
  refine ⟨env, henv, fun c hc => ColumnSemantics.mem_assign_of_projectRow hrow c fun hmem => hc ?_⟩
  obtain ⟨el, hel, rfl⟩ := List.mem_map.1 hmem
  exact hlist.elements env els hels el hel

theorem limitRows_subset {S : GroupingSemantics D K W Op} (popLimit : CLogicalLimit)
    (offset count : Option ℤ) (rows : List (Row D)) :
    S.limitRows popLimit offset count rows ⊆ rows := by
  have hdrop : ∀ k, (S.sorted popLimit.pos rows).drop k ⊆ rows := fun k row hrow =>
    S.mem_sorted.1 (List.drop_subset _ _ hrow)
  cases count with
  | none => exact hdrop _
  | some n =>
    simp only [limitRows]
    split_ifs
    · exact List.Subset.trans (List.take_subset _ _) (hdrop _)
    · exact hdrop _

variable [LinearOrder D]

theorem carries_logicalGbAgg (popAgg : CLogicalGbAgg) {dc dl : DerivedColumns}
    {child list : Env D (RowGroup D W) → Result D} (hchild : Carries dc child)
    (hlist : Carries dl list) :
    Carries ((GroupingOp.logicalGbAgg popAgg : GroupingOp K W Op).columns S.cols [dc, dl])
      (S.groupingOp (.logicalGbAgg popAgg) [child, list]) := by
  refine ⟨fun env rows hrows row hrow c hc => ?_,
    fun env l h => by simp [groupingOp, Option.bind_assoc] at h⟩
  simp only [groupingOp, Result.rows?_ofOption, Option.bind_eq_bind, Option.bind_eq_some_iff,
    Option.some.injEq] at hrows
  obtain ⟨_, ⟨childRows, hchildRows, projected, hprojected, rfl⟩, hrows⟩ := hrows
  cases hrows
  obtain ⟨_, henv, hrow⟩ := eq_of_mem_projectEach hlist hprojected hrow
  obtain ⟨group, hgroup, rfl⟩ := List.mem_map.1 henv
  simp only [GroupingOp.columns, List.drop_succ_cons, List.drop_zero, List.flatMap_cons,
    List.flatMap_nil, List.append_nil, List.mem_append, List.mem_filter, decide_eq_true_eq, not_or,
    not_and] at hc
  rw [hrow c hc.2]
  rw [groups] at hgroup
  split_ifs at hgroup with hnil
  · obtain rfl := List.mem_singleton.1 hgroup
    rfl
  · obtain ⟨childRow, hchildRow, rfl⟩ := List.mem_map.1 hgroup
    by_cases hmem : c ∈ popAgg.pdrgpcr
    · exact (merge_of_mem hmem).trans (hchild.rows env childRows hchildRows childRow
        (List.pwFilter_subset _ hchildRow) c (hc.1 hmem).1)
    · exact merge_of_notMem hmem

theorem carries_logicalSequenceProject (pop : CLogicalSequenceProject K W) {dc dl : DerivedColumns}
    {child list : Env D (RowGroup D W) → Result D} (hchild : Carries dc child)
    (hlist : Carries dl list) :
    Carries ((GroupingOp.logicalSequenceProject pop : GroupingOp K W Op).columns S.cols [dc, dl])
      (S.groupingOp (.logicalSequenceProject pop) [child, list]) := by
  refine ⟨fun env rows hrows row hrow c hc => ?_,
    fun env l h => by simp [groupingOp, Option.bind_assoc] at h⟩
  simp only [groupingOp, Result.rows?_ofOption, Option.bind_eq_bind, Option.bind_eq_some_iff,
    Option.some.injEq] at hrows
  obtain ⟨_, ⟨childRows, hchildRows, projected, hprojected, rfl⟩, hrows⟩ := hrows
  cases hrows
  obtain ⟨_, henv, hrow⟩ := eq_of_mem_projectEach hlist hprojected hrow
  obtain ⟨childRow, hchildRow, rfl⟩ := List.mem_map.1 henv
  simp only [GroupingOp.columns, List.drop_succ_cons, List.drop_zero, List.flatMap_cons,
    List.flatMap_nil, List.append_nil, List.mem_append, not_or] at hc
  rw [hrow c hc.2]
  exact hchild.rows env childRows hchildRows childRow hchildRow c hc.1.1

theorem carries_groupingOp (pop : GroupingOp K W Op) (ds : List DerivedColumns)
    (fs : List (Env D (RowGroup D W) → Result D)) (h : List.Forall₂ Carries ds fs) :
    Carries (pop.columns S.cols ds) (S.groupingOp pop fs) := by
  cases pop with
  | logicalLimit popLimit =>
    rcases h with _ | ⟨hchild, _ | ⟨hoffset, _ | ⟨hcount, _ | _⟩⟩⟩ <;>
      try exact ColumnSemantics.carries_of_none (fun _ => rfl) fun _ => rfl
    refine ⟨fun env rows hrows row hrow c hc => ?_,
      fun env l h => by simp [groupingOp, Option.bind_assoc] at h⟩
    simp only [groupingOp, Result.rows?_ofOption, Option.bind_eq_bind, Option.bind_eq_some_iff,
      Option.some.injEq] at hrows
    obtain ⟨_, ⟨childRows, hchildRows, _, -, _, -, rfl⟩, hrows⟩ := hrows
    cases hrows
    simp only [GroupingOp.columns, List.flatMap_cons, List.mem_append, not_or] at hc
    exact hchild.rows env childRows hchildRows row (limitRows_subset _ _ _ _ hrow) c hc.1
  | logicalGbAgg popAgg =>
    rcases h with _ | ⟨hchild, _ | ⟨hlist, _ | _⟩⟩ <;>
      try exact ColumnSemantics.carries_of_none (fun _ => rfl) fun _ => rfl
    exact S.carries_logicalGbAgg popAgg hchild hlist
  | logicalSequenceProject pop =>
    rcases h with _ | ⟨hchild, _ | ⟨hlist, _ | _⟩⟩ <;>
      try exact ColumnSemantics.carries_of_none (fun _ => rfl) fun _ => rfl
    exact S.carries_logicalSequenceProject pop hchild hlist
  | other pop => exact S.carries pop ds fs h

/-- The operators with their derived columns. -/
def columnSemantics : ColumnSemantics D (RowGroup D W) (GroupingOp K W Op) where
  toQuerySemantics := S.semantics
  derive := GroupingOp.columns S.cols
  carries := S.carries_groupingOp

end ColumnarSemantics

/-! ## Columns after the pass -/

namespace DerivedColumns

variable {ds ds' : List DerivedColumns} (h : List.Forall₂ Narrows ds ds')

include h

theorem Narrows.outputs : ∀ c ∈ ds.flatMap (·.output), c ∈ ds'.flatMap (·.output) := by
  intro c hc
  obtain ⟨d, hd, hc⟩ := List.mem_flatMap.1 hc
  obtain ⟨d', hd', hdd'⟩ := exists_of_forall₂_left h hd
  exact List.mem_flatMap.2 ⟨d', hd', hdd'.output c hc⟩

theorem Narrows.defineds : ∀ c ∈ ds.flatMap (·.defined), c ∈ ds'.flatMap (·.defined) := by
  intro c hc
  obtain ⟨d, hd, hc⟩ := List.mem_flatMap.1 hc
  obtain ⟨d', hd', hdd'⟩ := exists_of_forall₂_left h hd
  exact List.mem_flatMap.2 ⟨d', hd', hdd'.defined c hc⟩

theorem Narrows.usedByChildren : ∀ c ∈ usedByChildren ds', c ∈ usedByChildren ds := by
  intro c hc
  obtain ⟨d', hd', hc⟩ := List.mem_flatMap.1 hc
  obtain ⟨d, hd, hdd'⟩ := exists_of_forall₂_right h hd'
  refine List.mem_flatMap.2 ⟨d, hd, ?_⟩
  rcases List.mem_append.1 hc with hc | hc
  · exact List.mem_append_left _ (hdd'.used c hc)
  · exact List.mem_append_right _ (hdd'.outer c hc)

theorem Narrows.outerReferences {used used' : List CColRef} (hused : ∀ c ∈ used', c ∈ used) :
    ∀ c ∈ outerReferences used' ds', c ∈ outerReferences used ds := by
  intro c hc
  obtain ⟨hc, hnot⟩ := List.mem_filter.1 hc
  refine List.mem_filter.2 ⟨?_, decide_eq_true fun hout =>
    of_decide_eq_true hnot (Narrows.outputs h c hout)⟩
  rcases List.mem_append.1 hc with hc | hc
  · exact List.mem_append_left _ (Narrows.usedByChildren h c hc)
  · exact List.mem_append_right _ (hused c hc)

theorem Narrows.scalar {used used' : List CColRef} (hused : ∀ c ∈ used', c ∈ used)
    (defined : List CColRef) : Narrows (scalar used defined ds) (scalar used' defined ds') where
  output _ hc := hc
  outer _ hc := hc
  used c hc := by
    rcases List.mem_append.1 hc with hc | hc
    · exact List.mem_append_left _ (hused c hc)
    · exact List.mem_append_right _ (Narrows.usedByChildren h c hc)
  defined c hc := by
    rcases List.mem_append.1 hc with hc | hc
    · exact List.mem_append_left _ hc
    · exact List.mem_append_right _ (Narrows.defineds h c hc)

theorem Narrows.subqueryColumn (colref : CColRef) :
    ∀ c ∈ subqueryColumn colref ds', c ∈ subqueryColumn colref ds := by
  intro c hc
  rw [DerivedColumns.subqueryColumn] at hc ⊢
  split_ifs at hc with hout'
  · cases hc
  · rwa [if_neg fun hout => hout' (Narrows.outputs h colref hout)]

end DerivedColumns

open DerivedColumns in
theorem QueryOp.columns_narrows {D Op : Type} {derive : Op → List DerivedColumns → DerivedColumns}
    (hderive : ∀ pop ds ds', List.Forall₂ Narrows ds ds' →
      (derive pop ds).Narrows (derive pop ds'))
    (pop : QueryOp D Op) {ds ds' : List DerivedColumns}
    (h : List.Forall₂ Narrows ds ds') :
    (pop.columns derive ds).Narrows (pop.columns derive ds') := by
  cases pop with
  | scalarSubquery colref _ _ | scalarSubqueryAny _ colref
  | scalarSubqueryAll _ colref => exact .scalar h (Narrows.subqueryColumn h colref) []
  | logicalProject =>
    refine ⟨fun c hc => ?_, Narrows.outerReferences h fun _ => id, fun _ => id, fun _ => id⟩
    rcases List.mem_append.1 hc with hc | hc
    · exact List.mem_append_left _ (Narrows.outputs h c hc)
    · exact List.mem_append_right _ (Narrows.defineds h c hc)
  | logicalConstTableGet => exact ⟨fun _ => id, fun _ => id, fun _ => id, fun _ => id⟩
  | other pop => exact hderive pop ds ds' h
  | _ => exact .scalar h (fun _ => id) _

end BossOptimizer

import BossOptimizer.Xforms.AntiJoinCrossProduct
import BossOptimizer.Xforms.GroupedRows
import BossOptimizer.Xforms.SharedCtes

/-!
# Eager aggregation

`CXformEagerAgg` aggregates the outer child of an inner join before the join: by the columns of the
join predicate and the grouping columns that are of the outer child, into partial states that the
aggregate above the join combines. When none of these columns is of the outer child, the lower
aggregate has no grouping columns, and returns a row even if the outer child returns none.
-/

namespace BossOptimizer

/-- `IMDType::EAggType` (IMDType.h:76). -/
inductive EAggType where
  | min | max | avg | sum | count | generic
  deriving DecidableEq, Repr

variable {D : Type}

namespace CXformEagerAgg

/-- `CanPushAggBelowJoin` (CXformEagerAgg.cpp:157); `GetMdidForAggType` is that of the type of the
    argument. -/
def CanPushAggBelowJoin (GetMdidForAggType : XformOperand D → EAggType → ℕ)
    (scalar_agg_func : AggCall D) : Bool :=
  match scalar_agg_func.args with
  | [agg_child] => !scalar_agg_func.fDistinct &&
    [EAggType.min, .max, .sum, .count, .avg].any fun agg_type =>
      scalar_agg_func.mdidAggFunc == GetMdidForAggType agg_child agg_type
  | _ => false

/-- `CanApplyTransform` (CXformEagerAgg.cpp:205). -/
def CanApplyTransform (GetMdidForAggType : XformOperand D → EAggType → ℕ)
    (join_outer_child : XformExpr D) (agg_proj_list : List (AggCall D)) : Bool :=
  (agg_proj_list.flatMap fun call => call.args.flatMap XformOperand.usedColumns).all
      (· ∈ join_outer_child.outputColumns) &&
    !agg_proj_list.isEmpty && agg_proj_list.all (CanPushAggBelowJoin GetMdidForAggType)

/-- `PopulateLowerProjectElement` (CXformEagerAgg.cpp:301). -/
def PopulateLowerProjectElement (m_aul : ℕ) (agg : AggCall D) : AggCall D :=
  ⟨CColumnFactory.PcrCreate m_aul, agg.mdidAggFunc, .local, true, agg.fDistinct, agg.args⟩

/-- `PopulateUpperProjectElement` (CXformEagerAgg.cpp:338). -/
def PopulateUpperProjectElement (lower_colref : CColRef) (agg : AggCall D) : AggCall D :=
  ⟨agg.pcr, agg.mdidAggFunc, .global, true, agg.fDistinct, [.ident lower_colref]⟩

/-- `PopulateLowerUpperProjectList` (CXformEagerAgg.cpp:245). -/
def PopulateLowerUpperProjectList : ℕ → List (AggCall D) → List (AggCall D) × List (AggCall D)
  | _, [] => ([], [])
  | m_aul, agg :: aggs =>
    let lower := PopulateLowerProjectElement m_aul agg
    let rest := PopulateLowerUpperProjectList (m_aul + 1) aggs
    (lower :: rest.1, PopulateUpperProjectElement lower.pcr agg :: rest.2)

/-- The grouping columns of the lower aggregate. -/
def push_down_gb_cols (join_outer_child : XformExpr D) (join_condition : XformScalar D)
    (grouping_cols : List CColRef) : List CColRef :=
  (join_condition.usedColumns ++ grouping_cols).filter (· ∈ join_outer_child.outputColumns)

/-- `CXformEagerAgg::Transform` (CXformEagerAgg.cpp:73): an aggregate over a join over an
    aggregate. -/
def Transform (GetMdidForAggType : XformOperand D → EAggType → ℕ) (m_aul : ℕ) :
    XformExpr D → Option (XformExpr D)
  | .gbAgg grouping_cols _ (.join .inner join_outer_child join_inner_child join_condition)
      agg_proj_list =>
    if CanApplyTransform GetMdidForAggType join_outer_child agg_proj_list then
      let proj_lists := PopulateLowerUpperProjectList m_aul agg_proj_list
      let lower_agg := .gbAgg
        (Pdrgpcr (push_down_gb_cols join_outer_child join_condition grouping_cols)) none
        join_outer_child proj_lists.1
      some (.gbAgg (Pdrgpcr grouping_cols) none
        (.join .inner lower_agg join_inner_child join_condition) proj_lists.2)
    else none
  | _ => none

/-! ## Partial states -/

/-- The columns of the partial states are new. -/
theorem mem_lower_pcr {m_aul : ℕ} {aggs : List (AggCall D)} {c : CColRef}
    (hc : c ∈ (PopulateLowerUpperProjectList m_aul aggs).1.map (·.pcr)) : m_aul ≤ c.id := by
  induction aggs generalizing m_aul with
  | nil => cases hc
  | cons agg aggs ih =>
    rcases List.mem_cons.1 hc with rfl | hc
    · exact le_rfl
    · exact (Nat.le_succ m_aul).trans (ih hc)

theorem nodup_lower_pcr (m_aul : ℕ) (aggs : List (AggCall D)) :
    ((PopulateLowerUpperProjectList m_aul aggs).1.map (·.pcr)).Nodup := by
  induction aggs generalizing m_aul with
  | nil => exact List.nodup_nil
  | cons agg aggs ih =>
    refine List.nodup_cons.2 ⟨fun hmem => ?_, ih (m_aul + 1)⟩
    exact absurd (mem_lower_pcr hmem) (Nat.not_succ_le_self m_aul)

/-- An aggregate, the partial aggregate below the join and the one above it. -/
structure Split (agg lower upper : AggCall D) : Prop where
  lower_eq : lower = ⟨lower.pcr, agg.mdidAggFunc, .local, true, agg.fDistinct, agg.args⟩
  upper_eq : upper = PopulateUpperProjectElement lower.pcr agg

/-- Every aggregate has its lower and its upper part. -/
theorem forall₂_split (m_aul : ℕ) (aggs : List (AggCall D)) :
    List.Forall₂ (fun agg upper => agg ∈ aggs ∧
      ∃ lower ∈ (PopulateLowerUpperProjectList m_aul aggs).1, Split agg lower upper)
      aggs (PopulateLowerUpperProjectList m_aul aggs).2 := by
  induction aggs generalizing m_aul with
  | nil => exact .nil
  | cons agg aggs ih =>
    refine .cons ⟨List.mem_cons_self, _, List.mem_cons_self, rfl, rfl⟩
      ((ih (m_aul + 1)).imp fun agg upper h => ?_)
    obtain ⟨hagg, lower, hlower, hsplit⟩ := h
    exact ⟨List.mem_cons_of_mem _ hagg, lower, List.mem_cons_of_mem _ hlower, hsplit⟩

section

variable [LinearOrder D] {ex : Engine D} {agg lower upper : AggCall D} {rows : List (Row D)}

/-- The states of an aggregate in one row. -/
def transition (ex : Engine D) (agg : AggCall D) (row : Row D) :
    (ex.aggregate agg.mdidAggFunc).State :=
  (ex.aggregate agg.mdidAggFunc).transition (agg.args.map (XformOperand.eval ex.scalars row))

theorem eval_single (hsplit : agg.fSplit = false) (hstage : agg.eaggfuncstage = .global)
    (hdistinct : agg.fDistinct = false) :
    letI := (ex.aggregate agg.mdidAggFunc).monoid
    agg.eval ex rows =
      (ex.aggregate agg.mdidAggFunc).final ((rows.map (transition ex agg)).sum) := by
  simp only [AggCall.eval, hsplit, hstage, hdistinct, Bool.false_eq_true, false_and, if_false,
    if_true, List.map_map]
  rfl

theorem Split.eval_lower (h : Split agg lower upper) (hdistinct : agg.fDistinct = false) :
    letI := (ex.aggregate agg.mdidAggFunc).monoid
    lower.eval ex rows =
      (ex.aggregate agg.mdidAggFunc).ofState ((rows.map (transition ex agg)).sum) := by
  rw [h.lower_eq]
  simp only [AggCall.eval, hdistinct, ne_eq, not_true_eq_false, and_false, Bool.false_eq_true,
    if_false, reduceCtorEq, List.map_map]
  rfl

theorem Split.eval_upper (h : Split agg lower upper) (hdistinct : agg.fDistinct = false) :
    letI := (ex.aggregate agg.mdidAggFunc).monoid
    upper.eval ex rows = (ex.aggregate agg.mdidAggFunc).final
      ((rows.map fun row => (ex.aggregate agg.mdidAggFunc).toState (row lower.pcr)).sum) := by
  rw [h.upper_eq]
  simp only [AggCall.eval, PopulateUpperProjectElement, hdistinct, ne_eq, reduceCtorEq,
    not_false_eq_true, and_self, Bool.false_eq_true, if_true, if_false, List.map_map]
  rfl

end

/-! ## The join with the groups -/

/-- The columns of the two plans: `pushed` are the grouping columns of the lower aggregate. -/
structure Pushed (outerCols innerCols pushed : List CColRef) (join_condition : XformScalar D)
    (grouping_cols : List CColRef) (lowers : List (AggCall D)) : Prop where
  disjoint : ∀ c ∈ outerCols, c ∉ innerCols
  mem_pushed : ∀ c, c ∈ pushed ↔
    (c ∈ join_condition.usedColumns ∨ c ∈ grouping_cols) ∧ c ∈ outerCols
  new_used : ∀ c, c ∈ join_condition.usedColumns ∨ c ∈ grouping_cols → c ∉ lowers.map (·.pcr)
  new_inner : ∀ c ∈ lowers.map (·.pcr), c ∉ innerCols
  nodup_new : (lowers.map (·.pcr)).Nodup

section

variable [LinearOrder D] {ex : Engine D} {env : Row D} {outerCols innerCols pushed : List CColRef}
  {join_condition : XformScalar D} {grouping_cols : List CColRef} {lowers : List (AggCall D)}
  {rowsOuter rowsInner : List (Row D)}

variable (h : Pushed outerCols innerCols pushed join_condition grouping_cols lowers)

include h

/-- The state of a group. -/
theorem Pushed.groupRow_pcr {lower : AggCall D} (hlower : lower ∈ lowers) (g : Row D) :
    groupRow ex env pushed lowers rowsOuter g lower.pcr =
      lower.eval ex (rowsOuter.filter (sameOn pushed g)) := by
  obtain ⟨i, hi, rfl⟩ := List.mem_iff_getElem.1 hlower
  have hassign := @assign_getElem _ _ h.nodup_new (lowers.map (AggCall.eval ex
    (rowsOuter.filter (sameOn pushed g)))) (merge pushed env g) i (by simpa using hi)
  rw [List.getElem_map] at hassign
  refine hassign.trans ?_
  rw [List.getD_eq_getElem _ _ (by simpa using hi), List.getElem_map]

/-- The row of a group reads what its rows read, on the columns of the predicate and the grouping
    columns. -/
theorem Pushed.merge_groupRow (hout : ∀ o ∈ rowsOuter, ∀ c ∉ outerCols, o c = env c) {o g : Row D}
    (ho : o ∈ rowsOuter) (hsame : sameOn pushed g o = true) (i : Row D) {c : CColRef}
    (hc : c ∈ join_condition.usedColumns ∨ c ∈ grouping_cols) :
    merge innerCols (groupRow ex env pushed lowers rowsOuter g) i c = merge innerCols o i c := by
  by_cases hin : c ∈ innerCols
  · rw [merge_of_mem hin, merge_of_mem hin]
  · rw [merge_of_notMem hin, merge_of_notMem hin, groupRow, assign_of_notMem (h.new_used c hc)]
    by_cases hpushed : c ∈ pushed
    · rw [merge_of_mem hpushed, sameOn_iff.1 hsame c hpushed]
    · rw [merge_of_notMem hpushed, hout o ho c fun hcol => hpushed ((h.mem_pushed c).2 ⟨hc, hcol⟩)]

/-- The row of a group matches what its rows match. -/
theorem Pushed.isTrue_groupRow (hout : ∀ o ∈ rowsOuter, ∀ c ∉ outerCols, o c = env c) {o g : Row D}
    (ho : o ∈ rowsOuter) (hsame : sameOn pushed g o = true) (i : Row D) :
    join_condition.isTrue ex.scalars
        (merge innerCols (groupRow ex env pushed lowers rowsOuter g) i) =
      join_condition.isTrue ex.scalars (merge innerCols o i) :=
  XformScalar.isTrue_congr fun _ hc => h.merge_groupRow hout ho hsame i (.inl hc)

theorem Pushed.map_groupRow (hout : ∀ o ∈ rowsOuter, ∀ c ∉ outerCols, o c = env c) {o g : Row D}
    (ho : o ∈ rowsOuter) (hsame : sameOn pushed g o = true) (i : Row D) :
    grouping_cols.map (merge innerCols (groupRow ex env pushed lowers rowsOuter g) i) =
      grouping_cols.map (merge innerCols o i) :=
  List.map_congr_left fun _ hc => h.merge_groupRow hout ho hsame i (.inr hc)

/-- **The joined states add up** to the states of the joined rows, in each group of the upper
    aggregate. -/
theorem Pushed.sum_states (hout : ∀ o ∈ rowsOuter, ∀ c ∉ outerCols, o c = env c)
    {agg lower upper : AggCall D} (hsplit : Split agg lower upper) (hlower : lower ∈ lowers)
    (hdistinct : agg.fDistinct = false)
    (hargs : ∀ arg ∈ agg.args, ∀ c ∈ arg.usedColumns, c ∈ outerCols) (row : Row D) :
    letI := (ex.aggregate agg.mdidAggFunc).monoid
    ((((Joins.inner (fun l r => join_condition.isTrue ex.scalars (merge innerCols l r))
        (merge innerCols) (groupRows ex env pushed lowers rowsOuter) rowsInner).filter
          (sameOn grouping_cols row)).map fun row =>
            (ex.aggregate agg.mdidAggFunc).toState (row lower.pcr)).sum) =
      (((Joins.inner (fun l r => join_condition.isTrue ex.scalars (merge innerCols l r))
        (merge innerCols) rowsOuter rowsInner).filter
          (sameOn grouping_cols row)).map (transition ex agg)).sum := by
  letI := (ex.aggregate agg.mdidAggFunc).monoid
  have hnew : lower.pcr ∉ innerCols := h.new_inner _ (List.mem_map_of_mem hlower)
  set matched := fun l r : Row D => join_condition.isTrue ex.scalars (merge innerCols l r)
    with hmatched
  have hargument : ∀ o ∈ rowsOuter, ∀ i ∈ rowsInner,
      transition ex agg (merge innerCols o i) = transition ex agg o := by
    intro o _ i _
    refine congrArg (ex.aggregate agg.mdidAggFunc).transition
      (List.map_congr_left fun arg harg => XformOperand.eval_congr fun c hc => ?_)
    exact merge_of_notMem (h.disjoint c (hargs arg harg c hc))
  -- how often the row of a group, or an outer row, is in the group of the upper aggregate
  set times := fun l : Row D => rowsInner.countP fun i =>
    matched l i && sameOn grouping_cols row (merge innerCols l i) with htimes
  have hcount : ∀ o ∈ rowsOuter, ∀ g, sameOn pushed g o = true →
      times (groupRow ex env pushed lowers rowsOuter g) = times o := by
    intro o ho g hsame
    refine List.countP_congr fun i _ => ?_
    rw [hmatched, sameOn_eq_map]
    simp only [h.isTrue_groupRow hout ho hsame i, h.map_groupRow hout ho hsame i]
  have hjoined : ((((Joins.inner matched (merge innerCols) rowsOuter rowsInner).filter
      (sameOn grouping_cols row)).map (transition ex agg)).sum) =
      (rowsOuter.map fun o => times o • transition ex agg o).sum :=
    Joins.sum_filter_inner _ hargument
  have hgroups : ((((Joins.inner matched (merge innerCols) (groupRows ex env pushed lowers rowsOuter)
      rowsInner).filter (sameOn grouping_cols row)).map fun row =>
        (ex.aggregate agg.mdidAggFunc).toState (row lower.pcr)).sum) =
      ((groupRows ex env pushed lowers rowsOuter).map fun l =>
        times l • (ex.aggregate agg.mdidAggFunc).toState (l lower.pcr)).sum :=
    Joins.sum_filter_inner _ fun l _ i _ => congrArg _ (merge_of_notMem hnew)
  have hpartition : ((leaders env pushed rowsOuter).map fun g =>
      ((rowsOuter.filter (sameOn pushed g)).map fun o => times o • transition ex agg o).sum).sum =
      (rowsOuter.map fun o => times o • transition ex agg o).sum := sum_leaders _
  rw [hjoined, hgroups, ← hpartition, groupRows_eq, List.map_map]
  refine congrArg List.sum (List.map_congr_left fun g _ => ?_)
  have hstate : (ex.aggregate agg.mdidAggFunc).toState
      (groupRow ex env pushed lowers rowsOuter g lower.pcr) =
      ((rowsOuter.filter (sameOn pushed g)).map (transition ex agg)).sum := by
    rw [h.groupRow_pcr hlower, hsplit.eval_lower hdistinct,
      (ex.aggregate agg.mdidAggFunc).toState_ofState]
  refine (congrArg (_ • ·) hstate).trans ?_
  refine (map_list_sum (nsmulAddMonoidHom _) _).trans ?_
  rw [List.map_map]
  refine congrArg List.sum (List.map_congr_left fun o ho => ?_)
  obtain ⟨ho, hsame⟩ := List.mem_filter.1 ho
  exact congrArg (· • transition ex agg o) (hcount o ho g hsame)

/-- Without grouping columns the group of the lower aggregate matches an inner row if the predicate
    is true of that. -/
theorem Pushed.isTrue_scalar (rowsOuter : List (Row D)) (hnil : pushed = []) {i : Row D}
    (hin : ∀ c ∉ innerCols, i c = env c) :
    join_condition.isTrue ex.scalars
        (merge innerCols (groupRow ex env pushed lowers rowsOuter env) i) =
      join_condition.isTrue ex.scalars i := by
  refine XformScalar.isTrue_congr fun c hc => ?_
  by_cases hmem : c ∈ innerCols
  · rw [merge_of_mem hmem]
  · rw [merge_of_notMem hmem, groupRow, assign_of_notMem (h.new_used c (.inl hc)), hnil,
      merge_of_notMem (by simp), hin c hmem]

/-- The joined groups have the keys of the joined rows, unless the group without rows is joined. -/
theorem Pushed.exists_joined_iff (hout : ∀ o ∈ rowsOuter, ∀ c ∉ outerCols, o c = env c)
    (hin : ∀ i ∈ rowsInner, ∀ c ∉ innerCols, i c = env c)
    (hscalar : pushed = [] → rowsOuter = [] →
      ∀ i ∈ rowsInner, join_condition.isTrue ex.scalars i = false) (vals : List (Datum D)) :
    (∃ row ∈ Joins.inner (fun l r => join_condition.isTrue ex.scalars (merge innerCols l r))
        (merge innerCols) rowsOuter rowsInner, grouping_cols.map row = vals) ↔
      ∃ row ∈ Joins.inner (fun l r => join_condition.isTrue ex.scalars (merge innerCols l r))
        (merge innerCols) (groupRows ex env pushed lowers rowsOuter) rowsInner,
          grouping_cols.map row = vals := by
  rw [groupRows_eq]
  constructor
  · rintro ⟨_, hrow, rfl⟩
    obtain ⟨o, ho, i, hi, htrue, rfl⟩ := Joins.mem_inner.1 hrow
    obtain ⟨g, hg, hsame⟩ : ∃ g ∈ leaders env pushed rowsOuter, sameOn pushed o g = true :=
      exists_leader ho
    rw [sameOn_comm] at hsame
    refine ⟨_, Joins.mem_inner.2 ⟨_, List.mem_map_of_mem hg, i, hi, ?_, rfl⟩,
      h.map_groupRow hout ho hsame i⟩
    exact (h.isTrue_groupRow hout ho hsame i).trans htrue
  · rintro ⟨_, hrow, rfl⟩
    obtain ⟨_, hgroup, i, hi, htrue, rfl⟩ := Joins.mem_inner.1 hrow
    obtain ⟨g, hg, rfl⟩ := List.mem_map.1 hgroup
    by_cases hempty : pushed = [] ∧ rowsOuter = []
    · have henv : g = env := by simpa [leaders, hempty.1] using hg
      subst henv
      have hfalse := hscalar hempty.1 hempty.2 i hi
      rw [← h.isTrue_scalar rowsOuter hempty.1 (hin i hi)] at hfalse
      exact absurd (htrue.symm.trans hfalse) (by simp)
    · obtain ⟨o, ho, hsame⟩ := exists_of_leader (not_and_or.1 hempty) hg
      rw [sameOn_comm] at hsame
      exact ⟨_, Joins.mem_inner.2 ⟨o, ho, i, hi,
        (h.isTrue_groupRow hout ho hsame i).symm.trans htrue, rfl⟩,
        (h.map_groupRow hout ho hsame i).symm⟩

end

/-! ## The transformation -/

/-- What the optimizer keeps up: the children of a join return different columns, new columns get
    the next ids, and the aggregates have not been split before. -/
structure Scoped (m_aul : ℕ) (join_outer_child join_inner_child : XformExpr D)
    (join_condition : XformScalar D) (grouping_cols : List CColRef)
    (agg_proj_list : List (AggCall D)) : Prop where
  disjoint : ∀ c ∈ join_outer_child.outputColumns, c ∉ join_inner_child.outputColumns
  lt_inner : ∀ c ∈ join_inner_child.outputColumns, c.id < m_aul
  lt_used : ∀ c ∈ join_condition.usedColumns, c.id < m_aul
  lt_grouping : ∀ c ∈ grouping_cols, c.id < m_aul
  single : ∀ agg ∈ agg_proj_list, agg.eaggfuncstage = .global ∧ agg.fSplit = false

variable [LinearOrder D] {ex : Engine D} {ctes : ℕ → List (List (Datum D))} {env : Row D}
  {GetMdidForAggType : XformOperand D → EAggType → ℕ} {m_aul : ℕ}
  {join_outer_child join_inner_child : XformExpr D} {join_condition : XformScalar D}
  {grouping_cols : List CColRef} {pdrgpcrMinimal : Option (List CColRef)}
  {agg_proj_list : List (AggCall D)}

omit [LinearOrder D] in
theorem Scoped.pushed (h : Scoped m_aul join_outer_child join_inner_child join_condition
    grouping_cols agg_proj_list) :
    Pushed join_outer_child.outputColumns join_inner_child.outputColumns
      (Pdrgpcr (push_down_gb_cols join_outer_child join_condition grouping_cols)) join_condition
      grouping_cols (PopulateLowerUpperProjectList m_aul agg_proj_list).1 where
  disjoint := h.disjoint
  mem_pushed c := by simp [push_down_gb_cols, or_and_right]
  new_used c hc hnew := by
    have hge := mem_lower_pcr hnew
    have hlt := hc.elim (h.lt_used c) (h.lt_grouping c)
    omega
  new_inner c hnew hc := by
    have hge := mem_lower_pcr hnew
    have hlt := h.lt_inner c hc
    omega
  nodup_new := nodup_lower_pcr m_aul agg_proj_list

omit [LinearOrder D] in
theorem canApplyTransform_iff : CanApplyTransform GetMdidForAggType join_outer_child agg_proj_list =
    true ↔ (∀ agg ∈ agg_proj_list, ∀ arg ∈ agg.args, ∀ c ∈ arg.usedColumns,
      c ∈ join_outer_child.outputColumns) ∧ agg_proj_list ≠ [] ∧
        ∀ agg ∈ agg_proj_list, CanPushAggBelowJoin GetMdidForAggType agg = true := by
  simp only [CanApplyTransform, Bool.and_eq_true, List.all_eq_true, List.mem_flatMap,
    decide_eq_true_eq, Bool.not_eq_true', List.isEmpty_eq_false_iff, and_assoc]
  refine and_congr_left fun _ => ⟨fun hall agg hagg arg harg c hc => ?_, fun hall c hc => ?_⟩
  · exact hall c ⟨agg, hagg, arg, harg, hc⟩
  · obtain ⟨agg, hagg, arg, harg, hc⟩ := hc
    exact hall agg hagg arg harg c hc

omit [LinearOrder D] in
theorem fDistinct_of_canPush {agg : AggCall D}
    (h : CanPushAggBelowJoin GetMdidForAggType agg = true) : agg.fDistinct = false := by
  unfold CanPushAggBelowJoin at h
  split at h
  · rw [Bool.and_eq_true, Bool.not_eq_true'] at h
    exact h.1
  · cases h

/-- **The two-level aggregate returns the rows of the aggregate over the join** unless no column of
    the predicate or of the grouping columns is of the outer child, there are grouping columns, the
    outer child returns no rows, and the predicate is true of an inner row. -/
theorem eagerAgg_sameRows_iff {agg_expr_new : XformExpr D}
    (hscoped : Scoped m_aul join_outer_child join_inner_child join_condition grouping_cols
      agg_proj_list)
    (h : Transform GetMdidForAggType m_aul (.gbAgg grouping_cols pdrgpcrMinimal
      (.join .inner join_outer_child join_inner_child join_condition) agg_proj_list) =
        some agg_expr_new) :
    SameRows (grouping_cols ++ agg_proj_list.map (·.pcr)) (agg_expr_new.rows ex ctes env)
        ((XformExpr.gbAgg grouping_cols pdrgpcrMinimal
          (.join .inner join_outer_child join_inner_child join_condition) agg_proj_list).rows
            ex ctes env) ↔
      ¬(push_down_gb_cols join_outer_child join_condition grouping_cols = [] ∧
        grouping_cols ≠ [] ∧ join_outer_child.rows ex ctes env = [] ∧
        ∃ i ∈ join_inner_child.rows ex ctes env, join_condition.isTrue ex.scalars i = true) := by
  rw [Transform] at h
  split at h
  swap
  · cases h
  next happly =>
  obtain ⟨hargs, -, hpush⟩ := canApplyTransform_iff.1 happly
  cases h
  have hpushed := hscoped.pushed
  set outerRows := join_outer_child.rows ex ctes env with houterRows
  set innerRows := join_inner_child.rows ex ctes env with hinnerRows
  set lowers := (PopulateLowerUpperProjectList m_aul agg_proj_list).1 with hlowers
  set pushed := Pdrgpcr (push_down_gb_cols join_outer_child join_condition grouping_cols)
    with hpushedCols
  have hout : ∀ o ∈ outerRows, ∀ c ∉ join_outer_child.outputColumns, o c = env c :=
    fun o ho c hc => XformExpr.rows_of_notMem ho hc
  have hin : ∀ i ∈ innerRows, ∀ c ∉ join_inner_child.outputColumns, i c = env c :=
    fun i hi c hc => XformExpr.rows_of_notMem hi hc
  have hnil : push_down_gb_cols join_outer_child join_condition grouping_cols = [] ↔
      pushed = [] := by
    simp only [List.eq_nil_iff_forall_not_mem, hpushedCols, mem_pdrgpcr]
  rw [hnil]
  by_cases hgood : grouping_cols = [] ∨ (pushed = [] → outerRows = [] →
      ∀ i ∈ innerRows, join_condition.isTrue ex.scalars i = false)
  · refine iff_of_true (SameRows.symm (sameRows_groupRows (fun c => mem_pdrgpcr.symm) ?_ ?_)) ?_
    · exact fun hne vals =>
        hpushed.exists_joined_iff hout hin (hgood.resolve_left hne) vals
    · refine (forall₂_split m_aul agg_proj_list).imp fun agg upper hagg => ?_
      obtain ⟨hmem, lower, hlower, hsplit⟩ := hagg
      have hdistinct := fDistinct_of_canPush (hpush agg hmem)
      refine ⟨by rw [hsplit.upper_eq]; rfl, fun row => ?_⟩
      rw [eval_single (hscoped.single agg hmem).2 (hscoped.single agg hmem).1 hdistinct,
        hsplit.eval_upper hdistinct]
      exact congrArg _ (hpushed.sum_states hout hsplit hlower hdistinct (hargs agg hmem) row).symm
    · rintro ⟨hnil, hne, hempty, i, hi, htrue⟩
      rw [hgood.resolve_left hne hnil hempty i hi] at htrue
      cases htrue
  · -- the row of no group joins an inner row
    push_neg at hgood
    obtain ⟨hne, hpnil, hempty, i, hi, htrue⟩ := hgood
    rw [Bool.ne_false_iff] at htrue
    refine iff_of_false (fun hsame => ?_) fun hnot => hnot ⟨hpnil, hne, hempty, i, hi, htrue⟩
    have hnone : (XformExpr.gbAgg grouping_cols pdrgpcrMinimal (.join .inner join_outer_child
        join_inner_child join_condition) agg_proj_list).rows ex ctes env = [] := by
      rw [XformExpr.rows, XformExpr.rows, ← houterRows, hempty, groupRows, if_neg hne]
      rfl
    rw [hnone] at hsame
    have hrow : merge join_inner_child.outputColumns
        (groupRow ex env pushed lowers outerRows env) i ∈
        (XformExpr.join .inner (.gbAgg pushed none join_outer_child lowers) join_inner_child
          join_condition).rows ex ctes env := by
      refine Joins.mem_inner.2 ⟨_, ?_, i, hi, ?_, rfl⟩
      · rw [XformExpr.rows, groupRows_eq]
        exact List.mem_map_of_mem (by simp [leaders, hpnil])
      · exact (hpushed.isTrue_scalar outerRows hpnil (hin i hi)).trans htrue
    obtain ⟨l, hl, -⟩ : ∃ l ∈ leaders env (Pdrgpcr grouping_cols) _, _ := exists_leader hrow
    have hlen := hsame.length_eq
    rw [XformExpr.rows, groupRows_eq, List.length_map, List.length_nil,
      List.length_eq_zero_iff] at hlen
    rw [hlen] at hl
    cases hl

/-! ### Counting -/

def pcrOuter : CColRef := ⟨1, true, true, true⟩

def pcrInner : CColRef := ⟨2, true, true, true⟩

def outerTable (values : List ℕ) : XformExpr ℕ :=
  CXformLeftAntiSemiJoin2CrossProduct.oneColumn pcrOuter values

def innerTable : XformExpr ℕ :=
  .leaf ⟨[pcrInner], [], false, fun _ => [[((5 : ℕ) : Datum ℕ)], [((7 : ℕ) : Datum ℕ)]],
    fun _ _ _ => rfl⟩

/-- `count(outer)`. -/
def countOuter : AggCall ℕ := ⟨⟨3, true, false, true⟩, 4, .global, false, false, [.ident pcrOuter]⟩

/-- The mdids of the aggregates of a type. -/
def aggMdid (_ : XformOperand ℕ) : EAggType → ℕ
  | .min => 0 | .max => 1 | .avg => 2 | .sum => 3 | .count => 4 | .generic => 5

/-- The aggregate over the join of the tables where the columns are equal. -/
def countMatches : XformExpr ℕ :=
  .gbAgg [pcrInner] none (.join .inner (outerTable [5, 5, 6]) innerTable
    (.cmp .eq (.ident pcrOuter) (.ident pcrInner))) [countOuter]

/-- The aggregate over all pairs of a table without rows. -/
def countPairs : XformExpr ℕ :=
  .gbAgg [pcrInner] none (.join .inner (outerTable []) innerTable (.const (some true)))
    [countOuter]

theorem eagerAgg_sameRows_matches :
    ∃ pexprNew, Transform aggMdid 4 countMatches = some pexprNew ∧
      SameRows [pcrInner, ⟨3, true, false, true⟩]
        (pexprNew.rows (Engine.inOrder fun _ => .count) (fun _ => []) fun _ => ⊥)
        (countMatches.rows (Engine.inOrder fun _ => .count) (fun _ => []) fun _ => ⊥) :=
  have hscoped : Scoped 4 (outerTable [5, 5, 6]) innerTable
      (.cmp .eq (.ident pcrOuter) (.ident pcrInner)) [pcrInner] [countOuter] :=
    ⟨by decide, by decide, by decide, by decide, by simp [countOuter]⟩
  have htransform : Transform aggMdid 4 countMatches = some _ := rfl
  ⟨_, htransform, (eagerAgg_sameRows_iff hscoped htransform).2 (by decide)⟩

/-- **Groups of inner rows appear** over a table without rows: the lower aggregate returns a row. -/
theorem eagerAgg_adds_groups :
    ∃ pexprNew, Transform aggMdid 4 countPairs = some pexprNew ∧
      tuplesOn [pcrInner, ⟨3, true, false, true⟩]
          (pexprNew.rows (Engine.inOrder fun _ => .count) (fun _ => []) fun _ => ⊥) =
        [[((5 : ℕ) : Datum ℕ), ((0 : ℕ) : Datum ℕ)], [((7 : ℕ) : Datum ℕ), ((0 : ℕ) : Datum ℕ)]] ∧
      countPairs.rows (Engine.inOrder fun _ => .count) (fun _ => []) (fun _ => ⊥) = [] :=
  ⟨_, rfl, by decide, rfl⟩

end CXformEagerAgg

end BossOptimizer

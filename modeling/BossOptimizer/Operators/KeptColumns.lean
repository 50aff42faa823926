import BossOptimizer.Operators.GroupingExpr

/-!
# Rows that agree on some columns

Rows are compared by keeping the columns that a predicate holds of. Orders, groups, partitions and
projections that read only such columns commute with the restriction.
-/

namespace BossOptimizer

/-- A row with the columns of `p` alone. -/
def keep {D : Type} (p : CColRef → Prop) [DecidablePred p] (row : Row D) : Row D :=
  fun c => if p c then row c else ⊥

section Rows

variable {D : Type} {p : CColRef → Prop} [DecidablePred p]

theorem keep_of_mem {row : Row D} {c : CColRef} (h : p c) : keep p row c = row c := if_pos h

theorem keep_eq_iff {row row' : Row D} :
    keep p row = keep p row' ↔ ∀ c, p c → row c = row' c := by
  refine ⟨fun h c hc => ?_, fun h => funext fun c => ?_⟩
  · have hrow := congrFun h c
    rwa [keep_of_mem hc, keep_of_mem hc] at hrow
  · by_cases hc : p c
    · rw [keep_of_mem hc, keep_of_mem hc, h c hc]
    · rw [keep, keep, if_neg hc, if_neg hc]

@[simp] theorem keep_keep (row : Row D) : keep p (keep p row) = keep p row :=
  keep_eq_iff.2 fun _ hc => keep_of_mem hc

/-- Rows that agree on more columns agree on fewer. -/
theorem map_keep_mono {q : CColRef → Prop} [DecidablePred q] (hpq : ∀ c, p c → q c)
    {rows rows' : List (Row D)} (h : rows.map (keep q) = rows'.map (keep q)) :
    rows.map (keep p) = rows'.map (keep p) := by
  have hkeep : keep (D := D) p = keep p ∘ keep q :=
    funext fun row => keep_eq_iff.2 fun c hc => (keep_of_mem (hpq c hc)).symm
  rw [hkeep, ← List.map_map, h, List.map_map]

theorem keep_merge (cols : List CColRef) (row row' : Row D) :
    keep p (merge cols row row') = merge cols (keep p row) (keep p row') := by
  funext c
  by_cases hc : p c <;> by_cases hmem : c ∈ cols <;> simp [keep, merge, hc, hmem]

theorem keep_assign_congr (cols : List CColRef) (vals : List (Datum D)) {row row' : Row D}
    (h : keep p row = keep p row') :
    keep p (assign cols vals row) = keep p (assign cols vals row') := by
  rw [keep_eq_iff] at h ⊢
  intro c hc
  by_cases hmem : c ∈ cols
  · rw [assign_of_mem hmem, assign_of_mem hmem]
  · rw [assign_of_notMem hmem, assign_of_notMem hmem, h c hc]

theorem map_keep_projectRow_congr (els : List (CColRef × List (Datum D))) {row row' : Row D}
    (h : keep p row = keep p row') :
    (Query.projectRow els row).map (keep p) = (Query.projectRow els row').map (keep p) := by
  simp only [Query.projectRow, List.map_map]
  exact List.map_congr_left fun k _ => keep_assign_congr _ _ h

theorem map_kept_column_congr {α : Type} {colref : CColRef} (hcolref : p colref)
    {rows rows' : List (Row D)} (h : rows.map (keep p) = rows'.map (keep p)) (g : Datum D → α) :
    rows.map (fun row => g (row colref)) = rows'.map fun row => g (row colref) := by
  have hcolumn := congrArg (List.map fun row : Row D => g (row colref)) h
  simpa only [List.map_map, Function.comp_def, keep_of_mem hcolref] using hcolumn

theorem onlyValue_congr {colref : CColRef} {rows rows' : List (Row D)}
    (h : rows.map (· colref) = rows'.map (· colref)) :
    Query.onlyValue colref rows = Query.onlyValue colref rows' := by
  rcases rows with _ | ⟨row, _ | ⟨row₁, rows⟩⟩ <;>
    rcases rows' with _ | ⟨row', _ | ⟨row₁', rows'⟩⟩ <;> simp_all [Query.onlyValue]

end Rows

/-! ## Environments -/

section Env

variable {D W : Type} (p : CColRef → Prop) [DecidablePred p]

def WindowContext.keep (context : WindowContext D) : WindowContext D :=
  { context with rows := context.rows.map fun r => (BossOptimizer.keep p r.1, r.2) }

def RowGroup.keep (group : RowGroup D W) : RowGroup D W :=
  { group with contexts := group.contexts.map (WindowContext.keep p) }

def Env.keep (env : Env D (RowGroup D W)) : Env D (RowGroup D W) :=
  { row := BossOptimizer.keep p env.row, group := env.group.keep p }

end Env

/-! ## Operators commute with the restriction -/

namespace GroupingSemantics

variable {D K W Op : Type} (S : GroupingSemantics D K W Op) {p : CColRef → Prop} [DecidablePred p]

theorem precedes_keep {pos : OrderSpec} (hpos : ∀ c ∈ pos.PcrsUsed, p c) (row row' : Row D) :
    S.precedes pos (keep p row) (keep p row') = S.precedes pos row row' := by
  induction pos with
  | nil => rfl
  | cons poe pos ih =>
    have hpoe : p poe.pcr := hpos _ (by simp [OrderSpec.PcrsUsed])
    rw [precedes, precedes, keep_of_mem hpoe, keep_of_mem hpoe,
      ih fun c hc => hpos c (List.mem_cons_of_mem _ hc)]

theorem map_keep_sorted {pos : OrderSpec} (hpos : ∀ c ∈ pos.PcrsUsed, p c)
    (rows : List (Row D)) :
    (S.sorted pos rows).map (keep p) = S.sorted pos (rows.map (keep p)) :=
  List.map_mergeSort fun row _ row' _ => by rw [S.precedes_keep hpos]

theorem map_keep_limitRows {popLimit : CLogicalLimit} (hpos : ∀ c ∈ popLimit.pos.PcrsUsed, p c)
    (offset count : Option ℤ) (rows : List (Row D)) :
    (S.limitRows popLimit offset count rows).map (keep p) =
      S.limitRows popLimit offset count (rows.map (keep p)) := by
  simp only [limitRows, ← S.map_keep_sorted hpos]
  rcases count with _ | k
  · rw [List.map_drop]
  · split_ifs <;> simp

theorem context_keep {pos : OrderSpec} (hpos : ∀ c ∈ pos.PcrsUsed, p c) (fBoundedRange : Bool)
    (rows : List (Row D)) :
    S.context fBoundedRange (rows.map (keep p)) pos =
      (S.context fBoundedRange rows pos).keep p := by
  rw [context, context, WindowContext.keep, ← S.map_keep_sorted hpos]
  simp only [List.map_map, List.countP_map, WindowContext.mk.injEq]
  refine ⟨List.map_congr_left fun row _ => ?_, ?_⟩
  · simp only [Function.comp_def, S.precedes_keep hpos]
  · split_ifs
    · refine List.map_congr_left fun row _ => List.map_congr_left fun poe hpoe => ?_
      exact keep_of_mem (hpos _ (List.mem_map_of_mem hpoe))
    · rfl

variable {cols : GroupingColumns K W Op}
  (hused : ∀ key row row', (∀ c ∈ cols.PcrsUsedByKey key, row c = row' c) →
    S.key key row = S.key key row')

include hused in
theorem keyValue_keep
    {key : PartitionKey K} (hkey : ∀ c ∈ key.PcrsUsed cols, p c) (row : Row D) :
    S.keyValue key (keep p row) = S.keyValue key row := by
  cases key with
  | scalarIdent colref => exact keep_of_mem (hkey colref (by simp [PartitionKey.PcrsUsed]))
  | other key => exact hused key _ _ fun c hc => keep_of_mem (hkey c hc)

variable [LinearOrder D]

theorem sameOn_keep {cols : List CColRef} (hcols : ∀ c ∈ cols, p c) (row row' : Row D) :
    sameOn cols (keep p row) (keep p row') = sameOn cols row row' := by
  rw [Bool.eq_iff_iff, sameOn_iff, sameOn_iff]
  refine forall₂_congr fun c hc => ?_
  rw [keep_of_mem (hcols c hc), keep_of_mem (hcols c hc)]

theorem groups_keep {pdrgpcr : List CColRef} (hcols : ∀ c ∈ pdrgpcr, p c) (outer : Row D)
    (rows : List (Row D)) :
    groups pdrgpcr (keep p outer) (rows.map (keep p)) =
      (groups pdrgpcr outer rows).map (Prod.map (keep p) (List.map (keep p))) := by
  rw [groups, groups]
  split_ifs
  · rfl
  · simp only [List.pwFilter_map, sameOn_keep hcols, List.map_map, List.filter_map]
    refine List.map_congr_left fun row _ => ?_
    simp only [Function.comp_def, Prod.map, keep_merge, sameOn_keep hcols]

include hused in
theorem partition_keep
    {pds : PartitionSpec K} (hpds : ∀ c ∈ pds.PcrsUsed cols, p c) (rows : List (Row D))
    (row : Row D) :
    S.partition pds (rows.map (keep p)) (keep p row) =
      (S.partition pds rows row).map (keep p) := by
  cases pds with
  | singleton => rfl
  | hashed pdrgpexpr fNullsColocated =>
    have hkey : ∀ key ∈ pdrgpexpr, ∀ row, S.keyValue key (keep p row) = S.keyValue key row :=
      fun key hmem row => S.keyValue_keep hused
        (fun c hc => hpds c (List.mem_flatMap.2 ⟨key, hmem, hc⟩)) row
    rw [partition, partition, List.filter_map]
    refine congrArg (List.map _) (List.filter_congr fun row' _ => ?_)
    rw [Bool.eq_iff_iff, Function.comp_apply, List.all_eq_true, List.all_eq_true]
    refine forall₂_congr fun key hmem => ?_
    rw [hkey key hmem, hkey key hmem]

include hused in
theorem windowed_keep
    {pop : CLogicalSequenceProject K W} (hpop : ∀ c ∈ pop.pcrsLocalUsed cols, p c)
    (rows : List (Row D)) (row : Row D) :
    S.windowed pop (rows.map (keep p)) (keep p row) = (S.windowed pop rows row).keep p := by
  simp only [CLogicalSequenceProject.pcrsLocalUsed, List.mem_append, List.mem_flatMap] at hpop
  rw [windowed, windowed, RowGroup.keep,
    S.partition_keep hused fun c hc => hpop c (by simp [hc])]
  simp only [List.map_map, RowGroup.mk.injEq, and_true]
  exact List.map_congr_left fun pos hpos =>
    S.context_keep (fun c hc => hpop c (.inl (.inl ⟨pos, hpos, hc⟩))) _ _

/-- The environments of the groups of an aggregate. -/
theorem map_keep_groupEnvs {pdrgpcr : List CColRef} (hcols : ∀ c ∈ pdrgpcr, p c) (outer : Row D)
    (rows : List (Row D)) :
    ((groups pdrgpcr outer rows).map fun group =>
        ({ row := group.1, group := aggregated group.2 } : Env D (RowGroup D W))).map
        (Env.keep p) =
      (groups pdrgpcr (keep p outer) (rows.map (keep p))).map fun group =>
        { row := group.1, group := aggregated group.2 } := by
  rw [groups_keep hcols, List.map_map, List.map_map]
  refine List.map_congr_left fun group _ => ?_
  simp [Env.keep, RowGroup.keep, aggregated, WindowContext.keep, Function.comp_def]

include hused in
/-- The environments of the rows of a window operator. -/
theorem map_keep_windowEnvs
    {pop : CLogicalSequenceProject K W} (hpop : ∀ c ∈ pop.pcrsLocalUsed cols, p c)
    (rows : List (Row D)) :
    (rows.map fun row =>
        ({ row := row, group := S.windowed pop rows row } : Env D (RowGroup D W))).map
        (Env.keep p) =
      (rows.map (keep p)).map fun row =>
        { row := row, group := S.windowed pop (rows.map (keep p)) row } := by
  rw [List.map_map, List.map_map]
  refine List.map_congr_left fun row _ => ?_
  rw [Function.comp_apply, Function.comp_apply, S.windowed_keep hused hpop]
  rfl

end GroupingSemantics

end BossOptimizer

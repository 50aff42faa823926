import BossOptimizer.Xforms.CSubqueryHandler

/-!
# The rows of an unnested quantified subquery

For one outer row the select keeps the inner rows whose comparison is not false, or true where
the optimization applies. Both placements of the group-by return one row for each outer row, and
the aggregates of that row count the comparisons kept and the unknown ones among them. An outer
row that keeps nothing has the count 0 above the apply and NULL when the group-by is on the inner
side.
-/

namespace BossOptimizer

namespace CSubqueryHandler

variable {D : Type}

/-! ## Columns -/

attribute [local simp] ApplyExpr.rows in
theorem pcrCreate_injective {i j : ℕ} (h : pcrCreate i = pcrCreate j) : i = j :=
  congrArg CColRef.id h

/-- A column created earlier is not a new one. -/
theorem ne_pcrCreate {pcf i : ℕ} {c : CColRef} (h : c.id < pcf) (hi : pcf ≤ i) :
    c ≠ pcrCreate i := by
  rintro rfl
  exact absurd (h.trans_le hi) (lt_irrefl i)

/-- The outer relation, the inner relation and the scalar have columns of their own, all of them
    created earlier. -/
structure ColumnsDistinct (pcf : ℕ) (pexprOuter : LogicalLeaf D)
    (sq : CScalarSubqueryQuantified D) : Prop where
  inner_outer : ∀ c ∈ sq.pexprInner.output, c ∉ pexprOuter.output
  inner_scalar : ∀ c ∈ sq.pexprInner.output, c ∉ sq.pexprScalar.usedColumns
  old_outer : ∀ c ∈ pexprOuter.output, c.id < pcf
  old_inner : ∀ c ∈ sq.pexprInner.output, c.id < pcf
  old_scalar : ∀ c ∈ sq.pexprScalar.usedColumns, c.id < pcf
  old_pcr : sq.pcr.id < pcf

/-! ## Comparisons -/

variable [DecidableEq D] (cat : Catalog D) (op : ℕ) (sq : CScalarSubqueryQuantified D)

/-- The scalar of an outer row compared with the column of an inner row. -/
def comparison (row inner : Row (SqlValue D)) : Truth :=
  cat.compare op (sq.pexprScalar.eval cat row) (inner sq.pcr)

/-- The comparisons of an outer row with all inner rows. -/
def comparisons (row : Row (SqlValue D)) : List Truth :=
  (sq.pexprInner.rows row).map (comparison cat op sq row)

/-- The predicate of the select, for the operator of the subquery or its negator. -/
def predicate : CScalarCmp D := ⟨op, sq.pexprScalar, .ident sq.pcr⟩

/-- The comparisons the select keeps. -/
def keeps (useNotNullableInnerOpt : Bool) (t : Truth) : Bool :=
  if useNotNullableInnerOpt then t = some true else t ≠ some false

variable {cat op sq} {row inner : Row (SqlValue D)}

/-- The predicate on a row that has the outer row's scalar and the inner row's column. -/
theorem eval_predicate {joined : Row (SqlValue D)}
    (hscalar : ∀ c ∈ sq.pexprScalar.usedColumns, joined c = row c)
    (hpcr : joined sq.pcr = inner sq.pcr) :
    (predicate op sq).pexpr.eval cat joined = SqlValue.ofTruth (comparison cat op sq row inner) := by
  simp only [predicate, CScalarCmp.pexpr, ApplyScalar.eval, comparison, hpcr,
    ApplyScalar.eval_congr hscalar]

/-- The inner rows the select keeps for an outer row. -/
def kept (cat : Catalog D) (op : ℕ) (sq : CScalarSubqueryQuantified D) (row : Row (SqlValue D)) :
    List (Row (SqlValue D)) :=
  (sq.pexprInner.rows row).filter fun inner =>
    keeps (useNotNullableInnerOpt sq.pcr sq.pexprInner op) (comparison cat op sq row inner)

/-- Their comparisons. -/
def keptComparisons (cat : Catalog D) (op : ℕ) (sq : CScalarSubqueryQuantified D)
    (row : Row (SqlValue D)) : List Truth :=
  (comparisons cat op sq row).filter (keeps (useNotNullableInnerOpt sq.pcr sq.pexprInner op))

theorem map_kept : (kept cat op sq row).map (comparison cat op sq row) =
    keptComparisons cat op sq row := by
  rw [keptComparisons, comparisons, List.filter_map]
  rfl

theorem kept_eq_nil_iff : kept cat op sq row = [] ↔ keptComparisons cat op sq row = [] := by
  rw [← map_kept, List.map_eq_nil_iff]

theorem rows_pexprInnerSelect {pcf : ℕ} {pexprOuter : LogicalLeaf D}
    (hcols : ColumnsDistinct pcf pexprOuter sq) :
    (pexprInnerSelect sq.pcr sq.pexprInner (predicate op sq)).1.rows cat row =
      kept cat op sq row := by
  have heval : ∀ inner ∈ sq.pexprInner.rows row, (predicate op sq).pexpr.eval cat inner =
      SqlValue.ofTruth (comparison cat op sq row inner) := fun inner hinner =>
    eval_predicate (fun c hc => LogicalLeaf.rows_of_notMem hinner
      fun hin => hcols.inner_scalar c hin hc) rfl
  have hop : (predicate op sq).mdidOp = op := rfl
  unfold pexprInnerSelect kept
  rw [hop]
  split
  · next hopt =>
    refine List.filter_congr fun inner hinner => ?_
    rw [hopt, ApplyScalar.isTrue, heval inner hinner]
    rcases comparison cat op sq row inner with _ | _ | _ <;> simp [keeps]
  · next hopt =>
    rw [Bool.not_eq_true] at hopt
    refine List.filter_congr fun inner hinner => ?_
    rw [hopt, ApplyScalar.isTrue, ApplyScalar.eval, heval inner hinner]
    rcases comparison cat op sq row inner with _ | _ | _ <;> simp [keeps]

/-! ## Aggregates -/

/-- The row of a group says how many comparisons were kept and how many of them are unknown. -/
structure Summarizes (pcf : ℕ) (ts : List Truth) (row : Row (SqlValue D)) : Prop where
  count : row (groupColumns (pcf + 1)).pcrCount = (.int ts.length : SqlValue D) ∨
    ts = [] ∧ row (groupColumns (pcf + 1)).pcrCount = ⊥
  sum : ts ≠ [] → row (groupColumns (pcf + 1)).pcrSum = (.int (ts.count none) : SqlValue D)

/-- A row with the projected null indicator. -/
def withNullIndicator (cat : Catalog D) (op : ℕ) (sq : CScalarSubqueryQuantified D) (pcf : ℕ)
    (joined : Row (SqlValue D)) : Row (SqlValue D) :=
  Function.update joined (groupColumns (pcf + 1)).colrefForSum
    ((CXformUtils.pexprNullIndicator (predicate op sq).pexpr).eval cat joined)

theorem withNullIndicator_of_ne {pcf : ℕ} {joined : Row (SqlValue D)} {c : CColRef}
    (h : c ≠ pcrCreate (pcf + 2)) : withNullIndicator cat op sq pcf joined c = joined c :=
  Function.update_of_ne h _ _

theorem withNullIndicator_self {pcf : ℕ} {joined : Row (SqlValue D)}
    (hscalar : ∀ c ∈ sq.pexprScalar.usedColumns, joined c = row c)
    (hpcr : joined sq.pcr = inner sq.pcr) :
    withNullIndicator cat op sq pcf joined (groupColumns (pcf + 1)).colrefForSum =
      (.int (if comparison cat op sq row inner = none then 1 else 0) : SqlValue D) := by
  rw [withNullIndicator, Function.update_self]
  simp only [CXformUtils.pexprNullIndicator, ApplyScalar.eval, eval_predicate hscalar hpcr,
    SqlValue.ofTruth_eq_bot]
  by_cases hnone : comparison cat op sq row inner = none <;> simp [hnone]

/-- What the aggregates read of a kept inner row, joined or not. -/
structure JoinsKept (pcf : ℕ) (sq : CScalarSubqueryQuantified D) (row : Row (SqlValue D))
    (join : Row (SqlValue D) → Row (SqlValue D)) (inner : Row (SqlValue D)) : Prop where
  colref : join inner (pcrCreate pcf) ≠ ⊥
  scalar : ∀ c ∈ sq.pexprScalar.usedColumns, join inner c = row c
  pcr : join inner sq.pcr = inner sq.pcr

variable {pcf : ℕ} {join : Row (SqlValue D) → Row (SqlValue D)}

theorem eval_count (h : ∀ inner ∈ kept cat op sq row, JoinsKept pcf sq row join inner) :
    (CScalarAggFunc.count (pcrCreate pcf)).eval
      ((kept cat op sq row).map fun inner => withNullIndicator cat op sq pcf (join inner)) =
        (.int (keptComparisons cat op sq row).length : SqlValue D) := by
  have hne : pcrCreate pcf ≠ pcrCreate (pcf + 2) := fun h => by simpa using pcrCreate_injective h
  have hall : ((kept cat op sq row).map fun inner => withNullIndicator cat op sq pcf
      (join inner)).countP (fun row => row (pcrCreate pcf) ≠ ⊥) = (kept cat op sq row).length := by
    rw [List.countP_map, List.countP_eq_length]
    intro inner hinner
    simpa [withNullIndicator_of_ne hne] using (h inner hinner).colref
  rw [CScalarAggFunc.eval, hall, ← map_kept, List.length_map]

/-- The indicators of unknown truth values add up to their number. -/
theorem sum_map_indicator (ts : List Truth) :
    (ts.map fun t => if t = none then (1 : ℤ) else 0).sum = ts.count none := by
  induction ts with
  | nil => rfl
  | cons t ts ih =>
    rw [List.map_cons, List.sum_cons, ih, List.count_cons]
    rcases t with _ | b
    · simp only [if_true, beq_self_eq_true]
      omega
    · simp

theorem eval_sum (h : ∀ inner ∈ kept cat op sq row, JoinsKept pcf sq row join inner)
    (hne : keptComparisons cat op sq row ≠ []) :
    (CScalarAggFunc.sum (groupColumns (pcf + 1)).colrefForSum).eval
      ((kept cat op sq row).map fun inner => withNullIndicator cat op sq pcf (join inner)) =
        (.int ((keptComparisons cat op sq row).count none) : SqlValue D) := by
  have hvals : ((kept cat op sq row).map fun inner => withNullIndicator cat op sq pcf
      (join inner)).filterMap (fun row => CScalarAggFunc.toInt
        (row (groupColumns (pcf + 1)).colrefForSum)) =
      (keptComparisons cat op sq row).map fun t => if t = none then (1 : ℤ) else 0 := by
    rw [← map_kept, List.filterMap_map, List.map_map, ← List.filterMap_eq_map]
    refine List.filterMap_congr fun inner hinner => ?_
    obtain ⟨-, hscalar, hpcr⟩ := h inner hinner
    rw [Function.comp_apply, withNullIndicator_self hscalar hpcr]
    rfl
  rw [CScalarAggFunc.eval, hvals]
  split
  · next hnil => exact absurd (List.map_eq_nil_iff.1 hnil) hne
  · rw [sum_map_indicator]

/-! ## The group-by -/

/-- The aggregates of `CreateGroupByNode`. -/
def aggregates (pcf : ℕ) : List (CColRef × CScalarAggFunc) :=
  [((groupColumns (pcf + 1)).pcrCount, .count (pcrCreate pcf)),
    ((groupColumns (pcf + 1)).pcrSum, .sum (groupColumns (pcf + 1)).colrefForSum)]

theorem aggregates_nodup (pcf : ℕ) : ((aggregates pcf).map (·.1)).Nodup := by
  have hne : pcrCreate (pcf + 1) ≠ pcrCreate (pcf + 1 + 2) := fun h => by
    simpa using pcrCreate_injective h
  simpa [aggregates, groupColumns] using hne

theorem notMem_aggregates {c : CColRef} (h : c.id < pcf) : c ∉ (aggregates pcf).map (·.1) := by
  intro hmem
  rcases List.mem_cons.1 hmem with rfl | hmem
  · exact ne_pcrCreate h (Nat.le_succ pcf) rfl
  · exact ne_pcrCreate h (by omega) (List.mem_singleton.1 hmem)

variable {env base b : Row (SqlValue D)} {gcols : List CColRef}

theorem groupRow_pcrCount {group : List (Row (SqlValue D))} :
    ApplyExpr.groupRow env gcols (aggregates pcf) group b (groupColumns (pcf + 1)).pcrCount =
      (CScalarAggFunc.count (pcrCreate pcf)).eval group :=
  ApplyExpr.groupRow_getElem (aggregates_nodup pcf) Nat.zero_lt_two

theorem groupRow_pcrSum {group : List (Row (SqlValue D))} :
    ApplyExpr.groupRow env gcols (aggregates pcf) group b (groupColumns (pcf + 1)).pcrSum =
      (CScalarAggFunc.sum (groupColumns (pcf + 1)).colrefForSum).eval group :=
  ApplyExpr.groupRow_getElem (aggregates_nodup pcf) Nat.one_lt_two

/-- The group of the kept inner rows. -/
theorem summarizes_groupRow (h : ∀ inner ∈ kept cat op sq row, JoinsKept pcf sq row join inner) :
    Summarizes pcf (keptComparisons cat op sq row) (ApplyExpr.groupRow env gcols (aggregates pcf)
      ((kept cat op sq row).map fun inner => withNullIndicator cat op sq pcf (join inner)) b) where
  count := .inl (groupRow_pcrCount.trans (eval_count h))
  sum hne := groupRow_pcrSum.trans (eval_sum h hne)

/-- The group of an outer row without inner rows. -/
theorem summarizes_groupRow_padded {padded : Row (SqlValue D)}
    (hpadded : padded (pcrCreate pcf) = ⊥) :
    Summarizes pcf [] (ApplyExpr.groupRow env gcols (aggregates pcf)
      [withNullIndicator cat op sq pcf padded] b) where
  count := by
    have hne : pcrCreate pcf ≠ pcrCreate (pcf + 2) := fun h => by simpa using pcrCreate_injective h
    refine .inl (groupRow_pcrCount.trans ?_)
    rw [CScalarAggFunc.eval, List.countP_singleton, withNullIndicator_of_ne hne, hpadded]
    simp
  sum h := absurd rfl h

/-- The inner child of the apply or of the group-by. -/
def innerProject (pcf op : ℕ) (sq : CScalarSubqueryQuantified D) : ApplyExpr D :=
  (addProjectNode pcf (pexprInnerSelect sq.pcr sq.pexprInner (predicate op sq)).1).1

/-- A kept inner row with the constant. -/
def projected (pcf : ℕ) (inner : Row (SqlValue D)) : Row (SqlValue D) :=
  Function.update inner (pcrCreate pcf) (SqlValue.ofTruth (some true))

omit [DecidableEq D] in
theorem projected_of_old {c : CColRef} (h : c.id < pcf) : projected pcf inner c = inner c :=
  Function.update_of_ne (ne_pcrCreate h le_rfl) _ _

omit [DecidableEq D] in
theorem outputColumns_innerProject :
    (innerProject pcf op sq).outputColumns = sq.pexprInner.output ++ [pcrCreate pcf] := by
  rw [innerProject, addProjectNode, ApplyExpr.outputColumns, pexprInnerSelect]
  split <;> rfl

variable {pexprOuter : LogicalLeaf D}

theorem rows_innerProject (hcols : ColumnsDistinct pcf pexprOuter sq) :
    (innerProject pcf op sq).rows cat row = (kept cat op sq row).map (projected pcf) := by
  rw [innerProject, addProjectNode, ApplyExpr.rows, rows_pexprInnerSelect hcols]
  rfl

/-- The rows of the group-by over the rows of its child with the null indicator. -/
theorem rows_createGroupByNode {pexprChild : ApplyExpr D} (hne : gcols ≠ []) :
    (createGroupByNode (pcf + 1) pexprChild gcols (pcrCreate pcf)
      (some (predicate op sq).pexpr)).rows cat env =
    let flagged := (pexprChild.rows cat env).map (withNullIndicator cat op sq pcf)
    (Groups.representatives (fun row => gcols.map row) flagged).map fun row =>
      ApplyExpr.groupRow env gcols (aggregates pcf)
        (flagged.filter fun row' => gcols.map row' = gcols.map row) row := by
  rw [createGroupByNode, ApplyExpr.rows, if_neg hne]
  rfl

/-! ## The group-by above the apply -/

/-- A kept inner row joined with the outer row. -/
def joined (pcf : ℕ) (sq : CScalarSubqueryQuantified D) (row inner : Row (SqlValue D)) :
    Row (SqlValue D) :=
  merge (sq.pexprInner.output ++ [pcrCreate pcf]) row (projected pcf inner)

/-- An outer row without inner rows. -/
def padded (pcf : ℕ) (sq : CScalarSubqueryQuantified D) (row : Row (SqlValue D)) :
    Row (SqlValue D) :=
  merge (sq.pexprInner.output ++ [pcrCreate pcf]) row nullRow

theorem notMem_joinedColumns {cols : List CColRef} {c : CColRef} (hc : c.id < pcf)
    (hinner : c ∉ cols) : c ∉ cols ++ [pcrCreate pcf] := by
  rw [List.mem_append, List.mem_singleton]
  rintro (h | rfl)
  · exact hinner h
  · exact ne_pcrCreate hc le_rfl rfl

omit [DecidableEq D] in
theorem joinsKept_joined (hcols : ColumnsDistinct pcf pexprOuter sq)
    (hinner : inner ∈ sq.pexprInner.rows row) : JoinsKept pcf sq row (joined pcf sq row) inner where
  colref := by
    rw [joined, merge_of_mem (by simp), projected, Function.update_self]
    simp
  scalar c hc := merge_of_notMem (notMem_joinedColumns (hcols.old_scalar c hc)
    fun h => hcols.inner_scalar c h hc)
  pcr := by
    by_cases hpcr : sq.pcr ∈ sq.pexprInner.output
    · rw [joined, merge_of_mem (by simp [hpcr]), projected_of_old hcols.old_pcr]
    · rw [joined, merge_of_notMem (notMem_joinedColumns hcols.old_pcr hpcr),
        LogicalLeaf.rows_of_notMem hinner hpcr]

/-- The rows of one outer row below the group-by. -/
def blockOnOuter (cat : Catalog D) (op : ℕ) (sq : CScalarSubqueryQuantified D) (pcf : ℕ)
    (row : Row (SqlValue D)) : List (Row (SqlValue D)) :=
  if kept cat op sq row = [] then [withNullIndicator cat op sq pcf (padded pcf sq row)]
  else (kept cat op sq row).map fun inner => withNullIndicator cat op sq pcf (joined pcf sq row inner)

theorem map_rows_leftOuterApply (hcols : ColumnsDistinct pcf pexprOuter sq) {pcrInner : CColRef} :
    ((ApplyExpr.leftOuterApply (.leaf pexprOuter) (innerProject pcf op sq) pcrInner).rows cat
      env).map (withNullIndicator cat op sq pcf) =
        (pexprOuter.rows env).flatMap (blockOnOuter cat op sq pcf) := by
  rw [ApplyExpr.rows, ApplyExpr.rows, List.map_flatMap]
  refine List.flatMap_congr fun row _ => ?_
  rw [Joins.matchesOrPad_true, rows_innerProject hcols, outputColumns_innerProject, blockOnOuter]
  by_cases hnil : kept cat op sq row = []
  · simp only [hnil, List.map_nil, if_true, List.map_singleton]
    rfl
  · simp only [hnil, List.map_eq_nil_iff, if_false, List.map_map]
    rfl

theorem blockOnOuter_ne_nil : blockOnOuter cat op sq pcf row ≠ [] := by
  unfold blockOnOuter
  split
  · simp
  · next h => simpa using h

/-- Columns of the outer row keep their values. -/
theorem eq_of_mem_blockOnOuter (hcols : ColumnsDistinct pcf pexprOuter sq)
    (hb : b ∈ blockOnOuter cat op sq pcf row) {c : CColRef} (hc : c ∈ pexprOuter.output) :
    b c = row c := by
  have hold : c.id < pcf := hcols.old_outer c hc
  have hnot : c ∉ sq.pexprInner.output ++ [pcrCreate pcf] :=
    notMem_joinedColumns hold fun h => hcols.inner_outer c h hc
  unfold blockOnOuter at hb
  split at hb
  · rw [List.mem_singleton.1 hb, withNullIndicator_of_ne (ne_pcrCreate hold (by omega)), padded,
      merge_of_notMem hnot]
  · obtain ⟨inner, -, rfl⟩ := List.mem_map.1 hb
    rw [withNullIndicator_of_ne (ne_pcrCreate hold (by omega)), joined, merge_of_notMem hnot]

theorem summarizes_blockOnOuter (hcols : ColumnsDistinct pcf pexprOuter sq) :
    Summarizes pcf (keptComparisons cat op sq row)
      (ApplyExpr.groupRow env gcols (aggregates pcf) (blockOnOuter cat op sq pcf row) b) := by
  unfold blockOnOuter
  split
  · next hnil =>
    rw [kept_eq_nil_iff.1 hnil]
    exact summarizes_groupRow_padded (by rw [padded, merge_of_mem (by simp)]; rfl)
  · exact summarizes_groupRow fun inner hinner =>
      joinsKept_joined hcols (List.mem_of_mem_filter hinner)

/-- What the row of an outer row holds with the group-by above the apply. -/
structure RowOnOuter (cat : Catalog D) (op : ℕ) (sq : CScalarSubqueryQuantified D) (pcf : ℕ)
    (gcols : List CColRef) (env row row' : Row (SqlValue D)) : Prop where
  grouping : ∀ c ∈ gcols, row' c = row c
  /-- A column that is not grouped is not there: what a scalar reads is an outer reference. -/
  dropped : ∀ c, c.id < pcf → c ∉ gcols → row' c = env c
  summary : Summarizes pcf (keptComparisons cat op sq row) row'

/-- **One row for each outer row**, when the grouping columns contain a key. -/
theorem rows_onOuter (hcols : ColumnsDistinct pcf pexprOuter sq) {pcrInner : CColRef}
    (hne : gcols ≠ []) (hout : ∀ c ∈ gcols, c ∈ pexprOuter.output)
    (hkey : (pexprOuter.rows env).Pairwise fun row row' => ∃ c ∈ gcols, row c ≠ row' c) :
    List.Forall₂ (RowOnOuter cat op sq pcf gcols env) (pexprOuter.rows env)
      ((createGroupByNode (pcf + 1)
        (.leftOuterApply (.leaf pexprOuter) (innerProject pcf op sq) pcrInner) gcols
        (pcrCreate pcf) (some (predicate op sq).pexpr)).rows cat env) := by
  have hblock : ∀ row ∈ pexprOuter.rows env, ∀ b ∈ blockOnOuter cat op sq pcf row,
      gcols.map b = gcols.map row := fun row _ b hb =>
    List.map_congr_left fun c hc => eq_of_mem_blockOnOuter hcols hb (hout c hc)
  have hnd : ((pexprOuter.rows env).map fun row => gcols.map row).Nodup := by
    refine List.pairwise_map.2 (hkey.imp fun ⟨c, hc, hne⟩ heq => hne ?_)
    exact List.map_inj_left.1 heq c hc
  rw [rows_createGroupByNode hne]
  simp only [map_rows_leftOuterApply hcols]
  rw [List.forall₂_map_right_iff]
  have hreps := Groups.representatives_flatMap (fun row _ => blockOnOuter_ne_nil) hblock hnd
  refine forall₂_imp_of_mem hreps fun row hrow b hb => ?_
  have hgroup : ((pexprOuter.rows env).flatMap (blockOnOuter cat op sq pcf)).filter
      (fun row' => gcols.map row' = gcols.map b) = blockOnOuter cat op sq pcf row := by
    rw [hblock row hrow b hb]
    exact Groups.filter_flatMap_block hblock hnd hrow
  rw [hgroup]
  exact {
    grouping := fun c hc => (ApplyExpr.groupRow_of_mem hc
      (notMem_aggregates (hcols.old_outer c (hout c hc)))).trans
        (eq_of_mem_blockOnOuter hcols hb (hout c hc))
    dropped := fun c hold hc => ApplyExpr.groupRow_of_notMem hc (notMem_aggregates hold)
    summary := summarizes_blockOnOuter hcols }

/-! ## The group-by on the inner side -/

omit [DecidableEq D] in
theorem joinsKept_projected (hcols : ColumnsDistinct pcf pexprOuter sq)
    (hinner : inner ∈ sq.pexprInner.rows row) : JoinsKept pcf sq row (projected pcf) inner where
  colref := by
    rw [projected, Function.update_self]
    simp
  scalar c hc := (projected_of_old (hcols.old_scalar c hc)).trans
    (LogicalLeaf.rows_of_notMem hinner fun h => hcols.inner_scalar c h hc)
  pcr := projected_of_old hcols.old_pcr

/-- The rows of the inner child below the group-by. -/
def blockOnInner (cat : Catalog D) (op : ℕ) (sq : CScalarSubqueryQuantified D) (pcf : ℕ)
    (row : Row (SqlValue D)) : List (Row (SqlValue D)) :=
  (kept cat op sq row).map fun inner => withNullIndicator cat op sq pcf (projected pcf inner)

theorem eq_of_mem_blockOnInner {b : Row (SqlValue D)} (hb : b ∈ blockOnInner cat op sq pcf row) :
    ∃ inner ∈ kept cat op sq row, ∀ c : CColRef, c.id < pcf → b c = inner c := by
  obtain ⟨inner, hinner, rfl⟩ := List.mem_map.1 hb
  refine ⟨inner, hinner, fun c hc => ?_⟩
  rw [withNullIndicator_of_ne (ne_pcrCreate hc (by omega)), projected_of_old hc]

/-- The group-by on the inner side, in the row of the apply. -/
def groupOnInner (pcf op : ℕ) (sq : CScalarSubqueryQuantified D) (gcols : List CColRef) :
    ApplyExpr D :=
  createGroupByNode (pcf + 1) (innerProject pcf op sq) gcols (pcrCreate pcf)
    (some (predicate op sq).pexpr)

/-- It has one group, or none when no inner row is kept. -/
theorem rows_groupOnInner (hcols : ColumnsDistinct pcf pexprOuter sq) (hne : gcols ≠ [])
    (hold : ∀ c ∈ gcols, c.id < pcf)
    (hconst : ∀ inner ∈ kept cat op sq row, ∀ inner' ∈ kept cat op sq row, ∀ c ∈ gcols,
      inner c = inner' c) :
    kept cat op sq row = [] ∧ (groupOnInner pcf op sq gcols).rows cat row = [] ∨
    ∃ b ∈ blockOnInner cat op sq pcf row, (groupOnInner pcf op sq gcols).rows cat row =
      [ApplyExpr.groupRow row gcols (aggregates pcf) (blockOnInner cat op sq pcf row) b] := by
  have hrows : ((innerProject pcf op sq).rows cat row).map (withNullIndicator cat op sq pcf) =
      blockOnInner cat op sq pcf row := by
    rw [rows_innerProject hcols, List.map_map]
    rfl
  rw [groupOnInner, rows_createGroupByNode hne]
  simp only [hrows]
  by_cases hnil : kept cat op sq row = []
  · exact .inl ⟨hnil, by simp [blockOnInner, hnil]⟩
  right
  obtain ⟨first, hfirst⟩ := List.exists_mem_of_ne_nil _ hnil
  have hkey : ∀ b ∈ blockOnInner cat op sq pcf row, gcols.map b = gcols.map first := by
    intro b hb
    obtain ⟨inner, hinner, heq⟩ := eq_of_mem_blockOnInner hb
    exact List.map_congr_left fun c hc =>
      (heq c (hold c hc)).trans (hconst inner hinner first hfirst c hc)
  obtain ⟨b, hb, hreps⟩ := Groups.representatives_of_const (by simpa [blockOnInner] using hnil) hkey
  refine ⟨b, hb, ?_⟩
  rw [hreps, List.map_singleton, List.filter_eq_self.2 fun b' hb' =>
    decide_eq_true ((hkey b' hb').trans (hkey b hb).symm)]

/-- What the row of an outer row holds with the group-by on the inner side. -/
structure RowOnInner (cat : Catalog D) (op : ℕ) (sq : CScalarSubqueryQuantified D) (pcf : ℕ)
    (gcols : List CColRef) (row row' : Row (SqlValue D)) : Prop where
  matched : keptComparisons cat op sq row ≠ [] → ∀ c : CColRef, c.id < pcf →
    c ∉ sq.pexprInner.output → row' c = row c
  /-- A grouping column comes from the inner side, whatever relation it belongs to. -/
  unmatched : keptComparisons cat op sq row = [] → ∀ c : CColRef, c.id < pcf →
    row' c = if c ∈ gcols then ⊥ else row c
  summary : Summarizes pcf (keptComparisons cat op sq row) row'

omit [DecidableEq D] in
theorem outputColumns_groupOnInner : (groupOnInner pcf op sq gcols).outputColumns =
    gcols ++ (aggregates pcf).map (·.1) := rfl

omit [DecidableEq D] in
theorem mem_outputColumns_groupOnInner {c : CColRef} (hc : c.id < pcf) :
    c ∈ (groupOnInner pcf op sq gcols).outputColumns ↔ c ∈ gcols := by
  rw [outputColumns_groupOnInner, List.mem_append, or_iff_left (notMem_aggregates hc)]

omit [DecidableEq D] in
theorem pcrCount_mem_outputColumns :
    (groupColumns (pcf + 1)).pcrCount ∈ (groupOnInner pcf op sq gcols).outputColumns := by
  rw [outputColumns_groupOnInner]
  simp [aggregates]

omit [DecidableEq D] in
theorem pcrSum_mem_outputColumns :
    (groupColumns (pcf + 1)).pcrSum ∈ (groupOnInner pcf op sq gcols).outputColumns := by
  rw [outputColumns_groupOnInner]
  simp [aggregates]

theorem rowOnInner_matched (hcols : ColumnsDistinct pcf pexprOuter sq)
    (hb : b ∈ blockOnInner cat op sq pcf row) :
    RowOnInner cat op sq pcf gcols row (merge (groupOnInner pcf op sq gcols).outputColumns row
      (ApplyExpr.groupRow row gcols (aggregates pcf) (blockOnInner cat op sq pcf row) b)) := by
  obtain ⟨inner, hinner, heq⟩ := eq_of_mem_blockOnInner hb
  refine ⟨fun _ c hc hout => ?_, fun hnil => ?_, ?_⟩
  · by_cases hg : c ∈ gcols
    · rw [merge_of_mem ((mem_outputColumns_groupOnInner hc).2 hg),
        ApplyExpr.groupRow_of_mem hg (notMem_aggregates hc), heq c hc,
        LogicalLeaf.rows_of_notMem (List.mem_of_mem_filter hinner) hout]
    · rw [merge_of_notMem fun h => hg ((mem_outputColumns_groupOnInner hc).1 h)]
  · rw [kept_eq_nil_iff.2 hnil] at hinner
    cases hinner
  · have hsum : Summarizes pcf (keptComparisons cat op sq row) (ApplyExpr.groupRow row gcols
        (aggregates pcf) (blockOnInner cat op sq pcf row) b) :=
      summarizes_groupRow fun inner hinner =>
        joinsKept_projected hcols (List.mem_of_mem_filter hinner)
    constructor
    · rw [merge_of_mem pcrCount_mem_outputColumns]
      exact hsum.count
    · rw [merge_of_mem pcrSum_mem_outputColumns]
      exact hsum.sum

theorem rowOnInner_padded (hnil : kept cat op sq row = []) :
    RowOnInner cat op sq pcf gcols row
      (merge (groupOnInner pcf op sq gcols).outputColumns row nullRow) := by
  rw [kept_eq_nil_iff] at hnil
  refine ⟨fun h => absurd hnil h, fun _ c hc => ?_, ?_⟩
  · split
    · next hg => rw [merge_of_mem ((mem_outputColumns_groupOnInner hc).2 hg)]; rfl
    · next hg => rw [merge_of_notMem fun h => hg ((mem_outputColumns_groupOnInner hc).1 h)]
  · rw [hnil]
    refine ⟨.inr ⟨rfl, ?_⟩, fun h => absurd rfl h⟩
    rw [merge_of_mem pcrCount_mem_outputColumns]
    rfl

/-- **One row for each outer row**, when the kept inner rows agree on the grouping columns. -/
theorem rows_onInner (hcols : ColumnsDistinct pcf pexprOuter sq) {pcrInner : CColRef}
    (hne : gcols ≠ []) (hold : ∀ c ∈ gcols, c.id < pcf)
    (hconst : ∀ row ∈ pexprOuter.rows env, ∀ inner ∈ kept cat op sq row,
      ∀ inner' ∈ kept cat op sq row, ∀ c ∈ gcols, inner c = inner' c) :
    List.Forall₂ (RowOnInner cat op sq pcf gcols) (pexprOuter.rows env)
      ((ApplyExpr.leftOuterApply (.leaf pexprOuter) (groupOnInner pcf op sq gcols) pcrInner).rows
        cat env) := by
  rw [ApplyExpr.rows]
  refine forall₂_flatMap fun row hrow => ?_
  rw [Joins.matchesOrPad_true]
  rcases rows_groupOnInner hcols hne hold (hconst row hrow) with ⟨hnil, heq⟩ | ⟨b, hb, heq⟩
  · rw [heq, if_pos rfl]
    exact ⟨_, rfl, rowOnInner_padded hnil⟩
  · rw [heq, if_neg (by simp), List.map_singleton]
    exact ⟨_, rfl, rowOnInner_matched hcols hb⟩

end CSubqueryHandler

end BossOptimizer

import BossOptimizer.Lib.Groups
import BossOptimizer.Xforms.XformExpr
import Mathlib.Data.List.GetD

/-!
# The groups of an aggregate

An aggregate returns one row for each leader of a group. Without grouping columns the row of outer
references leads the only group, which may have no rows. Aggregates over rows with the same keys
return the same rows when each group has the same values.
-/

namespace BossOptimizer

variable {D : Type} [LinearOrder D]

/-- A joined row reads its parts outside of the columns of the children. -/
theorem xformJoinRows_of_notMem {S : ScalarFunctions D} {op : EJoinOp} {pexprScalar : XformScalar D}
    {outerCols innerCols : List CColRef} {outer inner : List (Row D)} {row : Row D} {c : CColRef}
    {v : Datum D} (h : row ∈ xformJoinRows S op pexprScalar outerCols innerCols outer inner)
    (hout : ∀ l ∈ outer, l c = v) (hin : op.keepsInner = true → ∀ r ∈ inner, r c = v)
    (hc : op.keepsInner = true → c ∉ outerCols ∧ c ∉ innerCols) : row c = v := by
  have hleft : ∀ l ∈ outer, op.keepsInner = true → ∀ r, merge innerCols l r c = v :=
    fun l hl hkeeps r => (merge_of_notMem (hc hkeeps).2).trans (hout l hl)
  have houterJoin : op.keepsInner = true → row ∈ Joins.leftOuter
      (fun l r => pexprScalar.isTrue S (merge innerCols l r)) (merge innerCols)
      (merge innerCols · nullRow) outer inner → row c = v := by
    intro hkeeps hrow
    obtain ⟨l, hl, ⟨r, -, -, rfl⟩ | ⟨-, rfl⟩⟩ := Joins.mem_leftOuter hrow
    · exact hleft l hl hkeeps r
    · exact hleft l hl hkeeps nullRow
  cases op with
  | inner =>
    obtain ⟨l, hl, r, -, -, rfl⟩ := Joins.mem_inner.1 h
    exact hleft l hl rfl r
  | leftOuter => exact houterJoin rfl h
  | fullOuter =>
    rcases List.mem_append.1 h with h | h
    · exact houterJoin rfl h
    · obtain ⟨r, hr, rfl⟩ := List.mem_map.1 h
      exact (merge_of_notMem (hc rfl).1).trans (hin rfl r (List.mem_of_mem_filter hr))
  | leftSemi | leftAntiSemi | leftAntiSemiNotIn => exact hout row (List.mem_of_mem_filter h)

/-- Rows are those of the outer references on all columns that are not returned. -/
theorem XformExpr.rows_of_notMem {ex : Engine D} {ctes : ℕ → List (List (Datum D))} {env : Row D}
    {pexpr : XformExpr D} {row : Row D} (h : row ∈ pexpr.rows ex ctes env) {c : CColRef}
    (hc : c ∉ pexpr.outputColumns) : row c = env c := by
  induction pexpr generalizing row with
  | leaf relation | cteConsumer id pdrgpcr =>
    obtain ⟨vals, -, rfl⟩ := List.mem_map.1 h
    exact assign_of_notMem hc
  | select child pexprScalar ih => exact ih (List.mem_of_mem_filter h) hc
  | project child pexprPrL ih =>
    obtain ⟨row', hrow, rfl⟩ := List.mem_map.1 h
    rw [outputColumns, List.mem_append, not_or] at hc
    rw [assign_of_notMem hc.2, ih hrow hc.1]
  | limit child offset count ih =>
    exact ih ((ex.arrange_perm _).subset (List.mem_of_mem_drop (List.mem_of_mem_take h))) hc
  | gbAgg pdrgpcr pdrgpcrMinimal child pexprPrL ih =>
    rw [outputColumns, List.mem_append, not_or] at hc
    rw [rows, groupRows] at h
    split at h
    · rw [List.mem_singleton.1 h, assign_of_notMem hc.2]
    · obtain ⟨row', -, rfl⟩ := List.mem_map.1 h
      rw [assign_of_notMem hc.2, merge_of_notMem hc.1]
  | sequenceProject child pdrgpcr pcr ih =>
    obtain ⟨p, hp, rfl⟩ := List.mem_map.1 h
    rw [outputColumns, List.mem_append, not_or] at hc
    rw [assign_of_notMem hc.2]
    exact ih ((ex.rowNumber_perm pcr pdrgpcr _).subset (List.mem_map_of_mem hp)) hc.1
  | join op outer inner pexprScalar ihOuter ihInner =>
    have hmem : op.keepsInner = true → c ∉ outer.outputColumns ∧ c ∉ inner.outputColumns := by
      intro hkeeps
      rwa [outputColumns, if_pos hkeeps, List.mem_append, not_or] at hc
    refine xformJoinRows_of_notMem h (fun l hl => ihOuter hl ?_)
      (fun hkeeps r hr => ihInner hr (hmem hkeeps).2) hmem
    cases op with
    | leftSemi | leftAntiSemi | leftAntiSemiNotIn => exact hc
    | _ => exact (hmem rfl).1
  | setOp op pdrgpcrOutput pdrgpcrLeft pdrgpcrRight left right ihLeft ihRight =>
    obtain ⟨rows, hrows, hrow⟩ := mem_setOpRows h
    simp only [List.mem_cons, List.not_mem_nil, or_false] at hrows
    rcases hrows with rfl | rfl <;>
    · obtain ⟨row', -, rfl⟩ := List.mem_map.1 hrow
      exact assign_of_notMem hc
  | cteAnchor id child ih => exact ih h hc

/-- The value of an aggregate is that of its arguments. -/
theorem AggCall.eval_map {ex : Engine D} {call : AggCall D} {rows : List (Row D)}
    {f : Row D → Row D} (h : ∀ row ∈ rows, ∀ arg ∈ call.args,
      arg.eval ex.scalars (f row) = arg.eval ex.scalars row) :
    call.eval ex (rows.map f) = call.eval ex rows := by
  have hargs : (rows.map f).map (fun row => call.args.map (XformOperand.eval ex.scalars row)) =
      rows.map fun row => call.args.map (XformOperand.eval ex.scalars row) := by
    rw [List.map_map]
    exact List.map_congr_left fun row hrow => List.map_congr_left (h row hrow)
  rw [eval, eval, hargs]

/-- Selecting the same tuples. -/
theorem SameRows.filter {cols : List CColRef} {rows rows' : List (Row D)} {q : Row D → Bool}
    (h : (rows.map fun row => (q row, cols.map row)).Perm
      (rows'.map fun row => (q row, cols.map row))) :
    SameRows cols (rows.filter q) (rows'.filter q) := by
  have hselected : ∀ l : List (Row D), tuplesOn cols (l.filter q) =
      ((l.map fun row => (q row, cols.map row)).filter Prod.fst).map Prod.snd := by
    intro l
    rw [List.filter_map, List.map_map]
    rfl
  rw [SameRows, hselected, hselected]
  exact (h.filter _).map _

/-! ## Leaders -/

/-- The rows of outer references lead the group of a scalar aggregate. -/
def leaders (env : Row D) (cols : List CColRef) (rows : List (Row D)) : List (Row D) :=
  if cols = [] then [env] else dedupOn cols rows

/-- The row of the group of a leader. -/
def groupRow (ex : Engine D) (env : Row D) (cols : List CColRef) (calls : List (AggCall D))
    (rows : List (Row D)) (l : Row D) : Row D :=
  assign (calls.map (·.pcr)) (calls.map (AggCall.eval ex (rows.filter (sameOn cols l))))
    (merge cols env l)

theorem dedupOn_eq_representatives (cols : List CColRef) (rows : List (Row D)) :
    dedupOn cols rows = Groups.representatives (fun row : Row D => cols.map row) rows := by
  refine Groups.pwFilter_congr fun row _ row' _ => ?_
  rw [sameOn_eq_map, decide_eq_false_iff_not, ne_comm]

@[simp] theorem sameOn_nil (row : Row D) : sameOn [] row = fun _ => true := rfl

theorem merge_map_congr {cols : List CColRef} {env row row' : Row D}
    (h : cols.map row = cols.map row') : merge cols env row = merge cols env row' := by
  funext c
  by_cases hc : c ∈ cols
  · rw [merge_of_mem hc, merge_of_mem hc, List.map_inj_left.1 h c hc]
  · rw [merge_of_notMem hc, merge_of_notMem hc]

section

variable {ex : Engine D} {env : Row D} {cols cols' : List CColRef} {calls calls' : List (AggCall D)}
  {rows rows' : List (Row D)}

theorem groupRow_of_notMem {l : Row D} {c : CColRef} (hc : c ∉ calls.map (·.pcr)) :
    groupRow ex env cols calls rows l c = merge cols env l c := assign_of_notMem hc

/-- The column of an aggregate has its value. -/
theorem groupRow_pcr {l : Row D} (hnd : (calls.map (·.pcr)).Nodup) {call : AggCall D}
    (hcall : call ∈ calls) :
    groupRow ex env cols calls rows l call.pcr = call.eval ex (rows.filter (sameOn cols l)) := by
  obtain ⟨i, hi, rfl⟩ := List.mem_iff_getElem.1 hcall
  have hi' : i < (calls.map (·.pcr)).length := by simpa using hi
  have hpcr : groupRow ex env cols calls rows l (calls.map (·.pcr))[i] = _ := assign_getElem hnd hi'
  rwa [List.getElem_map, List.getD_eq_getElem _ _ (by simpa using hi), List.getElem_map] at hpcr

/-- An aggregate returns a row for each leader. -/
theorem groupRows_eq : groupRows ex env cols calls rows =
    (leaders env cols rows).map (groupRow ex env cols calls rows) := by
  unfold groupRows leaders groupRow
  split
  · next hnil =>
    have henv : merge [] env env = env := funext fun c => merge_of_notMem (by simp)
    rw [hnil, List.map_singleton, sameOn_nil, List.filter_true, henv]
  · rfl

/-- The groups of the leaders are all rows. -/
theorem sum_leaders {M : Type*} [AddCommMonoid M] (F : Row D → M) :
    ((leaders env cols rows).map fun row => ((rows.filter (sameOn cols row)).map F).sum).sum =
      (rows.map F).sum := by
  unfold leaders
  split
  · next hnil => simp [hnil]
  · rw [dedupOn_eq_representatives]
    have hsum := Groups.sum_filter_key 
      (Groups.nodup_map_representatives (fun row : Row D => cols.map row) rows)
      (fun row hrow => Groups.mem_map_representatives.2 (List.mem_map_of_mem hrow)) F
    rw [List.map_map] at hsum
    refine Eq.trans (congrArg List.sum (List.map_congr_left fun row _ => ?_)) hsum
    rw [sameOn_eq_map]
    rfl

/-- Every row has a leader. -/
theorem exists_leader {row : Row D} (hrow : row ∈ rows) :
    ∃ l ∈ leaders env cols rows, sameOn cols row l = true := by
  unfold leaders
  split
  · next hnil => exact ⟨env, by simp, by simp [hnil]⟩
  · exact exists_mem_dedupOn hrow

/-- A leader is a row, unless it leads a group without rows. -/
theorem exists_of_leader (h : cols ≠ [] ∨ rows ≠ []) {l : Row D} (hl : l ∈ leaders env cols rows) :
    ∃ row ∈ rows, sameOn cols row l = true := by
  unfold leaders at hl
  split at hl
  · next hnil =>
    obtain ⟨row, hrow⟩ := List.exists_mem_of_ne_nil rows (h.resolve_left (by simp [hnil]))
    exact ⟨row, hrow, by simp [hnil]⟩
  · exact ⟨l, (dedupOn_sublist cols rows).subset hl, sameOn_refl cols l⟩

theorem groupRows_congr_cols (h : ∀ c, c ∈ cols ↔ c ∈ cols') :
    groupRows ex env cols calls rows = groupRows ex env cols' calls rows := by
  have hnil : cols = [] ↔ cols' = [] := by
    simp only [List.eq_nil_iff_forall_not_mem, h]
  have hsame : (sameOn cols : Row D → Row D → Bool) = sameOn cols' := by
    funext row row'
    rw [Bool.eq_iff_iff, sameOn_iff, sameOn_iff]
    exact forall_congr' fun c => by rw [h c]
  have hdedup : dedupOn cols rows = dedupOn cols' rows := by
    refine Groups.pwFilter_congr fun row _ row' _ => ?_
    rw [hsame]
  have hgroup : groupRow ex env cols calls rows = groupRow ex env cols' calls rows := by
    funext l
    rw [groupRow, groupRow, hsame, merge_congr h]
  rw [groupRows_eq, groupRows_eq, hgroup]
  simp only [leaders, hnil, hdedup]

/-- **Aggregates over rows with the same keys** return the same rows when the groups have the same
    values. -/
theorem sameRows_groupRows (hcols : ∀ c, c ∈ cols ↔ c ∈ cols')
    (hkeys : cols ≠ [] → ∀ vals : List (Datum D),
      (∃ row ∈ rows, cols.map row = vals) ↔ ∃ row ∈ rows', cols.map row = vals)
    (hcalls : List.Forall₂ (fun call call' => call.pcr = call'.pcr ∧ ∀ row,
      call.eval ex (rows.filter (sameOn cols row)) =
        call'.eval ex (rows'.filter (sameOn cols row))) calls calls') :
    SameRows (cols ++ calls.map (·.pcr)) (groupRows ex env cols calls rows)
      (groupRows ex env cols' calls' rows') := by
  have hpcrs : calls.map (·.pcr) = calls'.map (·.pcr) :=
    List.forall₂_eq_eq_eq ▸ List.forall₂_map_left_iff.2
      (List.forall₂_map_right_iff.2 (hcalls.imp fun _ _ h => h.1))
  have hvals : ∀ row : Row D, calls.map (AggCall.eval ex (rows.filter (sameOn cols row))) =
      calls'.map (AggCall.eval ex (rows'.filter (sameOn cols row))) := by
    intro row
    exact List.forall₂_eq_eq_eq ▸ List.forall₂_map_left_iff.2
      (List.forall₂_map_right_iff.2 (hcalls.imp fun _ _ h => h.2 row))
  have hgroup : groupRow ex env cols calls' rows' = groupRow ex env cols calls rows := by
    funext l
    rw [groupRow, groupRow, hvals, hpcrs]
  rw [← groupRows_congr_cols hcols, groupRows_eq, groupRows_eq, hgroup, SameRows, tuplesOn,
    tuplesOn, List.map_map, List.map_map]
  unfold leaders
  split
  · exact List.Perm.refl _
  · next hne =>
    rw [dedupOn_eq_representatives, dedupOn_eq_representatives]
    refine Groups.perm_map_representatives (fun vals => ?_) fun row _ row' _ heq => ?_
    · rw [List.mem_map, List.mem_map, hkeys hne]
    · have hsame : sameOn cols row = sameOn cols row' := by
        rw [sameOn_eq_map, sameOn_eq_map, heq]
      simp only [Function.comp_apply, groupRow, hsame, merge_map_congr heq]

end

end BossOptimizer

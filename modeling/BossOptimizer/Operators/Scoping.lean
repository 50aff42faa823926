import BossOptimizer.Operators.Rows

/-!
# Scoping of columns

Every column is computed in one place: column references are numbered globally, a project element
defines a new column, and the children of a join share no columns (the assertions "Input columns
are not disjoint" in CLogical.cpp:262 and 292). Under this scoping a row of a join carries the rows
it was built from, on all columns their expressions mention.
-/

namespace BossOptimizer

variable {D : Type}

/-- Two rows agree on a set of columns. -/
def AgreeOn (S : Set CColRef) (r s : Row D) : Prop := ∀ c ∈ S, r c = s c

namespace LogicalExpr

/-- The non-system columns of a base table (CLogical.cpp:692). -/
def nonSystemColumns (ptabdesc : CTableDescriptor D) (pdrgpcrOutput : List CColRef) :
    List CColRef :=
  ((pdrgpcrOutput.zip ptabdesc.pdrgpcoldesc).filter (!·.2.isSystemColumn)).map (·.1)

/-- Neither of two siblings mentions a column that the rows of the other one carry. -/
def Apart (left right : LogicalExpr D) : Prop :=
  (∀ c ∈ right.rowColumns, c ∉ left.colrefs) ∧
    ∀ c ∈ left.rowColumns, c ∉ right.colrefs

instance : Std.Symm (@Apart D) where
  symm _ _ h := ⟨h.2, h.1⟩

/-- The scoping of one operator: the columns of a base table are table columns with the
    nullability of their descriptors, new columns are new, an input column of a set operation that
    is also an output column stands at the same place, and a difference returns the columns of its
    first child (CTranslatorDXLToExpr.cpp:671). -/
def WellScoped : LogicalExpr D → Prop
  | .get ptabdesc out _ => out.Nodup ∧ (∀ c ∈ out, c.fTable = true) ∧
      ptabdesc.pdrgpcoldesc.map (·.isNullable) = out.map (·.isNullable) ∧
      (∀ key ∈ ptabdesc.pdrgpbsKeys, ∀ i ∈ key, i < out.length) ∧
      ∀ check ∈ ptabdesc.checkConstraints,
        ∀ c ∈ (check (nonSystemColumns ptabdesc out)).usedColumns, c ∈ out
  | .project child pexprPrL => (pexprPrL.map (·.pcr)).Nodup ∧ ∀ el ∈ pexprPrL, el.pcr ∉ child.colrefs
  | .gbAgg pdrgpcr child pexprPrL => (∀ c ∈ pdrgpcr, c ∈ child.deriveOutputColumns) ∧
      ∀ el ∈ pexprPrL, el.pcr ∉ child.colrefs
  | .setOp op out input children => out.Nodup ∧ input.length = children.length ∧
      (∀ cols ∈ input, cols.length = out.length ∧
        ∀ i j (hi : i < out.length) (hj : j < cols.length), out[i] = cols[j] → i = j) ∧
      (op = .difference ∨ op = .differenceAll → input.head? = some out)
  | .join _ left right _ => Apart left right
  | .naryJoin children _ _ _ => children.Pairwise Apart
  | _ => True

variable [LinearOrder D] {ex : Execution D} {env : Row D}

/-! ## Rows of joins -/

attribute [local simp] WellScoped in
theorem mem_joinRows {op : EJoin} {p : ScalarExpr D} {leftCols rightCols : List CColRef}
    {left right : List (Row D)} {r : Row D}
    (h : r ∈ joinRows ex op p leftCols rightCols left right) :
    (∃ l ∈ left, ∃ s ∈ right, isTrue ex.scalars p r = true ∧ r = merge rightCols l s) ∨
      (op ≠ .inner ∧ ∃ l ∈ left, r = merge rightCols l nullRow) ∨
      (op = .fullOuter ∧ ∃ s ∈ right, r = merge leftCols s nullRow) := by
  have hleft : ∀ {op}, op ≠ .inner → r ∈ Joins.leftOuter
      (fun l r => isTrue ex.scalars p (merge rightCols l r)) (merge rightCols)
      (merge rightCols · nullRow) left right →
      (∃ l ∈ left, ∃ s ∈ right, isTrue ex.scalars p r = true ∧ r = merge rightCols l s) ∨
        (op ≠ EJoin.inner ∧ ∃ l ∈ left, r = merge rightCols l nullRow) := by
    intro op hop h
    obtain ⟨l, hl, ⟨s, hs, hp, rfl⟩ | ⟨-, rfl⟩⟩ := Joins.mem_leftOuter h
    · exact .inl ⟨l, hl, s, hs, hp, rfl⟩
    · exact .inr ⟨hop, l, hl, rfl⟩
  cases op with
  | inner =>
    obtain ⟨l, hl, s, hs, hp, rfl⟩ := Joins.mem_inner.1 h
    exact .inl ⟨l, hl, s, hs, hp, rfl⟩
  | leftOuter => exact (hleft (by simp) h).imp_right .inl
  | fullOuter =>
    rcases List.mem_append.1 h with h | h
    · exact (hleft (by simp) h).imp_right .inl
    · obtain ⟨s, hs, rfl⟩ := List.mem_map.1 h
      exact .inr (.inr ⟨rfl, s, List.mem_of_mem_filter hs, rfl⟩)

/-- One step of an n-ary join. -/
theorem mem_naryStep {o : Option (ScalarExpr D)} {cols : List CColRef} {acc rows : List (Row D)}
    {r : Row D} (h : r ∈ (match o with
      | none => Joins.inner (fun _ _ => true) (merge cols) acc rows
      | some on => Joins.leftOuter (fun l r => isTrue ex.scalars on (merge cols l r)) (merge cols)
          (merge cols · nullRow) acc rows)) :
    ∃ a ∈ acc, (∃ s ∈ rows, r = merge cols a s) ∨ (o ≠ none ∧ r = merge cols a nullRow) := by
  cases o with
  | none =>
    obtain ⟨a, ha, s, hs, -, rfl⟩ := Joins.mem_inner.1 h
    exact ⟨a, ha, .inl ⟨s, hs, rfl⟩⟩
  | some on =>
    obtain ⟨a, ha, ⟨s, hs, -, rfl⟩ | ⟨-, rfl⟩⟩ := Joins.mem_leftOuter h
    · exact ⟨a, ha, .inl ⟨s, hs, rfl⟩⟩
    · exact ⟨a, ha, .inr ⟨by simp, rfl⟩⟩

/-- The operands of an n-ary join. -/
def operands (ex : Execution D) (env : Row D) (es : List (LogicalExpr D)) :
    List (List (Row D) × List CColRef) :=
  es.map fun e => (e.rows ex env, e.rowColumns)

theorem operands_eq_zip (es : List (LogicalExpr D)) :
    (rowsAll ex env es).zip (es.map rowColumns) = operands ex env es := by
  rw [rowsAll_eq_map, operands, List.zip_map']

/-- Outside the columns of the children a row of an n-ary join is the row it started from; on the
    columns of an inner join child it is a row of that child. -/
theorem mem_naryJoinRows {idx : Option (List ℕ)} {onPreds : List (ScalarExpr D)}
    {es : List (LogicalExpr D)} (hapart : es.Pairwise Apart) {j : ℕ} {acc : List (Row D)}
    {r : Row D} (h : r ∈ naryJoinRows ex idx onPreds j acc (operands ex env es)) :
    ∃ a ∈ acc, (∀ c ∉ rowColumnsAll es, r c = a c) ∧
      ∀ k e, es[k]? = some e → isInnerJoinChild idx (j + k) = true →
        ∃ s ∈ e.rows ex env, ∀ c ∈ e.rowColumns, r c = s c := by
  induction es generalizing j acc with
  | nil => exact ⟨r, h, fun _ _ => rfl, by simp⟩
  | cons e es ih =>
    obtain ⟨hhead, hrest⟩ := List.pairwise_cons.1 hapart
    obtain ⟨a', ha', hout, hinner⟩ := ih hrest h
    obtain ⟨a, ha, hstep⟩ := mem_naryStep ha'
    refine ⟨a, ha, fun c hc => ?_, fun k e' he' hk => ?_⟩
    · rw [rowColumnsAll, List.mem_append, not_or] at hc
      rw [hout c hc.2]
      obtain ⟨s, -, rfl⟩ | ⟨-, rfl⟩ := hstep <;> exact merge_of_notMem hc.1
    · cases k with
      | succ k => exact hinner k e' he' (by rwa [Nat.add_assoc, Nat.add_comm 1 k])
      | zero =>
        obtain rfl : e = e' := by simpa using he'
        obtain ⟨s, hs, rfl⟩ | ⟨hnone, -⟩ := hstep
        · refine ⟨s, hs, fun c hc => ?_⟩
          rw [hout c ?_, merge_of_mem hc]
          intro hlater
          obtain ⟨e', he', hc'⟩ := mem_rowColumnsAll.1 hlater
          exact (hhead e' he').2 c hc (rowColumns_subset_colrefs e' c hc')
        · exact absurd (onPredicate_eq_none.2 hk) hnone

/-- A limit returns some of the rows of its child, in another order. -/
theorem limit_rows (id : ℕ) (child : LogicalExpr D) (offset count : LimitScalar) :
    ∃ l : List (Row D), l.Perm (child.rows ex env) ∧
      ((limit id child offset count).rows ex env).Sublist l := by
  refine ⟨ex.arrange id (child.rows ex env), ex.arrange_perm id _, ?_⟩
  rw [rows]
  split
  · exact List.drop_sublist _ _
  · exact (List.take_sublist _ _).trans (List.drop_sublist _ _)

theorem mem_limit {id : ℕ} {child : LogicalExpr D} {offset count : LimitScalar} {r : Row D}
    (h : r ∈ (limit id child offset count).rows ex env) : r ∈ child.rows ex env := by
  obtain ⟨l, hl, hsub⟩ := @limit_rows D _ ex env id child offset count
  exact hl.subset (hsub.subset h)

/-! ## Rows extend the outer row -/

/-- A row of an expression is the outer row on the columns it does not carry. -/
theorem rows_agree {e : LogicalExpr D} (hs : Everywhere WellScoped e) :
    ∀ r ∈ e.rows ex env, ∀ c ∉ e.rowColumns, r c = env c := by
  induction e using LogicalExpr.induction with
  | get ptabdesc out unused | constTableGet out data =>
    intro r hr c hc
    obtain ⟨vals, -, rfl⟩ := List.mem_map.1 hr
    exact assign_of_notMem hc
  | select child p ih =>
    exact fun r hr => ih (hs.child (by simp [children])) r (List.mem_of_mem_filter hr)
  | project child l ih =>
    intro r hr c hc
    rw [rowColumns, List.mem_append, not_or] at hc
    obtain ⟨row, hrow, hr⟩ := List.mem_flatMap.1 hr
    obtain ⟨k, -, rfl⟩ := List.mem_map.1 hr
    rw [assign_of_notMem hc.2]
    exact ih (hs.child (by simp [children])) row hrow c hc.1
  | gbAgg cols child l ih =>
    intro r hr c hc
    rw [rowColumns, List.mem_append, not_or] at hc
    rw [rows, gbAggRows] at hr
    split at hr
    · rw [List.mem_singleton.1 hr, assign_of_notMem hc.2]
    · obtain ⟨row, -, rfl⟩ := List.mem_map.1 hr
      rw [assign_of_notMem hc.2, merge_of_notMem hc.1]
  | limit id child offset count ih =>
    exact fun r hr => ih (hs.child (by simp [children])) r (mem_limit hr)
  | setOp op out input children ih =>
    intro r hr c hc
    obtain ⟨rows, hrows, hr⟩ := mem_setOpRows hr
    rw [rowColumns, List.mem_append, not_or] at hc
    obtain ⟨i, hi, rfl⟩ := List.mem_iff_getElem.1 hrows
    rw [List.getElem_zipWith] at hr
    obtain ⟨row, hrow, rfl⟩ := List.mem_map.1 hr
    rw [assign_of_notMem hc.1]
    simp only [rowsAll_eq_map, List.length_zipWith, List.length_map, lt_inf_iff] at hi
    simp only [rowsAll_eq_map, List.getElem_map] at hrow
    have hmem : children[i] ∈ children := List.getElem_mem hi.1
    exact ih _ hmem (hs.child hmem) row hrow c fun h => hc.2 (mem_rowColumnsAll.2 ⟨_, hmem, h⟩)
  | join op left right p ihl ihr =>
    intro r hr c hc
    rw [rowColumns, List.mem_append, not_or] at hc
    obtain ⟨l, hl, s, hs', -, rfl⟩ | ⟨-, l, hl, rfl⟩ | ⟨-, s, hs', rfl⟩ := mem_joinRows hr
    · rw [merge_of_notMem hc.2]
      exact ihl (hs.child (by simp [children])) l hl c hc.1
    · rw [merge_of_notMem hc.2]
      exact ihl (hs.child (by simp [children])) l hl c hc.1
    · rw [merge_of_notMem hc.1]
      exact ihr (hs.child (by simp [children])) s hs' c hc.2
  | naryJoin es idx preds on ih =>
    intro r hr c hc
    rw [rows, operands_eq_zip] at hr
    obtain ⟨a, ha, hout, -⟩ := mem_naryJoinRows hs.here (List.mem_of_mem_filter hr)
    rw [hout c hc, List.mem_singleton.1 ha]

/-! ## What a projected row carries -/

omit [LinearOrder D] in
/-- The rows of one projection agree on the columns of the child. -/
theorem projectRow_agree {child : LogicalExpr D} {l : List (CScalarProjectElement D)}
    (hs : WellScoped (.project child l)) {row r : Row D} (hr : r ∈ projectRow ex l row) :
    AgreeOn child.colrefs r row := by
  intro c hc
  obtain ⟨k, -, rfl⟩ := List.mem_map.1 hr
  refine assign_of_notMem fun hmem => ?_
  obtain ⟨el, hel, rfl⟩ := List.mem_map.1 hmem
  exact hs.2 el hel hc

omit [LinearOrder D] in
/-- The columns of a row of a projection. -/
theorem projectRow_el {child : LogicalExpr D} {l : List (CScalarProjectElement D)}
    (hs : WellScoped (.project child l)) {row r : Row D} (hr : r ∈ projectRow ex l row)
    {el : CScalarProjectElement D} (hel : el ∈ l) :
    ∃ k, r el.pcr = el.scalar.value ex row k := by
  obtain ⟨k, -, rfl⟩ := List.mem_map.1 hr
  obtain ⟨i, hi, rfl⟩ := List.mem_iff_getElem.1 hel
  have hi' : i < (l.map (·.pcr)).length := by simpa using hi
  refine ⟨k, ?_⟩
  have hget := @assign_getElem D _ hs.1 (l.map fun el => el.scalar.value ex row k) row i hi'
  simpa [hi] using hget

/-! ## What a joined row carries -/

omit [LinearOrder D] in
/-- On the left side a merged row is the left row. -/
theorem agree_left {left right : LogicalExpr D} (h : Apart left right) (l s : Row D) :
    AgreeOn left.colrefs (merge right.rowColumns l s) l :=
  fun c hc => merge_of_notMem fun hmem => h.1 c hmem hc

/-- On the right side it is the right row, since both extend the outer row. -/
theorem agree_right {left right : LogicalExpr D} (h : Apart left right)
    (hl : Everywhere WellScoped left) (hr : Everywhere WellScoped right) {l s : Row D}
    (hlmem : l ∈ left.rows ex env) (hsmem : s ∈ right.rows ex env) :
    AgreeOn right.colrefs (merge right.rowColumns l s) s := by
  intro c hc
  by_cases hmem : c ∈ right.rowColumns
  · exact merge_of_mem hmem
  · rw [merge_of_notMem hmem, rows_agree hr s hsmem c hmem]
    exact rows_agree hl l hlmem c fun hleft => h.2 c hleft hc

/-- A row of an n-ary join carries a row of every inner join child. -/
theorem agree_naryChild {es : List (LogicalExpr D)} {idx : Option (List ℕ)} {preds : ScalarExpr D}
    {onPreds : List (ScalarExpr D)} (hs : Everywhere WellScoped (.naryJoin es idx preds onPreds))
    {r : Row D} (hr : r ∈ (naryJoin es idx preds onPreds).rows ex env) {k : ℕ} {e : LogicalExpr D}
    (he : es[k]? = some e) (hk : isInnerJoinChild idx k = true) :
    ∃ s ∈ e.rows ex env, AgreeOn e.colrefs r s := by
  have hapart : es.Pairwise Apart := hs.here
  rw [rows, operands_eq_zip] at hr
  obtain ⟨a, ha, hout, hinner⟩ := mem_naryJoinRows hapart (List.mem_of_mem_filter hr)
  obtain ⟨s, hsmem, hrs⟩ := hinner k e he (by rwa [Nat.zero_add])
  have hemem : e ∈ es := List.mem_of_getElem? he
  refine ⟨s, hsmem, fun c hc => ?_⟩
  by_cases hce : c ∈ e.rowColumns
  · exact hrs c hce
  -- another child does not return the column
  have hnone : c ∉ rowColumnsAll es := by
    intro hall
    obtain ⟨e', he', hc'⟩ := mem_rowColumnsAll.1 hall
    have hne : e' ≠ e := by rintro rfl; exact hce hc'
    exact (hapart.forall he' hemem hne).2 c hc' hc
  rw [hout c hnone, List.mem_singleton.1 ha]
  exact (rows_agree (hs.child hemem) s hsmem c hce).symm

end LogicalExpr

end BossOptimizer

import BossOptimizer.Operators.CrossProducts
import BossOptimizer.Xforms.XformExpr

/-!
# Pushing a left outer join below an n-ary join

`CXformPushDownLeftOuterJoin` makes a left outer join over an n-ary join a child of it, over the
children whose columns its predicate uses. The code takes the first of these children whether or not
there is one, and it puts the scalar child of the n-ary join below an operator without
`m_lojChildPredIndexes`: of a join with outer join children that is a list of predicates, which
the new operator does not know how to read. Everywhere else the rows stay the same.
-/

namespace BossOptimizer

variable {D : Type}

namespace CXformPushDownLeftOuterJoin

open LogicalExpr

/-- What a transformation adds to its results. -/
inductive Added (D : Type) where
  | nothing
  /-- A `CLogicalNAryJoin` without `m_lojChildPredIndexes` over a `CScalarNAryJoinPredList`: no
      predicate and no ON predicates. -/
  | malformed
  | pexpr (pexprResult : LogicalExpr D)

/-- `CXformPushDownLeftOuterJoin::Exfp` (CXformPushDownLeftOuterJoin.cpp:63). -/
def Exfp : LogicalExpr D → Bool
  | .join .leftOuter (.naryJoin ..) _ (.const _) => false
  | .join .leftOuter (.naryJoin ..) _ _ => true
  | _ => false

/-- `!pcrsOutput->IsDisjoint(pcrsLOJUsed)`. -/
def fUsed (pexprLOJScalarChild : ScalarExpr D) (pexprChild : LogicalExpr D) : Bool :=
  pexprChild.deriveOutputColumns.any (· ∈ pexprLOJScalarChild.usedColumns)

/-- The outer child of the new join: the children it needs, in a cross product if they are
    several. -/
def pexprLOJOuterChild : List (LogicalExpr D) → Except Fault (LogicalExpr D)
  | [] => .error .outOfBounds
  | [pexprChild] => .ok pexprChild
  | pdrgpexprLOJChildren => .ok (.naryJoin pdrgpexprLOJChildren none (.const (some true)) [])

/-- The n-ary join of the other children and the new outer join. -/
def pexprNAryJoinNew (children : List (LogicalExpr D)) (innerJoinPreds : ScalarExpr D)
    (onPreds : List (ScalarExpr D)) (pexprLOJInnerChild : LogicalExpr D)
    (pexprLOJScalarChild : ScalarExpr D) (pexprOuter : LogicalExpr D) : LogicalExpr D :=
  .naryJoin (children.filter (!fUsed pexprLOJScalarChild ·) ++
    [.join .leftOuter pexprOuter pexprLOJInnerChild pexprLOJScalarChild]) none innerJoinPreds
    onPreds

/-- `CXformPushDownLeftOuterJoin::Transform` (CXformPushDownLeftOuterJoin.cpp:101), of a match that
    is promising. -/
def Transform (PexprNormalize : LogicalExpr D → LogicalExpr D) (pexpr : LogicalExpr D) :
    Except Fault (Added D) :=
  match Exfp pexpr, pexpr with
  | true, .join .leftOuter (.naryJoin children lojChildPredIndexes innerJoinPreds onPreds)
      pexprLOJInnerChild pexprLOJScalarChild => do
    let pexprOuter ← pexprLOJOuterChild (children.filter (fUsed pexprLOJScalarChild))
    -- the children that are not used, the new join and the scalar child
    if (children.filter (!fUsed pexprLOJScalarChild ·)).length + 2 < 3 then return .nothing
    match lojChildPredIndexes with
    | some _ => return .malformed
    | none => return .pexpr (PexprNormalize (pexprNAryJoinNew children innerJoinPreds onPreds
        pexprLOJInnerChild pexprLOJScalarChild pexprOuter))
  | _, _ => .ok .nothing

/-- A predicate reads its columns only. -/
def Reads [LinearOrder D] (I : Interpretation D) (pexprScalar : ScalarExpr D) : Prop :=
  ∀ row row' : Row D, (∀ c ∈ pexprScalar.usedColumns, row c = row' c) →
    pexprScalar.eval I row = pexprScalar.eval I row'

variable [LinearOrder D] {ex : Execution D} {env : Row D}
  {children : List (LogicalExpr D)} {lojChildPredIndexes : Option (List ℕ)}
  {innerJoinPreds pexprLOJScalarChild : ScalarExpr D} {onPreds : List (ScalarExpr D)}
  {pexprLOJInnerChild pexprOuter : LogicalExpr D}

theorem Reads.isTrue_congr {pexprScalar : ScalarExpr D} (h : Reads ex.scalars pexprScalar)
    {row row' : Row D} (hrow : ∀ c ∈ pexprScalar.usedColumns, row c = row' c) :
    isTrue ex.scalars pexprScalar row = isTrue ex.scalars pexprScalar row' := by
  rw [Bool.eq_iff_iff, isTrue_iff, isTrue_iff]
  exact iff_of_eq (congrArg (Truth.holds false) (h row row' hrow))

/-! ## The rows of the children -/

omit [LinearOrder D] in
theorem rowColumns_outerChild {used : List (LogicalExpr D)}
    (h : pexprLOJOuterChild used = .ok pexprOuter) : pexprOuter.rowColumns = rowColumnsAll used := by
  match used, h with
  | [pexprChild], h =>
    cases h
    simp [rowColumnsAll]
  | _ :: _ :: _, h =>
    cases h
    rfl

theorem operandColumns_operands (ex : Execution D) (env : Row D) (es : List (LogicalExpr D)) :
    operandColumns (operands ex env es) = rowColumnsAll es := by
  induction es with
  | nil => rfl
  | cons e es ih => rw [rowColumnsAll, ← ih]; rfl

/-- The outer child returns the product of the children it was made of. -/
theorem rows_outerChild {used : List (LogicalExpr D)}
    (hscoped : ∀ e ∈ used, Everywhere WellScoped e)
    (h : pexprLOJOuterChild used = .ok pexprOuter) :
    pexprOuter.rows ex env = crossRows [env] (operands ex env used) := by
  match used, h with
  | [pexprChild], h =>
    cases h
    have hself : ∀ r ∈ pexprOuter.rows ex env, merge pexprOuter.rowColumns env r = r := by
      intro r hr
      funext c
      by_cases hc : c ∈ pexprOuter.rowColumns
      · rw [merge_of_mem hc]
      · rw [merge_of_notMem hc, rows_agree (hscoped pexprOuter (by simp)) r hr c hc]
    simp [crossRows, operands, List.map_id'', List.map_congr_left hself]
  | e :: e' :: rest, h =>
    cases h
    rw [rows, operands_eq_zip, naryJoinRows_none, List.filter_eq_self]
    exact fun r _ => isTrue_iff.2 rfl

/-! ## The rows of the joins -/

/-- The rows of the outer join for one row of the outer side. -/
def outerJoined (ex : Execution D) (env : Row D) (pexprLOJScalarChild : ScalarExpr D)
    (pexprLOJInnerChild : LogicalExpr D) : Row D → List (Row D) :=
  let pair := merge pexprLOJInnerChild.rowColumns
  Joins.matchesOrPad (fun l r => isTrue ex.scalars pexprLOJScalarChild (pair l r)) pair
    (pair · nullRow) (pexprLOJInnerChild.rows ex env)

theorem rows_leftOuter (outer : LogicalExpr D) :
    (LogicalExpr.join .leftOuter outer pexprLOJInnerChild pexprLOJScalarChild).rows ex env =
      (outer.rows ex env).flatMap
        (outerJoined ex env pexprLOJScalarChild pexprLOJInnerChild) := rfl

/-- What scoping gives for a left outer join over an n-ary join: the predicate of the outer join
    reads output columns of the children, of the inner child, or outer references. -/
structure Scoped (children : List (LogicalExpr D)) (lojChildPredIndexes : Option (List ℕ))
    (innerJoinPreds : ScalarExpr D) (onPreds : List (ScalarExpr D))
    (pexprLOJInnerChild : LogicalExpr D) (pexprLOJScalarChild : ScalarExpr D) : Prop where
  wellScoped : Everywhere WellScoped (.join .leftOuter
    (.naryJoin children lojChildPredIndexes innerJoinPreds onPreds) pexprLOJInnerChild
    pexprLOJScalarChild)
  visible : ∀ e ∈ children, ∀ c ∈ pexprLOJScalarChild.usedColumns, c ∈ e.rowColumns →
    c ∈ e.deriveOutputColumns

variable (hscoped : Scoped children lojChildPredIndexes innerJoinPreds onPreds pexprLOJInnerChild
  pexprLOJScalarChild)

section

include hscoped

omit [LinearOrder D] in
theorem Scoped.naryJoin :
    Everywhere WellScoped (.naryJoin children lojChildPredIndexes innerJoinPreds onPreds) :=
  hscoped.wellScoped.child (by simp [LogicalExpr.children])

omit [LinearOrder D] in
theorem Scoped.child {e : LogicalExpr D} (he : e ∈ children) : Everywhere WellScoped e :=
  hscoped.naryJoin.child he

omit [LinearOrder D] in
theorem Scoped.apart : children.Pairwise Apart := hscoped.naryJoin.here

omit [LinearOrder D] in
/-- The n-ary join does not read columns of the inner child. -/
theorem Scoped.innerJoinPreds_notMem : ∀ c ∈ innerJoinPreds.usedColumns,
    c ∉ pexprLOJInnerChild.rowColumns := by
  intro c hc hmem
  exact hscoped.wellScoped.here.1 c hmem (.inl (.inr hc))

omit [LinearOrder D] in
/-- The predicate of the outer join reads no column of the children it is pushed past. -/
theorem Scoped.unused_notMem : ∀ c ∈ pexprLOJScalarChild.usedColumns,
    c ∉ rowColumnsAll (children.filter (!fUsed pexprLOJScalarChild ·)) := by
  intro c hc hmem
  obtain ⟨e, he, hce⟩ := mem_rowColumnsAll.1 hmem
  obtain ⟨he, hunused⟩ := List.mem_filter.1 he
  have hused : fUsed pexprLOJScalarChild e = true :=
    List.any_eq_true.2 ⟨c, hscoped.visible e he c hc hce, by simpa using hc⟩
  simp [hused] at hunused

/-- **The outer join of a product row**: of the part of the used children, with the rest of the
    row. -/
theorem Scoped.outerJoined_merge (hreads : Reads ex.scalars pexprLOJScalarChild) {u a : Row D}
    (hu : u ∈ crossRows [env] (operands ex env
      (children.filter (!fUsed pexprLOJScalarChild ·))))
    (ha : a ∈ crossRows [env] (operands ex env (children.filter (fUsed pexprLOJScalarChild)))) :
    outerJoined ex env pexprLOJScalarChild pexprLOJInnerChild
        (merge (rowColumnsAll (children.filter (fUsed pexprLOJScalarChild))) u a) =
      (outerJoined ex env pexprLOJScalarChild pexprLOJInnerChild a).map
        (merge (rowColumnsAll (children.filter (fUsed pexprLOJScalarChild)) ++
          pexprLOJInnerChild.rowColumns) u) := by
  set usedCols := rowColumnsAll (children.filter (fUsed pexprLOJScalarChild)) with husedCols
  have hpair : ∀ d : Row D, merge pexprLOJInnerChild.rowColumns (merge usedCols u a) d =
      merge (usedCols ++ pexprLOJInnerChild.rowColumns) u
        (merge pexprLOJInnerChild.rowColumns a d) := by
    intro d
    funext c
    by_cases hc : c ∈ pexprLOJInnerChild.rowColumns
    · rw [merge_of_mem hc, merge_of_mem (List.mem_append_right _ hc), merge_of_mem hc]
    · rw [merge_of_notMem hc]
      by_cases hcu : c ∈ usedCols
      · rw [merge_of_mem hcu, merge_of_mem (List.mem_append_left _ hcu), merge_of_notMem hc]
      · rw [merge_of_notMem hcu, merge_of_notMem]
        rw [List.mem_append, not_or]
        exact ⟨hcu, hc⟩
  unfold outerJoined
  refine Joins.matchesOrPad_eq_map (fun d _ => ?_) (fun d _ => hpair d) (hpair nullRow)
  refine hreads.isTrue_congr fun c hc => ?_
  by_cases hcd : c ∈ pexprLOJInnerChild.rowColumns
  · rw [merge_of_mem hcd, merge_of_mem hcd]
  rw [merge_of_notMem hcd, merge_of_notMem hcd]
  by_cases hcu : c ∈ usedCols
  · rw [merge_of_mem hcu]
  -- an outer reference: both rows have it from the environment
  rw [merge_of_notMem hcu]
  have hunused := hscoped.unused_notMem c hc
  rw [← operandColumns_operands ex env] at hunused
  rw [husedCols, ← operandColumns_operands ex env] at hcu
  rw [crossRows_of_notMem hu hunused, crossRows_of_notMem ha hcu]

/-- The predicates of the n-ary join have the truth value of the row of the outer side. -/
theorem Scoped.isTrue_outerJoined (hpreds : Reads ex.scalars innerJoinPreds) {l x : Row D}
    (hx : x ∈ outerJoined ex env pexprLOJScalarChild pexprLOJInnerChild l) :
    isTrue ex.scalars innerJoinPreds x = isTrue ex.scalars innerJoinPreds l := by
  have hmerge : ∀ d : Row D, isTrue ex.scalars innerJoinPreds
      (merge pexprLOJInnerChild.rowColumns l d) = isTrue ex.scalars innerJoinPreds l :=
    fun d => hpreds.isTrue_congr fun c hc => merge_of_notMem (hscoped.innerJoinPreds_notMem c hc)
  unfold outerJoined at hx
  obtain ⟨d, -, -, rfl⟩ | ⟨-, rfl⟩ := Joins.mem_matchesOrPad hx
  · exact hmerge d
  · exact hmerge nullRow

/-- **The pushed join returns the rows of the join it was made of**, for an n-ary join without
    outer join children. -/
theorem Scoped.rows_perm (hnone : lojChildPredIndexes = none)
    (hreads : Reads ex.scalars pexprLOJScalarChild) (hpreds : Reads ex.scalars innerJoinPreds)
    (houter : pexprLOJOuterChild (children.filter (fUsed pexprLOJScalarChild)) =
      .ok pexprOuter) :
    ((pexprNAryJoinNew children innerJoinPreds onPreds pexprLOJInnerChild pexprLOJScalarChild
        pexprOuter).rows ex env).Perm
      ((LogicalExpr.join .leftOuter (.naryJoin children lojChildPredIndexes innerJoinPreds onPreds)
        pexprLOJInnerChild pexprLOJScalarChild).rows ex env) := by
  subst hnone
  set used := children.filter (fUsed pexprLOJScalarChild) with hused
  set unused := children.filter (!fUsed pexprLOJScalarChild ·) with hunused
  set products := crossRows [env] (operands ex env unused) with hproducts
  set outers := crossRows [env] (operands ex env used) with houters
  set joined := outerJoined ex env pexprLOJScalarChild pexprLOJInnerChild with hjoined
  have hrows : pexprOuter.rows ex env = outers :=
    rows_outerChild (fun e he => hscoped.child (List.mem_of_mem_filter he)) houter
  have hcols : pexprOuter.rowColumns = rowColumnsAll used := rowColumns_outerChild houter
  -- the new join: each product row of the unused children with each row of the outer join
  have hnew : (pexprNAryJoinNew children innerJoinPreds onPreds pexprLOJInnerChild
      pexprLOJScalarChild pexprOuter).rows ex env = products.flatMap fun u => outers.flatMap fun a =>
        ((joined a).map (merge (rowColumnsAll used ++ pexprLOJInnerChild.rowColumns) u)).filter
          (isTrue ex.scalars innerJoinPreds) := by
    rw [pexprNAryJoinNew, rows, operands_eq_zip, naryJoinRows_none, operands, List.map_append,
      crossRows_append,
      List.map_singleton, rows_leftOuter, hrows, rowColumns, hcols]
    simp only [crossRows, List.foldl_cons, List.foldl_nil, List.filter_flatMap, List.map_flatMap]
    rfl
  -- the old join: the same product rows, filtered before they are joined
  have hperm : (children.map fun e => (e.rows ex env, e.rowColumns)).Perm
      (operands ex env unused ++ operands ex env used) := by
    rw [operands, operands, ← List.map_append]
    have hsplit := List.filter_append_perm (fUsed pexprLOJScalarChild) children
    exact (hsplit.symm.trans List.perm_append_comm).map _
  have hdisj : (children.map fun e => (e.rows ex env, e.rowColumns)).Pairwise
      fun o o' => ∀ c ∈ o.2, c ∉ o'.2 := by
    refine List.pairwise_map.2 (hscoped.apart.imp fun {e e'} hee c hc hmem => ?_)
    exact hee.2 c hc (rowColumns_subset_colrefs e' c hmem)
  have hold : ((LogicalExpr.join .leftOuter (.naryJoin children none innerJoinPreds onPreds)
      pexprLOJInnerChild pexprLOJScalarChild).rows ex env).Perm
        (products.flatMap fun u => outers.flatMap fun a =>
          if isTrue ex.scalars innerJoinPreds (merge (rowColumnsAll used) u a) then
            joined (merge (rowColumnsAll used) u a) else []) := by
    rw [rows_leftOuter, rows, operands_eq_zip, naryJoinRows_none]
    have hcross := @crossRows_perm _ [env] _ _ hperm hdisj
    rw [crossRows_append_eq env, operandColumns_operands] at hcross
    refine ((hcross.filter _).flatMap_right _).trans (List.Perm.of_eq ?_)
    rw [List.filter_flatMap, List.flatMap_assoc]
    refine List.flatMap_congr fun u _ => ?_
    rw [List.filter_map, List.flatMap_map, filter_flatMap_eq]
    rfl
  rw [hnew]
  refine List.Perm.trans (List.Perm.of_eq ?_) hold.symm
  refine List.flatMap_congr fun u hu => List.flatMap_congr fun a ha => ?_
  rw [hjoined, ← hscoped.outerJoined_merge hreads hu ha]
  split
  · next htrue =>
    refine List.filter_eq_self.2 fun x hx => ?_
    rw [hscoped.isTrue_outerJoined hpreds hx, htrue]
  · next hfalse =>
    refine List.filter_eq_nil_iff.2 fun x hx => ?_
    rwa [hscoped.isTrue_outerJoined hpreds hx]

end

/-! ## The transformation -/

/-- The transformation ends, and what it adds is an expression with the same rows. -/
def Preserves (ex : Execution D) (pexpr : LogicalExpr D) : Except Fault (Added D) → Prop
  | .error _ => False
  | .ok .nothing => True
  | .ok .malformed => False
  | .ok (.pexpr pexprResult) => ∀ env,
    SameRows pexpr.deriveOutputColumns (pexprResult.rows ex env) (pexpr.rows ex env)

include hscoped in
/-- **The join is pushed down correctly** exactly when its predicate uses a column of some child,
    and the n-ary join has no outer join children if there is a child the predicate does not
    use. -/
theorem preserves_transform_iff {PexprNormalize : LogicalExpr D → LogicalExpr D}
    (hexfp : Exfp (.join .leftOuter (.naryJoin children lojChildPredIndexes innerJoinPreds onPreds)
      pexprLOJInnerChild pexprLOJScalarChild) = true)
    (hreads : Reads ex.scalars pexprLOJScalarChild) (hpreds : Reads ex.scalars innerJoinPreds)
    (hnormalize : ∀ pexprOuter env, SameRows
      (LogicalExpr.join .leftOuter (.naryJoin children lojChildPredIndexes innerJoinPreds onPreds)
        pexprLOJInnerChild pexprLOJScalarChild).deriveOutputColumns
      ((PexprNormalize (pexprNAryJoinNew children innerJoinPreds onPreds pexprLOJInnerChild
        pexprLOJScalarChild pexprOuter)).rows ex env)
      ((pexprNAryJoinNew children innerJoinPreds onPreds pexprLOJInnerChild
        pexprLOJScalarChild pexprOuter).rows ex env)) :
    Preserves ex (.join .leftOuter (.naryJoin children lojChildPredIndexes innerJoinPreds onPreds)
        pexprLOJInnerChild pexprLOJScalarChild)
      (Transform PexprNormalize (.join .leftOuter (.naryJoin children lojChildPredIndexes
        innerJoinPreds onPreds) pexprLOJInnerChild pexprLOJScalarChild)) ↔
    (∃ e ∈ children, fUsed pexprLOJScalarChild e = true) ∧
      ((∃ e ∈ children, fUsed pexprLOJScalarChild e = false) → lojChildPredIndexes = none) := by
  have hunused : (∃ e ∈ children, fUsed pexprLOJScalarChild e = false) ↔
      ¬(children.filter (!fUsed pexprLOJScalarChild ·)).length + 2 < 3 := by
    have hnil : (children.filter (!fUsed pexprLOJScalarChild ·)).length + 2 < 3 ↔
        children.filter (!fUsed pexprLOJScalarChild ·) = [] := by
      rw [← List.length_eq_zero_iff]
      omega
    rw [hnil, List.filter_eq_nil_iff]
    simp
  rw [Transform.eq_def, hexfp]
  simp only
  cases houter : pexprLOJOuterChild (children.filter (fUsed pexprLOJScalarChild)) with
  | error fault =>
    refine iff_of_false id fun h => ?_
    obtain ⟨⟨e, he, hused⟩, -⟩ := h
    have hmem := List.mem_filter.2 ⟨he, hused⟩
    match hlist : children.filter (fUsed pexprLOJScalarChild), hmem with
    | [_], _ => rw [hlist] at houter; cases houter
    | _ :: _ :: _, _ => rw [hlist] at houter; cases houter
  | ok pexprOuter =>
    have hsome : ∃ e ∈ children, fUsed pexprLOJScalarChild e = true := by
      match hlist : children.filter (fUsed pexprLOJScalarChild) with
      | [] => rw [hlist] at houter; cases houter
      | e :: _ => exact ⟨e, List.mem_filter.1 (hlist ▸ List.mem_cons_self)⟩
    rw [and_iff_right hsome, hunused]
    simp only [bind, Except.bind]
    split
    · next hfew => exact iff_of_true trivial fun h => absurd hfew h
    · next hmany =>
      rw [forall_prop_of_true hmany]
      cases hidx : lojChildPredIndexes with
      | some idx => exact iff_of_false id (by simp)
      | none =>
        refine iff_of_true (fun env => (hidx ▸ hnormalize pexprOuter env).trans ?_) rfl
        exact SameRows.of_perm (hidx ▸ hscoped.rows_perm hidx hreads hpreds houter)

/-! ### Tables -/

/-- An engine without scalars of its own. -/
def plainExecution : Execution ℕ where
  scalars := ⟨fun _ _ => ⊥, fun _ _ => none, fun _ _ => none⟩
  table _ := []
  setReturning _ _ := []
  aggregate _ _ := ⊥
  limitScalar _ _ := none
  arrange _ rows := rows
  arrange_perm _ rows := List.Perm.refl rows

/-- A table of one column. -/
def oneColumnTable (id : ℕ) (values : List ℕ) : LogicalExpr ℕ :=
  .constTableGet [⟨id, true, true, true⟩] (values.map fun n => [(n : Datum ℕ)])

/-- `a = d` of the columns 1 and 3. -/
def firstEqualsThird : ScalarExpr ℕ :=
  .cmp .eq (.ident ⟨1, true, true, true⟩) (.ident ⟨3, true, true, true⟩)

/-- `d = 1` of the column 3. -/
def thirdIsOne : ScalarExpr ℕ := .cmp .eq (.ident ⟨3, true, true, true⟩) (.const (1 : ℕ))

theorem reads_firstEqualsThird : Reads plainExecution.scalars firstEqualsThird := by
  intro row row' h
  have hcols : firstEqualsThird.usedColumns =
      [⟨1, true, true, true⟩, ⟨3, true, true, true⟩] := rfl
  rw [hcols] at h
  simp only [firstEqualsThird, ScalarExpr.eval, ScalarOperand.eval, h _ (List.mem_cons_self ..),
    h _ (List.mem_cons_of_mem _ (List.mem_cons_self ..))]

theorem scoped_tables : Scoped [oneColumnTable 1 [1, 2], oneColumnTable 2 [5]] none
    (.const (some true)) [] (oneColumnTable 3 [1]) firstEqualsThird where
  wellScoped := by
    have hleaf : ∀ id values, Everywhere WellScoped (oneColumnTable id values) := by
      simp [oneColumnTable, WellScoped]
    rw [everywhere_join, everywhere_iff]
    refine ⟨?_, ⟨?_, ?_⟩, hleaf 3 [1]⟩
    · simp [WellScoped, Apart, rowColumns, rowColumnsAll, colrefs, colrefsAll, oneColumnTable,
        ScalarExpr.usedColumns]
    · simp [WellScoped, Apart, rowColumns, colrefs, oneColumnTable]
    · simpa [LogicalExpr.children] using ⟨hleaf 1 [1, 2], hleaf 2 [5]⟩
  visible := by decide

theorem preserves_transform_tables :
    Preserves plainExecution (.join .leftOuter (.naryJoin [oneColumnTable 1 [1, 2],
        oneColumnTable 2 [5]] none (.const (some true)) []) (oneColumnTable 3 [1]) firstEqualsThird)
      (Transform id (.join .leftOuter (.naryJoin [oneColumnTable 1 [1, 2],
        oneColumnTable 2 [5]] none (.const (some true)) []) (oneColumnTable 3 [1])
          firstEqualsThird)) :=
  (preserves_transform_iff scoped_tables rfl reads_firstEqualsThird (fun _ _ _ => rfl)
    fun _ _ => SameRows.refl _ _).2 ⟨by decide, fun _ => rfl⟩

/-- **Without a used child the code reads past the end of an array**; with an outer join child it
    builds a tree that is no expression. -/
theorem transform_fails :
    Transform id (.join .leftOuter (.naryJoin [oneColumnTable 1 [1, 2], oneColumnTable 2 [5]]
        none (.const (some true)) []) (oneColumnTable 3 [1]) thirdIsOne) = .error .outOfBounds ∧
      Transform id (.join .leftOuter (.naryJoin [oneColumnTable 1 [1, 2], oneColumnTable 2 [5]]
        (some [0, 1]) (.const (some true)) [.const (some true)]) (oneColumnTable 3 [1])
          firstEqualsThird) = .ok .malformed :=
  ⟨rfl, rfl⟩

end CXformPushDownLeftOuterJoin

end BossOptimizer

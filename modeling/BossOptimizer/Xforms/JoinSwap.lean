import BossOptimizer.Xforms.GroupedRows

/-!
# Swapping two joins

`CXformUtils::PexprSwapJoins` takes the top join of two below the bottom one, onto the child of the
bottom join whose columns its predicate uses. One of the two joins only selects rows of its outer
child, by a condition on that row and all inner rows; a selection passes through the other join.
-/

namespace BossOptimizer

variable {D : Type}

namespace CXformUtils

/-- `FSwapableJoinType` (CXformUtils.cpp:373). -/
def FSwapableJoinType : EJoinOp → Bool
  | .leftSemi | .leftAntiSemi | .leftAntiSemiNotIn | .inner => true
  | _ => false

/-- The assertions at the head of `PexprSwapJoins` (CXformUtils.cpp:401). -/
def FSwapable (eopidTop eopidBottom : EJoinOp) : Bool :=
  FSwapableJoinType eopidTop && FSwapableJoinType eopidBottom &&
    (eopidTop != .inner || eopidBottom != .inner)

/-- `PexprSwapJoins` (CXformUtils.cpp:393). -/
def PexprSwapJoins : XformExpr D → Option (XformExpr D)
  | .join opTop (.join opBottom pexprBottomOuter pexprBottomInner pexprScalarBottom) pexprRight
      pexprScalarTop =>
    let fDisjointWithBottomOuter :=
      pexprScalarTop.usedColumns.all (· ∉ pexprBottomOuter.outputColumns)
    let fDisjointWithBottomInner :=
      pexprScalarTop.usedColumns.all (· ∉ pexprBottomInner.outputColumns)
    if !fDisjointWithBottomOuter && !fDisjointWithBottomInner then none
    else if fDisjointWithBottomOuter && !fDisjointWithBottomInner then
      some (.join opBottom (.join opTop pexprBottomInner pexprRight pexprScalarTop) pexprBottomOuter
        pexprScalarBottom)
    else
      some (.join opBottom (.join opTop pexprBottomOuter pexprRight pexprScalarTop) pexprBottomInner
        pexprScalarBottom)
  | _ => none

end CXformUtils

/-! ## Joins that select outer rows -/

variable [LinearOrder D] {S : ScalarFunctions D} {op : EJoinOp} {pexprScalar : XformScalar D}
  {innerCols : List CColRef} {inner : List (Row D)}

/-- The condition on an outer row of a semi join or an anti-semi join. -/
def EJoinOp.selects (S : ScalarFunctions D) (op : EJoinOp) (pexprScalar : XformScalar D)
    (innerCols : List CColRef) (inner : List (Row D)) (l : Row D) : Bool :=
  match op with
  | .leftSemi => inner.any fun r => pexprScalar.isTrue S (merge innerCols l r)
  | .leftAntiSemi => !inner.any fun r => pexprScalar.isTrue S (merge innerCols l r)
  | .leftAntiSemiNotIn => inner.all fun r => pexprScalar.eval S (merge innerCols l r) = some false
  | _ => true

theorem xformJoinRows_of_selects (hop : op.keepsInner = false) {outerCols : List CColRef}
    {outer : List (Row D)} : xformJoinRows S op pexprScalar outerCols innerCols outer inner =
      outer.filter (op.selects S pexprScalar innerCols inner) := by
  cases op <;> first | rfl | cases hop

/-- The condition reads the columns of the predicate. -/
theorem EJoinOp.selects_congr {l l' : Row D} (h : ∀ r ∈ inner, ∀ c ∈ pexprScalar.usedColumns,
    merge innerCols l r c = merge innerCols l' r c) :
    op.selects S pexprScalar innerCols inner l = op.selects S pexprScalar innerCols inner l' := by
  have heval : ∀ r ∈ inner, pexprScalar.eval S (merge innerCols l r) =
      pexprScalar.eval S (merge innerCols l' r) := fun r hr => XformScalar.eval_congr (h r hr)
  have hany : (inner.any fun r => pexprScalar.isTrue S (merge innerCols l r)) =
      inner.any fun r => pexprScalar.isTrue S (merge innerCols l' r) := by
    rw [Bool.eq_iff_iff, List.any_eq_true, List.any_eq_true]
    refine exists_congr fun r => and_congr_right fun hr => ?_
    rw [XformScalar.isTrue, XformScalar.isTrue, heval r hr]
  cases op with
  | leftSemi => exact hany
  | leftAntiSemi => exact congrArg (!·) hany
  | leftAntiSemiNotIn =>
    rw [selects, selects, Bool.eq_iff_iff, List.all_eq_true, List.all_eq_true]
    exact forall₂_congr fun r hr => by rw [heval r hr]
  | inner | leftOuter | fullOuter => rfl

/-! ## Selections pass through joins -/

section

variable {ex : Engine D} {ctes : ℕ → List (List (Datum D))} {env : Row D} {op' : EJoinOp}
  {pexprA pexprB pexprC : XformExpr D} {pexprScalar' : XformScalar D}

/-- Two selections. -/
theorem rows_swap_selections (hop : op.keepsInner = false) (hop' : op'.keepsInner = false) :
    (XformExpr.join op (.join op' pexprA pexprB pexprScalar') pexprC pexprScalar).rows ex ctes env =
      (XformExpr.join op' (.join op pexprA pexprC pexprScalar) pexprB pexprScalar').rows ex ctes
        env := by
  rw [XformExpr.rows, XformExpr.rows, XformExpr.rows, XformExpr.rows, xformJoinRows_of_selects hop,
    xformJoinRows_of_selects hop', xformJoinRows_of_selects hop, xformJoinRows_of_selects hop']
  exact List.filter_comm _ _ _

/-- A selection of the rows of a join by the columns of its outer child. -/
theorem rows_select_outer (hop : op.keepsInner = false)
    (hused : ∀ c ∈ pexprScalar.usedColumns, c ∉ pexprB.outputColumns) :
    (XformExpr.join op (.join .inner pexprA pexprB pexprScalar') pexprC pexprScalar).rows ex ctes
        env =
      (XformExpr.join .inner (.join op pexprA pexprC pexprScalar) pexprB pexprScalar').rows ex ctes
        env := by
  rw [XformExpr.rows, XformExpr.rows, XformExpr.rows, XformExpr.rows, xformJoinRows_of_selects hop,
    xformJoinRows_of_selects hop, xformJoinRows, xformJoinRows]
  refine (Joins.inner_filter_left fun a _ b _ => ?_).symm
  refine EJoinOp.selects_congr fun r _ c hc => ?_
  by_cases hin : c ∈ pexprC.outputColumns
  · rw [merge_of_mem hin, merge_of_mem hin]
  · rw [merge_of_notMem hin, merge_of_notMem hin, merge_of_notMem (hused c hc)]

/-- A selection of the rows of a join by the columns of its inner child. -/
theorem sameRows_select_inner (hop : op.keepsInner = false)
    (hdisj : ∀ c ∈ pexprA.outputColumns, c ∉ pexprB.outputColumns)
    (hused : ∀ c ∈ pexprScalar.usedColumns, c ∉ pexprA.outputColumns) :
    SameRows (pexprA.outputColumns ++ pexprB.outputColumns)
      ((XformExpr.join .inner (.join op pexprB pexprC pexprScalar) pexprA pexprScalar').rows ex ctes
        env)
      ((XformExpr.join op (.join .inner pexprA pexprB pexprScalar') pexprC pexprScalar).rows ex ctes
        env) := by
  set A := pexprA.outputColumns with hA
  set B := pexprB.outputColumns with hB
  -- the joined rows of the two orders are the same
  have hpair : ∀ a ∈ pexprA.rows ex ctes env, ∀ b ∈ pexprB.rows ex ctes env,
      merge A b a = merge B a b := by
    intro a ha b hb
    funext c
    by_cases hcA : c ∈ A
    · rw [merge_of_mem hcA, merge_of_notMem (hdisj c hcA)]
    · by_cases hcB : c ∈ B
      · rw [merge_of_notMem hcA, merge_of_mem hcB]
      · rw [merge_of_notMem hcA, merge_of_notMem hcB, XformExpr.rows_of_notMem ha hcA,
          XformExpr.rows_of_notMem hb hcB]
  have hselects : ∀ b ∈ pexprB.rows ex ctes env, ∀ a ∈ pexprA.rows ex ctes env,
      op.selects ex.scalars pexprScalar pexprC.outputColumns (pexprC.rows ex ctes env)
        (merge A b a) = op.selects ex.scalars pexprScalar pexprC.outputColumns
          (pexprC.rows ex ctes env) b := by
    refine fun b _ a _ => EJoinOp.selects_congr fun r _ c hc => ?_
    by_cases hin : c ∈ pexprC.outputColumns
    · rw [merge_of_mem hin, merge_of_mem hin]
    · rw [merge_of_notMem hin, merge_of_notMem hin, merge_of_notMem (hused c hc)]
  refine SameRows.of_perm ?_
  rw [XformExpr.rows, XformExpr.rows, XformExpr.rows, XformExpr.rows, xformJoinRows_of_selects hop,
    xformJoinRows_of_selects hop, xformJoinRows, xformJoinRows, Joins.inner_filter_left hselects]
  refine List.Perm.filter _ (Joins.inner_swap.trans (List.Perm.of_eq ?_))
  refine Joins.inner_congr (fun a ha b hb => ?_) fun a ha b hb => hpair a ha b hb
  rw [hpair a ha b hb]

end

/-! ## The swap -/

namespace CXformUtils

variable {ex : Engine D} {ctes : ℕ → List (List (Datum D))} {env : Row D}
  {opTop opBottom : EJoinOp} {pexprBottomOuter pexprBottomInner pexprRight pexprNew : XformExpr D}
  {pexprScalarTop pexprScalarBottom : XformScalar D} {outerRefs : List CColRef}

/-- One of the two joins only selects rows. -/
theorem fSwapable_cases (hop : FSwapable opTop opBottom = true) :
    opBottom.keepsInner = false ∧ (opTop.keepsInner = false ∨ opTop = .inner) ∨
      opBottom = .inner ∧ opTop.keepsInner = false := by
  revert hop
  cases opTop <;> cases opBottom <;> decide

theorem outputColumns_of_selects {op : EJoinOp} {pexprOuter pexprInner : XformExpr D}
    {pexprScalar : XformScalar D} (hop : op.keepsInner = false) :
    (XformExpr.join op pexprOuter pexprInner pexprScalar).outputColumns =
      pexprOuter.outputColumns := by
  rw [XformExpr.outputColumns, hop]
  rfl

theorem outputColumns_inner {pexprOuter pexprInner : XformExpr D} {pexprScalar : XformScalar D} :
    (XformExpr.join .inner pexprOuter pexprInner pexprScalar).outputColumns =
      pexprOuter.outputColumns ++ pexprInner.outputColumns := rfl

/-- **Swapped joins return the rows of the joins**, for all admitted types. The children return
    different columns, none of them an outer reference. -/
theorem swapJoins_rewrites (hop : FSwapable opTop opBottom = true)
    (hscoped : (XformExpr.join opTop (.join opBottom pexprBottomOuter pexprBottomInner
      pexprScalarBottom) pexprRight pexprScalarTop).WellScoped outerRefs)
    (hdisj : [pexprBottomOuter.outputColumns, pexprBottomInner.outputColumns,
      pexprRight.outputColumns, outerRefs].Pairwise List.Disjoint)
    (h : PexprSwapJoins (.join opTop (.join opBottom pexprBottomOuter pexprBottomInner
      pexprScalarBottom) pexprRight pexprScalarTop) = some pexprNew) :
    XformExpr.Rewrites ex ctes env outerRefs (.join opTop (.join opBottom pexprBottomOuter
      pexprBottomInner pexprScalarBottom) pexprRight pexprScalarTop) pexprNew := by
  obtain ⟨⟨hscopedOuter, hscopedInner, husedBottom⟩, hscopedRight, husedTop⟩ := hscoped
  simp only [List.pairwise_cons, List.mem_cons, List.not_mem_nil, or_false, forall_eq_or_imp,
    forall_eq, false_imp_iff, implies_true, List.Pairwise.nil, and_true] at hdisj
  obtain ⟨⟨hOI, hOR, hOrefs⟩, ⟨hIR, hIrefs⟩, hRrefs⟩ := hdisj
  set outer := pexprBottomOuter.outputColumns with houter
  set inner := pexprBottomInner.outputColumns with hinner
  set right := pexprRight.outputColumns with hright
  rw [PexprSwapJoins] at h
  rcases fSwapable_cases hop with ⟨hbottom, htop⟩ | ⟨rfl, htop⟩
  · -- the bottom join returns outer rows, which the top join matches
    rw [outputColumns_of_selects hbottom] at husedTop
    have hdisjoint : ∀ c ∈ pexprScalarTop.usedColumns, c ∉ inner := by
      intro c hc hmem
      rcases List.mem_append.1 (husedTop c hc) with hmem' | hmem'
      · rcases List.mem_append.1 hmem' with hmem' | hmem'
        · exact hOI hmem' hmem
        · exact hIR hmem hmem'
      · exact hIrefs hmem hmem'
    have hall : pexprScalarTop.usedColumns.all (· ∉ inner) = true := by simpa using hdisjoint
    rw [← houter, ← hinner, hall] at h
    simp only [Bool.not_true, Bool.and_false, Bool.false_eq_true, if_false] at h
    cases h
    have hbottomUsed : ∀ c ∈ pexprScalarBottom.usedColumns, c ∉ right := by
      intro c hc hmem
      rcases List.mem_append.1 (husedBottom c hc) with hmem' | hmem'
      · rcases List.mem_append.1 hmem' with hmem' | hmem'
        · exact hOR hmem' hmem
        · exact hIR hmem' hmem
      · exact hRrefs hmem hmem'
    rcases htop with htop | rfl
    · refine ⟨⟨⟨hscopedOuter, hscopedRight, husedTop⟩, hscopedInner, ?_⟩, ?_, ?_⟩
      · rwa [outputColumns_of_selects htop]
      · rw [outputColumns_of_selects htop, outputColumns_of_selects hbottom,
          outputColumns_of_selects hbottom, outputColumns_of_selects htop]
        exact List.Subset.refl _
      · rw [rows_swap_selections htop hbottom]
        exact SameRows.refl _ _
    · refine ⟨⟨⟨hscopedOuter, hscopedRight, husedTop⟩, hscopedInner, fun c hc => ?_⟩, ?_, ?_⟩
      · have hmem := husedBottom c hc
        simp only [outputColumns_inner, List.mem_append] at hmem ⊢
        tauto
      · rw [outputColumns_of_selects hbottom, outputColumns_inner, outputColumns_inner,
          outputColumns_of_selects hbottom]
        exact List.Subset.refl _
      · rw [rows_select_outer hbottom hbottomUsed]
        exact SameRows.refl _ _
  · -- the top join selects rows of the bottom one by the columns of one child
    rw [outputColumns_inner] at husedTop
    split at h
    · cases h
    · next hboth =>
      split at h
      · next hone =>
        cases h
        have hdisjoint : ∀ c ∈ pexprScalarTop.usedColumns, c ∉ outer := by
          simpa using ((Bool.and_eq_true _ _).mp hone).1
        refine ⟨⟨⟨hscopedInner, hscopedRight, fun c hc => ?_⟩, hscopedOuter, fun c hc => ?_⟩, ?_, ?_⟩
        · have hmem := husedTop c hc
          have hnot := hdisjoint c hc
          simp only [List.mem_append] at hmem ⊢
          tauto
        · have hmem := husedBottom c hc
          rw [outputColumns_of_selects htop]
          simp only [List.mem_append] at hmem ⊢
          tauto
        · rw [outputColumns_of_selects htop, outputColumns_inner, outputColumns_inner,
            outputColumns_of_selects htop]
          exact fun c hc => List.mem_append.2 (List.mem_append.1 hc).symm
        · rw [outputColumns_of_selects htop, outputColumns_inner]
          exact sameRows_select_inner htop (fun c hc hmem => hOI hc hmem) hdisjoint
      · next hnone =>
        cases h
        have hdisjoint : ∀ c ∈ pexprScalarTop.usedColumns, c ∉ inner := by
          simp only [Bool.and_eq_true, Bool.not_eq_true', not_and, Bool.not_eq_false] at hboth hnone
          have hall : pexprScalarTop.usedColumns.all (· ∉ inner) = true :=
            (Bool.eq_false_or_eq_true _).elim hnone hboth
          simpa using hall
        refine ⟨⟨⟨hscopedOuter, hscopedRight, fun c hc => ?_⟩, hscopedInner, ?_⟩, ?_, ?_⟩
        · have hmem := husedTop c hc
          have hnot := hdisjoint c hc
          simp only [List.mem_append] at hmem ⊢
          tauto
        · rwa [outputColumns_of_selects htop]
        · rw [outputColumns_of_selects htop, outputColumns_inner, outputColumns_inner,
            outputColumns_of_selects htop]
          exact List.Subset.refl _
        · rw [rows_select_outer htop hdisjoint]
          exact SameRows.refl _ _

/-- A table of one column, and the joins of three of them: `column 1` is not in `column 3`, among
    the pairs of `column 1` and `column 2`. -/
def column (id : ℕ) : CColRef := ⟨id, true, true, true⟩

def columnTable (id : ℕ) (values : List (Datum ℕ)) : XformExpr ℕ :=
  .leaf ⟨[column id], [], false, fun _ => values.map fun v => [v], fun _ _ _ => rfl⟩

def notInPairs : XformExpr ℕ :=
  .join .leftAntiSemiNotIn
    (.join .inner (columnTable 1 [(5 : ℕ), ⊥, (7 : ℕ)]) (columnTable 2 [(7 : ℕ), (8 : ℕ)])
      (.const (some true)))
    (columnTable 3 [(7 : ℕ)]) (.cmp .eq (.ident (column 2)) (.ident (column 3)))

theorem swapJoins_rewrites_notInPairs :
    ∃ pexprNew, PexprSwapJoins notInPairs = some pexprNew ∧
      XformExpr.Rewrites (Engine.inOrder fun _ => .count) (fun _ => []) (fun _ => ⊥) [] notInPairs
        pexprNew := by
  have hscoped : notInPairs.WellScoped [] := by
    simp [notInPairs, columnTable, XformExpr.WellScoped, XformScalar.usedColumns,
      XformOperand.usedColumns, XformExpr.outputColumns, EJoinOp.keepsInner]
  have hdisj : [(columnTable 1 [(5 : ℕ), ⊥, (7 : ℕ)]).outputColumns,
      (columnTable 2 [(7 : ℕ), (8 : ℕ)]).outputColumns, (columnTable 3 [(7 : ℕ)]).outputColumns,
      []].Pairwise List.Disjoint := by
    simp [columnTable, XformExpr.outputColumns, column]
  exact ⟨_, rfl, swapJoins_rewrites rfl hscoped hdisj rfl⟩

end CXformUtils

end BossOptimizer

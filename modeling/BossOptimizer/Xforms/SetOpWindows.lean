import BossOptimizer.Xforms.XformExpr

/-!
# Set operations with duplicates as joins of windows

`CXformIntersectAll2LeftSemiJoin` and `CXformDifferenceAll2LeftAntiSemiJoin` number the rows of both
inputs within the groups of equal tuples and join them on the tuples and the numbers, NULL being
equal to NULL. Whichever duplicate has which number, a tuple that occurs `m` times on the left and
`n` times on the right has `min m n` rows with a partner and `m - n` without.
-/

namespace BossOptimizer

variable {D : Type}

namespace XformExpr

/-- `CXformUtils::PexprWindowWithRowNumber` (CXformUtils.cpp:2371). Without an array of columns
    there is one partition. -/
def PexprWindowWithRowNumber (m_aul : ℕ) (pexprWindowChild : XformExpr D)
    (pdrgpcrInput : Option (List CColRef)) : XformExpr D :=
  .sequenceProject pexprWindowChild (pdrgpcrInput.getD []) (CColumnFactory.PcrCreate m_aul)

end XformExpr

/-- The join of the two windows that both transformations build. -/
def pexprWindowJoin (op : EJoinOp) (m_aul : ℕ) (pdrgpcrLeft pdrgpcrRight : List CColRef)
    (pexprLeftChild pexprRightChild : XformExpr D) : XformExpr D :=
  let pexprLeftWindow := XformExpr.PexprWindowWithRowNumber m_aul pexprLeftChild (some pdrgpcrLeft)
  let pexprRightWindow :=
    XformExpr.PexprWindowWithRowNumber (m_aul + 1) pexprRightChild (some pdrgpcrRight)
  .join op pexprLeftWindow pexprRightWindow (.PexprConjINDFCond
    (pdrgpcrLeft ++ [CColumnFactory.PcrCreate m_aul])
    (pdrgpcrRight ++ [CColumnFactory.PcrCreate (m_aul + 1)]))

/-- `CXformIntersectAll2LeftSemiJoin::Transform` (CXformIntersectAll2LeftSemiJoin.cpp:59). -/
def CXformIntersectAll2LeftSemiJoin.Transform (m_aul : ℕ) : XformExpr D → Option (XformExpr D)
  | .setOp .intersectAll _ pdrgpcrLeft pdrgpcrRight pexprLeftChild pexprRightChild =>
    some (pexprWindowJoin .leftSemi m_aul pdrgpcrLeft pdrgpcrRight pexprLeftChild pexprRightChild)
  | _ => none

/-- `CXformDifferenceAll2LeftAntiSemiJoin::Transform`
    (CXformDifferenceAll2LeftAntiSemiJoin.cpp:48). -/
def CXformDifferenceAll2LeftAntiSemiJoin.Transform (m_aul : ℕ) :
    XformExpr D → Option (XformExpr D)
  | .setOp .differenceAll _ pdrgpcrLeft pdrgpcrRight pexprLeftChild pexprRightChild =>
    some (pexprWindowJoin .leftAntiSemi m_aul pdrgpcrLeft pdrgpcrRight pexprLeftChild
      pexprRightChild)
  | _ => none

section

variable [LinearOrder D]

/-! ## The rows of the windows -/

variable {ex : Engine D} {ctes : ℕ → List (List (Datum D))} {env : Row D} {m_aul : ℕ}
  {pdrgpcrLeft pdrgpcrRight : List CColRef} {pexprLeftChild pexprRightChild : XformExpr D}

/-- The rows of an expression with their numbers in a window. -/
def numberedRows (ex : Engine D) (ctes : ℕ → List (List (Datum D))) (env : Row D) (m_aul : ℕ)
    (pexprChild : XformExpr D) (pdrgpcr : List CColRef) : List (Row D × ℕ) :=
  ex.rowNumber (CColumnFactory.PcrCreate m_aul) pdrgpcr (pexprChild.rows ex ctes env)

/-- A row of the window. -/
def windowRow (ex : Engine D) (m_aul : ℕ) (p : Row D × ℕ) : Row D :=
  assign [CColumnFactory.PcrCreate m_aul] [(ex.int8 p.2 : Datum D)] p.1

theorem windowRow_number (p : Row D × ℕ) :
    windowRow ex m_aul p (CColumnFactory.PcrCreate m_aul) = (ex.int8 p.2 : Datum D) := by
  simp [windowRow, assign]

theorem windowRow_of_lt {c : CColRef} (hc : c.id < m_aul) (p : Row D × ℕ) :
    windowRow ex m_aul p c = p.1 c := by
  refine assign_of_notMem fun hmem => ?_
  rw [List.mem_singleton.1 hmem] at hc
  exact lt_irrefl _ hc

theorem map_windowRow {cols : List CColRef} (hcols : ∀ c ∈ cols, c.id < m_aul) (p : Row D × ℕ) :
    cols.map (windowRow ex m_aul p) = cols.map p.1 :=
  List.map_congr_left fun c hc => windowRow_of_lt (hcols c hc) p

/-- What the column factory and the binding of the set operation keep up: the columns of the
    children are older than the new ones, and those of the left child are not among those of the
    right one. -/
structure Bound (m_aul : ℕ) (pdrgpcrLeft pdrgpcrRight : List CColRef)
    (pexprLeftChild pexprRightChild : XformExpr D) : Prop where
  length_eq : pdrgpcrLeft.length = pdrgpcrRight.length
  left : ∀ c ∈ pdrgpcrLeft, c ∈ pexprLeftChild.outputColumns
  right : ∀ c ∈ pdrgpcrRight, c ∈ pexprRightChild.outputColumns
  disjoint : ∀ c ∈ pexprLeftChild.outputColumns, c ∉ pexprRightChild.outputColumns
  lt_left : ∀ c ∈ pexprLeftChild.outputColumns, c.id < m_aul
  lt_right : ∀ c ∈ pexprRightChild.outputColumns, c.id < m_aul

/-- **Rows of the two windows match** when they have the same tuple and the same number. -/
theorem isTrue_windows
    (h : Bound m_aul pdrgpcrLeft pdrgpcrRight pexprLeftChild pexprRightChild)
    (p q : Row D × ℕ) :
    XformScalar.isTrue ex.scalars (.PexprConjINDFCond (pdrgpcrLeft ++ [CColumnFactory.PcrCreate m_aul])
        (pdrgpcrRight ++ [CColumnFactory.PcrCreate (m_aul + 1)]))
        (merge (pexprRightChild.outputColumns ++ [CColumnFactory.PcrCreate (m_aul + 1)])
          (windowRow ex m_aul p) (windowRow ex (m_aul + 1) q)) =
      decide (pdrgpcrLeft.map p.1 = pdrgpcrRight.map q.1 ∧ p.2 = q.2) := by
  have hlen : (pdrgpcrLeft ++ [CColumnFactory.PcrCreate m_aul]).length =
      (pdrgpcrRight ++ [CColumnFactory.PcrCreate (m_aul + 1)]).length := by simp [h.length_eq]
  set cols := pexprRightChild.outputColumns ++ [CColumnFactory.PcrCreate (m_aul + 1)] with hcols
  have hnew : ∀ c : CColRef, c.id < m_aul → c ∉ pexprRightChild.outputColumns → c ∉ cols := by
    intro c hlt hnot hmem
    rcases List.mem_append.1 hmem with hmem | hmem
    · exact hnot hmem
    · rw [List.mem_singleton.1 hmem] at hlt
      simp [CColumnFactory.PcrCreate] at hlt
  have hnumber : CColumnFactory.PcrCreate m_aul ∉ cols := by
    intro hmem
    rcases List.mem_append.1 hmem with hmem | hmem
    · exact absurd (h.lt_right _ hmem) (lt_irrefl _)
    · simp [CColumnFactory.PcrCreate] at hmem
  have hleft : pdrgpcrLeft.map (merge cols (windowRow ex m_aul p) (windowRow ex (m_aul + 1) q)) =
      pdrgpcrLeft.map p.1 := by
    refine List.map_congr_left fun c hc => ?_
    have hlt := h.lt_left c (h.left c hc)
    rw [merge_of_notMem (hnew c hlt (h.disjoint c (h.left c hc))), windowRow_of_lt hlt]
  have hright : pdrgpcrRight.map (merge cols (windowRow ex m_aul p) (windowRow ex (m_aul + 1) q)) =
      pdrgpcrRight.map q.1 := by
    refine List.map_congr_left fun c hc => ?_
    have hlt := h.lt_right c (h.right c hc)
    rw [merge_of_mem (List.mem_append_left _ (h.right c hc)),
      windowRow_of_lt (hlt.trans (Nat.lt_succ_self _))]
  rw [Bool.eq_iff_iff, decide_eq_true_eq, XformScalar.isTrue_pexprConjINDFCond hlen, List.map_append,
    List.map_append, hleft, hright, List.map_singleton, List.map_singleton,
    merge_of_notMem hnumber, merge_of_mem (by simp [hcols]), windowRow_number, windowRow_number]
  constructor
  · intro heq
    obtain ⟨htuple, hnum⟩ := List.append_inj' heq rfl
    exact ⟨htuple, ex.int8_injective (WithBot.coe_injective (List.singleton_inj.1 hnum))⟩
  · rintro ⟨htuple, hnum⟩
    rw [htuple, hnum]

/-- How often a tuple is in the result of a join of the windows that keeps the left rows whose
    tests come out in one way. -/
theorem count_windows
    (h : Bound m_aul pdrgpcrLeft pdrgpcrRight pexprLeftChild pexprRightChild)
    (keep : Bool → Bool) (tuple : List (Datum D)) :
    (tuplesOn pdrgpcrLeft (((numberedRows ex ctes env m_aul pexprLeftChild pdrgpcrLeft).map
        (windowRow ex m_aul)).filter fun l => keep
          (((numberedRows ex ctes env (m_aul + 1) pexprRightChild pdrgpcrRight).map
            (windowRow ex (m_aul + 1))).any fun r => XformScalar.isTrue ex.scalars
              (.PexprConjINDFCond (pdrgpcrLeft ++ [CColumnFactory.PcrCreate m_aul])
                (pdrgpcrRight ++ [CColumnFactory.PcrCreate (m_aul + 1)]))
              (merge (pexprRightChild.outputColumns ++ [CColumnFactory.PcrCreate (m_aul + 1)])
                l r)))).count tuple =
      (numberedRows ex ctes env m_aul pexprLeftChild pdrgpcrLeft).countP fun p =>
        decide (pdrgpcrLeft.map p.1 = tuple) &&
          keep ((numberedRows ex ctes env (m_aul + 1) pexprRightChild pdrgpcrRight).any fun q =>
            pdrgpcrLeft.map p.1 = pdrgpcrRight.map q.1 ∧ p.2 = q.2) := by
  rw [tuplesOn, List.count_eq_countP, List.countP_map, List.filter_map, List.countP_map,
    List.countP_filter]
  refine List.countP_congr fun p _ => ?_
  have hlt : ∀ c ∈ pdrgpcrLeft, c.id < m_aul := fun c hc => h.lt_left c (h.left c hc)
  simp only [Function.comp_apply, List.any_map, Function.comp_def, isTrue_windows h,
    map_windowRow hlt, Bool.and_eq_true, beq_iff_eq, decide_eq_true_eq]

/-- **The semi join returns a tuple as often as both inputs have it, the anti-semi join as often as
    the left input has it more than the right one**, for every numbering of the duplicates. -/
theorem count_tuplesOn_transform
    (h : Bound m_aul pdrgpcrLeft pdrgpcrRight pexprLeftChild pexprRightChild)
    (pdrgpcrOutput : List CColRef) (tuple : List (Datum D)) :
    ∃ pexprLSJ pexprLASJ,
      CXformIntersectAll2LeftSemiJoin.Transform m_aul (.setOp .intersectAll pdrgpcrOutput
        pdrgpcrLeft pdrgpcrRight pexprLeftChild pexprRightChild) = some pexprLSJ ∧
      CXformDifferenceAll2LeftAntiSemiJoin.Transform m_aul (.setOp .differenceAll pdrgpcrOutput
        pdrgpcrLeft pdrgpcrRight pexprLeftChild pexprRightChild) = some pexprLASJ ∧
      (tuplesOn pdrgpcrLeft (pexprLSJ.rows ex ctes env)).count tuple =
        min ((tuplesOn pdrgpcrLeft (pexprLeftChild.rows ex ctes env)).count tuple)
          ((tuplesOn pdrgpcrRight (pexprRightChild.rows ex ctes env)).count tuple) ∧
      (tuplesOn pdrgpcrLeft (pexprLASJ.rows ex ctes env)).count tuple =
        (tuplesOn pdrgpcrLeft (pexprLeftChild.rows ex ctes env)).count tuple -
          (tuplesOn pdrgpcrRight (pexprRightChild.rows ex ctes env)).count tuple := by
  have hcount : ∀ (cols : List CColRef) (rows : List (Row D)),
      (tuplesOn cols rows).count tuple = rows.countP fun row => cols.map row = tuple := by
    intro cols rows
    rw [tuplesOn, List.count_eq_countP, List.countP_map]
    refine List.countP_congr fun row _ => ?_
    simp
  have hl := ex.numbers_rowNumber (CColumnFactory.PcrCreate m_aul) pdrgpcrLeft
    (pexprLeftChild.rows ex ctes env)
  have hr := ex.numbers_rowNumber (CColumnFactory.PcrCreate (m_aul + 1)) pdrgpcrRight
    (pexprRightChild.rows ex ctes env)
  refine ⟨_, _, rfl, rfl, ?_, ?_⟩
  · rw [hcount pdrgpcrLeft (pexprLeftChild.rows ex ctes env), hcount pdrgpcrRight,
      ← RowNumbers.countP_partner hl hr]
    exact count_windows h id tuple
  · rw [hcount pdrgpcrLeft (pexprLeftChild.rows ex ctes env), hcount pdrgpcrRight,
      ← RowNumbers.countP_no_partner hl hr]
    exact count_windows h (!·) tuple

/-- NULL twice on the left and once on the right. -/
theorem count_tuplesOn_transform_null :
    ∃ pexprLSJ pexprLASJ,
      CXformIntersectAll2LeftSemiJoin.Transform 3 (.setOp .intersectAll [⟨1, true, true, true⟩]
        [⟨1, true, true, true⟩] [⟨2, true, true, true⟩]
        (.leaf ⟨[⟨1, true, true, true⟩], [], false, fun _ => [[⊥], [(1 : ℕ)], [⊥]], fun _ _ _ => rfl⟩)
        (.leaf ⟨[⟨2, true, true, true⟩], [], false, fun _ => [[⊥], [(1 : ℕ)], [(1 : ℕ)]], fun _ _ _ => rfl⟩)) = some pexprLSJ ∧
      CXformDifferenceAll2LeftAntiSemiJoin.Transform 3 (.setOp .differenceAll
        [⟨1, true, true, true⟩] [⟨1, true, true, true⟩] [⟨2, true, true, true⟩]
        (.leaf ⟨[⟨1, true, true, true⟩], [], false, fun _ => [[⊥], [(1 : ℕ)], [⊥]], fun _ _ _ => rfl⟩)
        (.leaf ⟨[⟨2, true, true, true⟩], [], false, fun _ => [[⊥], [(1 : ℕ)], [(1 : ℕ)]], fun _ _ _ => rfl⟩)) = some pexprLASJ ∧
      (tuplesOn [⟨1, true, true, true⟩] (pexprLSJ.rows (Engine.inOrder fun _ => .count)
        (fun _ => []) fun _ => ⊥)).count [⊥] = 1 ∧
      (tuplesOn [⟨1, true, true, true⟩] (pexprLASJ.rows (Engine.inOrder fun _ => .count)
        (fun _ => []) fun _ => ⊥)).count [⊥] = 1 :=
  count_tuplesOn_transform ⟨by decide, by decide, by decide, by decide, by decide, by decide⟩ _ [⊥]

end

end BossOptimizer

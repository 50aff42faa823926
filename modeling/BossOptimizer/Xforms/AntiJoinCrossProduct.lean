import BossOptimizer.Lib.Lists
import BossOptimizer.Xforms.XformExpr

/-!
# Anti-semi joins as cross products

`CXformLeftAntiSemiJoin2CrossProduct` takes an anti-semi join whose predicate reads columns of the
outer child only for an inner join of the outer child, filtered by the negated predicate, with one
row of the inner child. The anti-semi join also keeps the rows on which the predicate is NULL, and
all rows when the inner child is empty; the inner join keeps neither.
-/

namespace BossOptimizer

variable {D : Type}

/-- `CXformUtils::ExfpSemiJoin2CrossProduct` (CXformUtils.cpp:78). -/
def ExfpSemiJoin2CrossProduct (pexprOuter : XformExpr D) (pexprScalar : XformScalar D) : Bool :=
  let pcrsUsed := pexprScalar.usedColumns
  !(pcrsUsed.length = 0 || !pcrsUsed.all (· ∈ pexprOuter.outputColumns))

namespace CXformLeftAntiSemiJoin2CrossProduct

/-- The join of the outer child with one row of the inner one, before it is normalized. -/
def pexprJoin (pexprOuter pexprInner : XformExpr D) (pexprScalar : XformScalar D) : XformExpr D :=
  .join .inner pexprOuter (.limit pexprInner 0 1) pexprScalar.PexprNegate

/-- `CXformLeftAntiSemiJoin2CrossProduct::Transform` (CXformLeftAntiSemiJoin2CrossProduct.cpp:94). -/
def Transform (PexprNormalize : XformExpr D → XformExpr D) : XformExpr D → Option (XformExpr D)
  | .join .leftAntiSemi pexprOuter pexprInner pexprScalar =>
    if ExfpSemiJoin2CrossProduct pexprOuter pexprScalar then
      some (PexprNormalize (pexprJoin pexprOuter pexprInner pexprScalar))
    else none
  | _ => none

variable [LinearOrder D] {ex : Engine D} {ctes : ℕ → List (List (Datum D))} {env : Row D}
  {pexprOuter pexprInner : XformExpr D} {pexprScalar : XformScalar D}

omit [LinearOrder D] in
theorem usedColumns_subset (h : ExfpSemiJoin2CrossProduct pexprOuter pexprScalar = true) :
    ∀ c ∈ pexprScalar.usedColumns, c ∈ pexprOuter.outputColumns := by
  simp only [ExfpSemiJoin2CrossProduct, Bool.not_eq_true', Bool.or_eq_false_iff,
    Bool.not_eq_false', List.all_eq_true, decide_eq_true_eq] at h
  exact h.2

/-- The predicate has the truth value of the outer row. -/
theorem eval_pair (hused : ∀ c ∈ pexprScalar.usedColumns, c ∈ pexprOuter.outputColumns)
    (hdisj : ∀ c ∈ pexprOuter.outputColumns, c ∉ pexprInner.outputColumns) (l r : Row D) :
    pexprScalar.eval ex.scalars (merge pexprInner.outputColumns l r) =
      pexprScalar.eval ex.scalars l :=
  XformScalar.eval_congr fun c hc => merge_of_notMem (hdisj c (hused c hc))

/-- The anti-semi join keeps the outer rows on which the predicate is not true, and all of them
    when there is no inner row. -/
theorem rows_leftAntiSemi (hused : ∀ c ∈ pexprScalar.usedColumns, c ∈ pexprOuter.outputColumns)
    (hdisj : ∀ c ∈ pexprOuter.outputColumns, c ∉ pexprInner.outputColumns) :
    (XformExpr.join .leftAntiSemi pexprOuter pexprInner pexprScalar).rows ex ctes env =
      (pexprOuter.rows ex ctes env).filter fun l =>
        pexprInner.rows ex ctes env = [] ∨ pexprScalar.eval ex.scalars l ≠ some true := by
  refine List.filter_congr fun l _ => ?_
  rw [Bool.eq_iff_iff, decide_eq_true_eq, Bool.not_eq_true', ← Bool.not_eq_true, List.any_eq_true]
  simp only [XformScalar.isTrue_iff, eval_pair hused hdisj]
  rw [List.eq_nil_iff_forall_not_mem]
  constructor
  · intro hno
    by_contra! hboth
    obtain ⟨⟨r, hr⟩, htrue⟩ := hboth
    exact hno ⟨r, hr, htrue⟩
  · rintro (hnil | hne) ⟨r, hr, htrue⟩
    · exact hnil r hr
    · exact hne htrue

/-- The inner join keeps the outer rows on which the predicate is false, if there is an inner
    row. -/
theorem tuplesOn_pexprJoin (hused : ∀ c ∈ pexprScalar.usedColumns, c ∈ pexprOuter.outputColumns)
    (hdisj : ∀ c ∈ pexprOuter.outputColumns, c ∉ pexprInner.outputColumns) :
    tuplesOn pexprOuter.outputColumns
        ((pexprJoin pexprOuter pexprInner pexprScalar).rows ex ctes env) =
      tuplesOn pexprOuter.outputColumns ((pexprOuter.rows ex ctes env).filter fun l =>
        pexprInner.rows ex ctes env ≠ [] ∧ pexprScalar.eval ex.scalars l = some false) := by
  have hperm := ex.arrange_perm (pexprInner.rows ex ctes env)
  have hlimit : (XformExpr.limit pexprInner 0 1).rows ex ctes env =
      (ex.arrange (pexprInner.rows ex ctes env)).take 1 := rfl
  have hjoin : (pexprJoin pexprOuter pexprInner pexprScalar).rows ex ctes env =
      (pexprOuter.rows ex ctes env).flatMap fun l =>
        (((ex.arrange (pexprInner.rows ex ctes env)).take 1).filter fun r =>
          pexprScalar.PexprNegate.isTrue ex.scalars (merge pexprInner.outputColumns l r)).map
            (merge pexprInner.outputColumns l) := rfl
  have htruth : ∀ l r, pexprScalar.PexprNegate.isTrue ex.scalars
      (merge pexprInner.outputColumns l r) = decide (pexprScalar.eval ex.scalars l = some false) := by
    intro l r
    rw [Bool.eq_iff_iff, XformScalar.isTrue_pexprNegate, eval_pair hused hdisj,
      decide_eq_true_eq]
  simp only [htruth] at hjoin
  rw [hjoin]
  cases harr : ex.arrange (pexprInner.rows ex ctes env) with
  | nil =>
    rw [harr] at hperm
    simp [List.nil_perm.1 hperm, tuplesOn]
  | cons r rest =>
    have hne : pexprInner.rows ex ctes env ≠ [] := by
      intro hnil
      rw [harr, hnil] at hperm
      cases List.perm_nil.1 hperm
    -- each outer row is joined with the one row of the limit, or not at all
    have hone : ((pexprOuter.rows ex ctes env).flatMap fun l =>
        (([r].filter fun _ => decide (pexprScalar.eval ex.scalars l = some false)).map
          (merge pexprInner.outputColumns l))) =
        ((pexprOuter.rows ex ctes env).filter fun l =>
          pexprScalar.eval ex.scalars l = some false).map
            fun l => merge pexprInner.outputColumns l r := by
      induction pexprOuter.rows ex ctes env with
      | nil => rfl
      | cons l outer ih =>
        rw [List.flatMap_cons, ih]
        by_cases h : pexprScalar.eval ex.scalars l = some false <;> simp [h]
    rw [List.take_succ_cons, List.take_zero, hone]
    simp only [ne_eq, hne, not_false_eq_true, true_and]
    exact tuplesOn_map fun l _ c hc => merge_of_notMem (hdisj c hc)

/-- **The join that is built keeps the rows of the anti-semi join** exactly when no outer row is
    there without an inner one, and with an inner one the predicate is NULL on no outer row. The
    children of the join have different columns, and normalization keeps the rows of the join. -/
theorem sameRows_transform_iff {PexprNormalize : XformExpr D → XformExpr D}
    {pexprNew : XformExpr D}
    (hdisj : ∀ c ∈ pexprOuter.outputColumns, c ∉ pexprInner.outputColumns)
    (hnormalize : SameRows pexprOuter.outputColumns
      ((PexprNormalize (pexprJoin pexprOuter pexprInner pexprScalar)).rows ex ctes env)
      ((pexprJoin pexprOuter pexprInner pexprScalar).rows ex ctes env))
    (h : Transform PexprNormalize (.join .leftAntiSemi pexprOuter pexprInner pexprScalar) =
      some pexprNew) :
    SameRows pexprOuter.outputColumns (pexprNew.rows ex ctes env)
        ((XformExpr.join .leftAntiSemi pexprOuter pexprInner pexprScalar).rows ex ctes env) ↔
      (pexprInner.rows ex ctes env = [] → pexprOuter.rows ex ctes env = []) ∧
        (pexprInner.rows ex ctes env ≠ [] →
          ∀ row ∈ pexprOuter.rows ex ctes env, pexprScalar.eval ex.scalars row ≠ none) := by
  rw [Transform] at h
  split at h
  · next hexfp =>
    cases h
    have hused := usedColumns_subset hexfp
    have hnew : SameRows pexprOuter.outputColumns
        ((PexprNormalize (pexprJoin pexprOuter pexprInner pexprScalar)).rows ex ctes env)
        ((pexprOuter.rows ex ctes env).filter fun l =>
          pexprInner.rows ex ctes env ≠ [] ∧ pexprScalar.eval ex.scalars l = some false) := by
      refine hnormalize.trans ?_
      rw [SameRows, tuplesOn_pexprJoin hused hdisj]
    rw [rows_leftAntiSemi hused hdisj]
    -- the new rows are among the old ones, so that none is missing where the numbers agree
    have hkept : SameRows pexprOuter.outputColumns
        ((PexprNormalize (pexprJoin pexprOuter pexprInner pexprScalar)).rows ex ctes env)
        ((pexprOuter.rows ex ctes env).filter fun l =>
          pexprInner.rows ex ctes env = [] ∨ pexprScalar.eval ex.scalars l ≠ some true) ↔
        ∀ l ∈ pexprOuter.rows ex ctes env,
          (pexprInner.rows ex ctes env = [] ∨ pexprScalar.eval ex.scalars l ≠ some true) →
            pexprInner.rows ex ctes env ≠ [] ∧ pexprScalar.eval ex.scalars l = some false := by
      refine ⟨fun hsame => ?_, fun hall => hnew.trans (SameRows.of_perm (List.Perm.of_eq ?_))⟩
      · have hlen := hnew.symm.trans hsame |>.length_eq
        have hall := imp_of_length_filter_eq (l := pexprOuter.rows ex ctes env) ?_ hlen
        · simpa only [decide_eq_true_eq] using hall
        · simp only [decide_eq_true_eq]
          rintro l hl ⟨-, hfalse⟩
          exact .inr (by simp [hfalse])
      · refine List.filter_congr fun l hl => ?_
        rw [decide_eq_decide]
        refine ⟨?_, hall l hl⟩
        rintro ⟨-, hfalse⟩
        exact .inr (by simp [hfalse])
    rw [hkept]
    by_cases hnil : pexprInner.rows ex ctes env = []
    · simp [hnil, List.eq_nil_iff_forall_not_mem]
    · simp only [hnil, false_or, ne_eq, not_false_eq_true, true_and, false_imp_iff, true_imp_iff]
      refine forall₂_congr fun l _ => ?_
      rcases pexprScalar.eval ex.scalars l with _ | _ | _ <;> simp
  · cases h

/-! ### One table against another -/

/-- What normalization does with an inner join whose predicate reads the outer child. -/
def pushedDown : XformExpr D → XformExpr D
  | .join .inner pexprOuter pexprInner pexprScalar =>
    .join .inner (.select pexprOuter pexprScalar) pexprInner (.const (some true))
  | pexpr => pexpr

def pcrOuter : CColRef := ⟨1, true, true, true⟩

def pcrInner : CColRef := ⟨2, true, true, true⟩

/-- Rows of one column. -/
def oneColumn (colref : CColRef) (values : List ℕ) : XformExpr ℕ :=
  .leaf ⟨[colref], [], false, fun _ => values.map fun n => [(n : Datum ℕ)], fun _ _ _ => rfl⟩

/-- `outer = 1`. -/
def outerIsOne : XformScalar ℕ := .cmp .eq (.ident pcrOuter) (.const (1 : ℕ))

theorem sameRows_transform_nonempty :
    SameRows (oneColumn pcrOuter [1, 2]).outputColumns
        ((pushedDown (pexprJoin (oneColumn pcrOuter [1, 2]) (oneColumn pcrInner [7, 8])
          outerIsOne)).rows (Engine.inOrder fun _ => .count) (fun _ => []) fun _ => ⊥)
        ((XformExpr.join .leftAntiSemi (oneColumn pcrOuter [1, 2]) (oneColumn pcrInner [7, 8])
          outerIsOne).rows (Engine.inOrder fun _ => .count) (fun _ => []) fun _ => ⊥) :=
  (@sameRows_transform_iff _ _ _ _ _ _ _ _ pushedDown _ (by decide) (by decide)
    rfl).2 ⟨by decide, by decide⟩

/-- **An outer row is lost when the inner child is empty.** -/
theorem transform_loses_row_without_inner :
    ∃ pexprNew, Transform pushedDown (.join .leftAntiSemi (oneColumn pcrOuter [2])
        (oneColumn pcrInner []) outerIsOne) = some pexprNew ∧
      pexprNew.rows (Engine.inOrder fun _ => .count) (fun _ => []) (fun _ => ⊥) = [] ∧
      tuplesOn [pcrOuter] ((XformExpr.join .leftAntiSemi (oneColumn pcrOuter [2])
        (oneColumn pcrInner []) outerIsOne).rows (Engine.inOrder fun _ => .count) (fun _ => [])
          fun _ => ⊥) = [[((2 : ℕ) : Datum ℕ)]] :=
  ⟨_, rfl, rfl, by decide⟩

end CXformLeftAntiSemiJoin2CrossProduct

end BossOptimizer

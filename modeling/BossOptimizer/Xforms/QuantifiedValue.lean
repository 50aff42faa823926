import BossOptimizer.Xforms.UnnestedRows

/-!
# SQL's ANY and ALL from the comparisons kept

SQL's value of a quantified subquery is the disjunction or the conjunction of its comparisons. The
nested IF finds it from two numbers, of the comparisons kept and of the unknown ones among them.
With the not-nullable-inner optimization the comparisons are unknown exactly for a NULL scalar, and
none is kept then; SQL's answer is NULL only if there is something to compare with.
-/

namespace BossOptimizer

variable {D : Type}

/-- What the optimizer relies on of the operators in the catalog. -/
structure Catalog.Lawful (cat : Catalog D) : Prop where
  /-- A built-in comparison is NULL exactly if an operand is. -/
  veryStrict : ∀ op, CPredicateUtils.fBuiltInComparisonIsVeryStrict op = true →
    ∀ a b, cat.compare op a b = none ↔ a = ⊥ ∨ b = ⊥
  /-- Built-in equality is that of grouping. -/
  equality : ∀ op, CPredicateUtils.fBuiltInComparisonIsVeryStrict op = true →
    cat.isEquality op = true →
    ∀ a b b', cat.compare op a b = some true → cat.compare op a b' = some true → b = b'
  inverse : ∀ op inv, cat.getInverseOpMdid op = some inv →
    ∀ a b, cat.compare inv a b = (cat.compare op a b).not

namespace CSubqueryHandler

/-! ## The nested IF -/

/-- What the nested IF answers for the comparisons kept. -/
def nestedIf (value : Bool) (ts : List Truth) : Truth :=
  if ts = [] then some !value
  else if ts.count none = ts.length then none
  else some value

variable {ts : List Truth} {value : Bool}

/-- Without the optimization it is the disjunction, or its negation. -/
theorem nestedIf_notFalse (ts : List Truth) (value : Bool) :
    nestedIf value (ts.filter (keeps false)) =
      if value then Truth.any ts else (Truth.any ts).not := by
  have hnil : ts.filter (keeps false) = [] ↔ some true ∉ ts ∧ none ∉ ts := by
    simp only [List.filter_eq_nil_iff, keeps]
    constructor
    · exact fun h => ⟨fun ht => h _ ht (by simp), fun hn => h _ hn (by simp)⟩
    · rintro ⟨ht, hn⟩ (_ | _ | _) hmem
      · exact absurd hmem hn
      · simp
      · exact absurd hmem ht
  have hcount : (ts.filter (keeps false)).count none = (ts.filter (keeps false)).length ↔
      some true ∉ ts := by
    rw [List.count_eq_length]
    constructor
    · intro h ht
      simpa using h (some true) (List.mem_filter.2 ⟨ht, by simp [keeps]⟩)
    · rintro ht (_ | _ | _) hmem
      · rfl
      · simp [keeps] at hmem
      · exact absurd (List.mem_filter.1 hmem).1 ht
  rw [nestedIf, Truth.any_eq]
  simp only [hnil, hcount]
  by_cases ht : some true ∈ ts <;> by_cases hn : none ∈ ts <;> cases value <;>
    simp [ht, hn, Truth.not]

/-- With the optimization it is so where no comparison is unknown. -/
theorem nestedIf_true (hnone : none ∉ ts) :
    nestedIf value (ts.filter (keeps true)) =
      if value then Truth.any ts else (Truth.any ts).not := by
  have hnil : ts.filter (keeps true) = [] ↔ some true ∉ ts := by
    simp only [List.filter_eq_nil_iff, keeps]
    exact ⟨fun h ht => h _ ht (by simp), fun ht t hmem => by rintro h; simp_all⟩
  have hcount : (ts.filter (keeps true)).count none = 0 :=
    List.count_eq_zero.2 fun hmem => hnone (List.mem_filter.1 hmem).1
  rw [nestedIf, Truth.any_eq, hcount]
  by_cases ht : some true ∈ ts
  · have hne : ts.filter (keeps true) ≠ [] := fun h => hnil.1 h ht
    have hlen : ¬ 0 = (ts.filter (keeps true)).length := fun h =>
      hne (List.length_eq_zero_iff.1 h.symm)
    rw [if_neg hne, if_neg hlen, if_pos ht]
    cases value <;> rfl
  · rw [if_pos (hnil.2 ht), if_neg ht, if_neg hnone]
    cases value <;> rfl

variable [DecidableEq D] {cat : Catalog D} {op : ℕ} {sq : CScalarSubqueryQuantified D} {pcf : ℕ}
  {row row' : Row (SqlValue D)}

theorem eval_pexprNestedIf (h : Summarizes pcf ts row') :
    (pexprNestedIf (groupColumns (pcf + 1)).pcrSum (groupColumns (pcf + 1)).pcrCount value).eval
      cat row' = SqlValue.ofTruth (nestedIf value ts) := by
  rcases h.count with hcount | ⟨rfl, hcount⟩
  · by_cases hnil : ts = []
    · subst hnil
      simp [pexprNestedIf, ApplyScalar.eval, hcount, int8Cmp, nestedIf]
    · have hpos : 0 < ts.length := List.length_pos_iff.2 hnil
      have hsum := h.sum hnil
      by_cases heq : ts.count none = ts.length
      · simp [pexprNestedIf, ApplyScalar.eval, hcount, hsum, int8Cmp, nestedIf, hnil, heq]
      · simp [pexprNestedIf, ApplyScalar.eval, hcount, hsum, int8Cmp, nestedIf, hnil, heq]
  · simp [pexprNestedIf, ApplyScalar.eval, hcount, int8Cmp, nestedIf]

/-! ## SQL's value -/

/-- The value SQL gives the subquery in an outer row. -/
def sqlValue (cat : Catalog D) (sq : CScalarSubqueryQuantified D) (row : Row (SqlValue D)) :
    Truth :=
  if sq.fAll then Truth.all (comparisons cat sq.mdidOp sq row)
  else Truth.any (comparisons cat sq.mdidOp sq row)

/-- The operator of the predicate the subquery is replaced by. -/
def predicateOp (cat : Catalog D) (sq : CScalarSubqueryQuantified D) : Option ℕ :=
  if sq.fAll then cat.getInverseOpMdid sq.mdidOp else some sq.mdidOp

/-- `x op ALL S` is `NOT (x inverse-op ANY S)`. -/
theorem sqlValue_eq (hcat : cat.Lawful) (hop : predicateOp cat sq = some op) :
    sqlValue cat sq row = if !sq.fAll then Truth.any (comparisons cat op sq row)
      else (Truth.any (comparisons cat op sq row)).not := by
  unfold predicateOp at hop
  unfold sqlValue
  cases hall : sq.fAll with
  | false =>
    rw [hall] at hop
    cases hop
    rfl
  | true =>
    rw [hall] at hop
    have hinv : comparisons cat op sq row =
        (comparisons cat sq.mdidOp sq row).map Truth.not := by
      rw [comparisons, comparisons, List.map_map]
      exact List.map_congr_left fun inner _ => hcat.inverse _ _ hop _ _
    rw [hinv]
    exact Truth.all_eq_not_any _

/-- The optimization applies: no inner value is NULL, and the comparison is very strict. -/
def Optimized (op : ℕ) (sq : CScalarSubqueryQuantified D) : Prop :=
  useNotNullableInnerOpt sq.pcr sq.pexprInner op = true

theorem Optimized.comparison_eq_none (hcat : cat.Lawful) (hopt : Optimized op sq)
    {inner : Row (SqlValue D)} (hinner : inner ∈ sq.pexprInner.rows row) :
    comparison cat op sq row inner = none ↔ sq.pexprScalar.eval cat row = ⊥ := by
  obtain ⟨hnotNull, hstrict⟩ := Bool.and_eq_true_iff.1 hopt
  rw [comparison, hcat.veryStrict op hstrict]
  exact or_iff_left (LogicalLeaf.ne_bot_of_notNull hinner (of_decide_eq_true hnotNull))

/-- Unknown comparisons are those of a NULL scalar. -/
theorem Optimized.none_mem_comparisons (hcat : cat.Lawful) (hopt : Optimized op sq) :
    none ∈ comparisons cat op sq row ↔
      sq.pexprScalar.eval cat row = ⊥ ∧ sq.pexprInner.rows row ≠ [] := by
  rw [comparisons, List.mem_map]
  constructor
  · rintro ⟨inner, hinner, hnone⟩
    exact ⟨(hopt.comparison_eq_none hcat hinner).1 hnone, List.ne_nil_of_mem hinner⟩
  · rintro ⟨hnull, hne⟩
    obtain ⟨inner, hinner⟩ := List.exists_mem_of_ne_nil _ hne
    exact ⟨inner, hinner, (hopt.comparison_eq_none hcat hinner).2 hnull⟩

/-- A NULL scalar makes no comparison true. -/
theorem Optimized.ne_bot_of_true_mem (hcat : cat.Lawful) (hopt : Optimized op sq)
    (htrue : some true ∈ comparisons cat op sq row) : sq.pexprScalar.eval cat row ≠ ⊥ := by
  obtain ⟨inner, hinner, heq⟩ := List.mem_map.1 htrue
  intro hnull
  rw [(hopt.comparison_eq_none hcat hinner).2 hnull] at heq
  cases heq

/-- SQL answers NULL for a NULL scalar, unless there is nothing to compare it with. -/
theorem Optimized.sqlValue_eq_none (hcat : cat.Lawful) (hop : predicateOp cat sq = some op)
    (hopt : Optimized op sq) : sqlValue cat sq row = none ↔
      sq.pexprScalar.eval cat row = ⊥ ∧ sq.pexprInner.rows row ≠ [] := by
  have hany : sqlValue cat sq row = none ↔ Truth.any (comparisons cat op sq row) = none := by
    rw [sqlValue_eq hcat hop]
    cases sq.fAll <;> rcases Truth.any (comparisons cat op sq row) with _ | b <;> simp [Truth.not]
  rw [hany, Truth.any_eq, ← hopt.none_mem_comparisons hcat]
  by_cases htrue : some true ∈ comparisons cat op sq row
  · have hnone : none ∉ comparisons cat op sq row := fun h =>
      hopt.ne_bot_of_true_mem hcat htrue ((hopt.none_mem_comparisons hcat).1 h).1
    simp [htrue, hnone]
  · by_cases hnone : none ∈ comparisons cat op sq row <;> simp [htrue, hnone]

/-- Nothing is kept exactly if no comparison is true. -/
theorem Optimized.keptComparisons_eq_nil (hopt : Optimized op sq) :
    keptComparisons cat op sq row = [] ↔ some true ∉ comparisons cat op sq row := by
  rw [keptComparisons, hopt, List.filter_eq_nil_iff]
  simp only [keeps, if_true, decide_eq_true_eq]
  exact ⟨fun h ht => h _ ht rfl, fun ht t hmem heq => ht (heq ▸ hmem)⟩

end CSubqueryHandler

end BossOptimizer

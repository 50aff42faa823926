import BossOptimizer.Operators.Rows

/-!
# Scalars of the relational transformations

Predicates over columns, with the operators that the transformations look at or build; everything
else computes a value from the values of its columns. A scalar can be moved to other columns: what
it reads there is what it read before.
-/

namespace BossOptimizer

variable {D : Type}

/-- A scalar with a value. -/
inductive XformOperand (D : Type) where
  | ident (colref : CColRef)
  | const (datum : Datum D)
  | other (id : ℕ) (used : List CColRef)

/-- A predicate. -/
inductive XformScalar (D : Type) where
  | const (value : Option Bool)
  | cmp (cmpType : ECmpType) (left right : XformOperand D)
  | isDistinctFrom (left right : XformOperand D)
  | boolOp (eboolop : EBoolOperator) (children : List (XformScalar D))
  | other (id : ℕ) (used : List CColRef)

/-- What the opaque scalars compute from the values of their columns. -/
structure ScalarFunctions (D : Type) where
  operand : ℕ → List (Datum D) → Datum D
  predicate : ℕ → List (Datum D) → Truth
  cmpOther : D → D → Truth

namespace XformOperand

def usedColumns : XformOperand D → List CColRef
  | .ident colref => [colref]
  | .const _ => []
  | .other _ used => used

def eval (S : ScalarFunctions D) (row : Row D) : XformOperand D → Datum D
  | .ident colref => row colref
  | .const datum => datum
  | .other id used => S.operand id (used.map row)

/-- `PexprCopyWithRemappedColumns`. -/
def remap (mapping : CColRef → CColRef) : XformOperand D → XformOperand D
  | .ident colref => .ident (mapping colref)
  | .const datum => .const datum
  | .other id used => .other id (used.map mapping)

theorem eval_congr {S : ScalarFunctions D} {row row' : Row D} {pexpr : XformOperand D}
    (h : ∀ c ∈ pexpr.usedColumns, row c = row' c) : pexpr.eval S row = pexpr.eval S row' := by
  cases pexpr with
  | ident colref => exact h colref (List.mem_singleton_self _)
  | const datum => rfl
  | other id used => exact congrArg (S.operand id) (List.map_congr_left h)

theorem usedColumns_remap (mapping : CColRef → CColRef) (pexpr : XformOperand D) :
    (pexpr.remap mapping).usedColumns = pexpr.usedColumns.map mapping := by
  cases pexpr <;> rfl

theorem eval_remap {S : ScalarFunctions D} {row : Row D} {mapping : CColRef → CColRef}
    (pexpr : XformOperand D) :
    (pexpr.remap mapping).eval S row = pexpr.eval S fun c => row (mapping c) := by
  cases pexpr with
  | ident colref => rfl
  | const datum => rfl
  | other id used => simp [remap, eval, Function.comp_def]

end XformOperand

namespace XformScalar

mutual

/-- `DeriveUsedColumns`. -/
def usedColumns : XformScalar D → List CColRef
  | .const _ => []
  | .cmp _ left right => left.usedColumns ++ right.usedColumns
  | .isDistinctFrom left right => left.usedColumns ++ right.usedColumns
  | .boolOp _ children => usedColumnsAll children
  | .other _ used => used

def usedColumnsAll : List (XformScalar D) → List CColRef
  | [] => []
  | pexpr :: pdrgpexpr => pexpr.usedColumns ++ usedColumnsAll pdrgpexpr

end

attribute [local simp] usedColumns usedColumnsAll in
theorem usedColumnsAll_eq_flatMap (pdrgpexpr : List (XformScalar D)) :
    usedColumnsAll pdrgpexpr = pdrgpexpr.flatMap usedColumns := by
  induction pdrgpexpr with
  | nil => rfl
  | cons pexpr pdrgpexpr ih => rw [usedColumnsAll, ih, List.flatMap_cons]

mutual

/-- `PexprCopyWithRemappedColumns`. -/
def remap (mapping : CColRef → CColRef) : XformScalar D → XformScalar D
  | .const value => .const value
  | .cmp cmpType left right => .cmp cmpType (left.remap mapping) (right.remap mapping)
  | .isDistinctFrom left right => .isDistinctFrom (left.remap mapping) (right.remap mapping)
  | .boolOp eboolop children => .boolOp eboolop (remapAll mapping children)
  | .other id used => .other id (used.map mapping)

def remapAll (mapping : CColRef → CColRef) : List (XformScalar D) → List (XformScalar D)
  | [] => []
  | pexpr :: pdrgpexpr => pexpr.remap mapping :: remapAll mapping pdrgpexpr

end

attribute [local simp] remap remapAll in
theorem remapAll_eq_map (mapping : CColRef → CColRef) (pdrgpexpr : List (XformScalar D)) :
    remapAll mapping pdrgpexpr = pdrgpexpr.map (remap mapping) := by
  induction pdrgpexpr with
  | nil => rfl
  | cons pexpr pdrgpexpr ih => rw [remapAll, ih, List.map_cons]

/-- Induction over predicates: the children of a Boolean operator are a list. -/
theorem induction {P : XformScalar D → Prop} (const : ∀ value, P (.const value))
    (cmp : ∀ cmpType left right, P (.cmp cmpType left right))
    (isDistinctFrom : ∀ left right, P (.isDistinctFrom left right))
    (boolOp : ∀ eboolop children, (∀ e ∈ children, P e) → P (.boolOp eboolop children))
    (other : ∀ id used, P (.other id used)) : ∀ pexpr, P pexpr
  | .const value => const value
  | .cmp cmpType left right => cmp cmpType left right
  | .isDistinctFrom left right => isDistinctFrom left right
  | .boolOp eboolop children => boolOp eboolop children fun e _ =>
    induction const cmp isDistinctFrom boolOp other e
  | .other id used => other id used

/-! ## Predicates that are built -/

/-- `CUtils::PexprNegate` (CUtils.cpp:1515). -/
def PexprNegate (pexpr : XformScalar D) : XformScalar D := .boolOp .not [pexpr]

/-- `CUtils::FScalarConstBool`. -/
def FScalarConstBool (value : Bool) : XformScalar D → Bool
  | .const (some v) => v == value
  | _ => false

/-- `CPredicateUtils::PexprConjunction` (CPredicateUtils.cpp:675). -/
def PexprConjunction (pdrgpexpr : List (XformScalar D)) : XformScalar D :=
  if pdrgpexpr.any (FScalarConstBool false) then .const (some false)
  else
    match pdrgpexpr.filter (!FScalarConstBool true ·) with
    | [] => .const (some true)
    | [pexpr] => pexpr
    | pdrgpexprFinal => .boolOp .and pdrgpexprFinal

/-- A conjunct of `PexprConjINDFCond`. -/
def PexprINDF (pcrLeft pcrRight : CColRef) : XformScalar D :=
  PexprNegate (.isDistinctFrom (.ident pcrLeft) (.ident pcrRight))

/-- `CUtils::PexprConjINDFCond` (CUtils.cpp:3547). -/
def PexprConjINDFCond (pdrgpcrLeft pdrgpcrRight : List CColRef) : XformScalar D :=
  PexprConjunction (List.zipWith PexprINDF pdrgpcrLeft pdrgpcrRight)

mutual

/-- `CPredicateUtils::PdrgpexprConjuncts` (CPredicateUtils.cpp:334). -/
def PdrgpexprConjuncts : XformScalar D → List (XformScalar D)
  | .boolOp .and children => conjunctsEach children
  | pexpr => [pexpr]

def conjunctsEach : List (XformScalar D) → List (XformScalar D)
  | [] => []
  | pexpr :: pdrgpexpr => PdrgpexprConjuncts pexpr ++ conjunctsEach pdrgpexpr

end

attribute [local simp] PdrgpexprConjuncts conjunctsEach in
theorem conjunctsEach_eq_flatMap (pdrgpexpr : List (XformScalar D)) :
    conjunctsEach pdrgpexpr = pdrgpexpr.flatMap PdrgpexprConjuncts := by
  induction pdrgpexpr with
  | nil => rfl
  | cons pexpr pdrgpexpr ih => rw [conjunctsEach, ih, List.flatMap_cons]

/-! ## Evaluation -/

variable [LinearOrder D]

mutual

/-- Three-valued evaluation on a row. -/
def eval (S : ScalarFunctions D) (row : Row D) : XformScalar D → Truth
  | .const value => value
  | .cmp cmpType left right =>
    evalCmp ⟨fun _ _ => ⊥, fun _ _ => none, S.cmpOther⟩ cmpType (left.eval S row) (right.eval S row)
  | .isDistinctFrom left right => some (left.eval S row ≠ right.eval S row)
  | .boolOp eboolop children => eboolop.eval (evalAll S row children)
  | .other id used => S.predicate id (used.map row)

def evalAll (S : ScalarFunctions D) (row : Row D) : List (XformScalar D) → List Truth
  | [] => []
  | pexpr :: pdrgpexpr => pexpr.eval S row :: evalAll S row pdrgpexpr

end

attribute [local simp] eval evalAll in
@[simp] theorem evalAll_eq_map (S : ScalarFunctions D) (row : Row D)
    (pdrgpexpr : List (XformScalar D)) :
    evalAll S row pdrgpexpr = pdrgpexpr.map (eval S row) := by
  induction pdrgpexpr with
  | nil => rfl
  | cons pexpr pdrgpexpr ih => rw [evalAll, ih, List.map_cons]

/-- A predicate is true, neither false nor unknown. -/
def isTrue (S : ScalarFunctions D) (pexpr : XformScalar D) (row : Row D) : Bool :=
  pexpr.eval S row = some true

variable {S : ScalarFunctions D} {row row' : Row D} {pexpr : XformScalar D}

theorem isTrue_iff : isTrue S pexpr row = true ↔ pexpr.eval S row = some true := by
  rw [isTrue, decide_eq_true_eq]

/-- **A predicate depends on its columns only.** -/
theorem eval_congr (h : ∀ c ∈ pexpr.usedColumns, row c = row' c) :
    pexpr.eval S row = pexpr.eval S row' := by
  induction pexpr using XformScalar.induction with
  | const value => rfl
  | cmp cmpType left right | isDistinctFrom left right =>
    rw [usedColumns, List.forall_mem_append] at h
    rw [eval, eval, XformOperand.eval_congr h.1, XformOperand.eval_congr h.2]
  | boolOp eboolop children ih =>
    rw [usedColumns, usedColumnsAll_eq_flatMap] at h
    rw [eval, eval, evalAll_eq_map, evalAll_eq_map]
    refine congrArg eboolop.eval (List.map_congr_left fun e he => ih e he fun c hc => ?_)
    exact h c (List.mem_flatMap.2 ⟨e, he, hc⟩)
  | other id used => exact congrArg (S.predicate id) (List.map_congr_left h)

theorem isTrue_congr (h : ∀ c ∈ pexpr.usedColumns, row c = row' c) :
    isTrue S pexpr row = isTrue S pexpr row' := by
  rw [isTrue, isTrue, eval_congr h]

/-- **A predicate that is moved to other columns reads there what it read before.** -/
theorem eval_remap {mapping : CColRef → CColRef} (pexpr : XformScalar D) :
    (pexpr.remap mapping).eval S row = pexpr.eval S fun c => row (mapping c) := by
  induction pexpr using XformScalar.induction with
  | const value => rfl
  | cmp cmpType left right
  | isDistinctFrom left right => rw [remap, eval, eval, left.eval_remap, right.eval_remap]
  | boolOp eboolop children ih =>
    rw [remap, eval, eval, evalAll_eq_map, evalAll_eq_map, remapAll_eq_map, List.map_map]
    exact congrArg eboolop.eval (List.map_congr_left ih)
  | other id used => simp [remap, eval, Function.comp_def]

@[simp] theorem eval_pexprNegate (pexpr : XformScalar D) :
    (PexprNegate pexpr).eval S row = (pexpr.eval S row).not := by
  simp [PexprNegate, eval, EBoolOperator.eval]

/-- A negation is true on the rows where the predicate is false, and not where it is unknown. -/
theorem isTrue_pexprNegate : isTrue S (PexprNegate pexpr) row = true ↔
    pexpr.eval S row = some false := by
  rw [isTrue_iff, eval_pexprNegate]
  rcases pexpr.eval S row with _ | _ | _ <;> simp [Truth.not]

theorem eval_of_fScalarConstBool {value : Bool} (h : FScalarConstBool value pexpr = true) :
    pexpr.eval S row = some value := by
  unfold FScalarConstBool at h
  split at h
  · rw [eval, eq_of_beq h]
  · cases h

/-- An AND is true where all its operands are. -/
theorem isTrue_and {children : List (XformScalar D)} :
    isTrue S (.boolOp .and children) row = true ↔ ∀ e ∈ children, isTrue S e row = true := by
  simp only [isTrue_iff]
  rw [eval, evalAll_eq_map]
  exact (Truth.holds_all (m := false) _).trans List.forall_mem_map

/-- **A predicate is true where all its conjuncts are.** -/
theorem isTrue_iff_conjuncts : isTrue S pexpr row = true ↔
    ∀ e ∈ pexpr.PdrgpexprConjuncts, isTrue S e row = true := by
  induction pexpr using XformScalar.induction with
  | boolOp eboolop children ih =>
    cases eboolop with
    | and =>
      rw [isTrue_and, PdrgpexprConjuncts, conjunctsEach_eq_flatMap, List.forall_mem_flatMap]
      exact forall₂_congr ih
    | or | not => simp [PdrgpexprConjuncts.eq_def]
  | const value | cmp cmpType left right | isDistinctFrom left right
  | other id used => simp [PdrgpexprConjuncts.eq_def]

/-- Columns compared equal have one value. -/
theorem eq_of_isTrue_eq {a b : CColRef}
    (h : isTrue S (.cmp .eq (.ident a) (.ident b)) row = true) : row a = row b := by
  rw [isTrue_iff, eval, XformOperand.eval, XformOperand.eval] at h
  cases ha : row a using WithBot.recBotCoe with
  | bot => simp [ha] at h
  | coe x =>
    cases hb : row b using WithBot.recBotCoe with
    | bot => simp [ha, hb] at h
    | coe y =>
      rw [ha, hb, CConstraintInterval.evalCmp_coe, Option.some_inj, decide_eq_true_eq] at h
      rw [h]
/-- **A conjunction is true where all conjuncts are**, whether or not constants are left out. -/
theorem isTrue_pexprConjunction {pdrgpexpr : List (XformScalar D)} :
    isTrue S (PexprConjunction pdrgpexpr) row = true ↔ ∀ e ∈ pdrgpexpr, isTrue S e row = true := by
  unfold PexprConjunction
  split
  · next hfalse =>
    obtain ⟨e, hmem, hconst⟩ := List.any_eq_true.1 hfalse
    refine iff_of_false (by simp [isTrue, eval]) fun hall => ?_
    have htrue := isTrue_iff.1 (hall e hmem)
    rw [eval_of_fScalarConstBool hconst] at htrue
    cases htrue
  · have hskip : (∀ e ∈ pdrgpexpr, isTrue S e row = true) ↔
        ∀ e ∈ pdrgpexpr.filter (!FScalarConstBool true ·), isTrue S e row = true := by
      refine ⟨fun hall e hmem => hall e (List.mem_of_mem_filter hmem), ?_⟩
      intro hall e hmem
      cases hconst : FScalarConstBool true e with
      | true => exact isTrue_iff.2 (eval_of_fScalarConstBool hconst)
      | false => exact hall e (List.mem_filter.2 ⟨hmem, by simp [hconst]⟩)
    rw [hskip]
    split
    · next hnil => simp [hnil, isTrue, eval]
    · next e hone => simp [hone]
    · exact isTrue_and

omit [LinearOrder D] in
/-- A conjunction uses columns of its conjuncts. -/
theorem usedColumns_pexprConjunction {pdrgpexpr : List (XformScalar D)} {c : CColRef}
    (hc : c ∈ (PexprConjunction pdrgpexpr).usedColumns) : ∃ e ∈ pdrgpexpr, c ∈ e.usedColumns := by
  unfold PexprConjunction at hc
  split at hc
  · cases hc
  · split at hc
    · cases hc
    · next e hone =>
      exact ⟨e, List.mem_of_mem_filter (hone ▸ List.mem_singleton_self e), hc⟩
    · rw [usedColumns, usedColumnsAll_eq_flatMap] at hc
      obtain ⟨e, he, hc⟩ := List.mem_flatMap.1 hc
      exact ⟨e, List.mem_of_mem_filter he, hc⟩

omit [LinearOrder D] in
theorem usedColumns_pexprConjINDFCond {left right : List CColRef} {c : CColRef}
    (hc : c ∈ (PexprConjINDFCond left right : XformScalar D).usedColumns) : c ∈ left ++ right := by
  obtain ⟨e, he, hc⟩ := usedColumns_pexprConjunction hc
  rw [← List.map_uncurry_zip_eq_zipWith] at he
  obtain ⟨⟨a, b⟩, hab, rfl⟩ := List.mem_map.1 he
  have hmem := List.of_mem_zip hab
  have hc' : c = a ∨ c = b := by
    simpa [Function.uncurry, PexprINDF, PexprNegate, usedColumns, usedColumnsAll_eq_flatMap,
      XformOperand.usedColumns] using hc
  rcases hc' with rfl | rfl
  · exact List.mem_append_left _ hmem.1
  · exact List.mem_append_right _ hmem.2

/-- `IS NOT DISTINCT FROM` is true on equal values, NULL being equal to itself. -/
theorem isTrue_pexprINDF {a b : CColRef} :
    isTrue S (.PexprINDF a b) row = true ↔ row a = row b := by
  rw [PexprINDF, isTrue_pexprNegate]
  exact Option.some_inj.trans (decide_eq_false_iff_not.trans not_not)

/-- The condition compares the columns position by position. -/
theorem isTrue_pexprConjINDFCond {left right : List CColRef} (hlen : left.length = right.length) :
    isTrue S (.PexprConjINDFCond left right) row = true ↔ left.map row = right.map row := by
  rw [PexprConjINDFCond, isTrue_pexprConjunction]
  induction left generalizing right with
  | nil => cases right <;> simp_all
  | cons a left ih =>
    cases right with
    | nil => simp at hlen
    | cons b right =>
      rw [List.zipWith_cons_cons, List.forall_mem_cons, isTrue_pexprINDF, ih (by simpa using hlen),
        List.map_cons, List.map_cons, List.cons.injEq]

end XformScalar

end BossOptimizer

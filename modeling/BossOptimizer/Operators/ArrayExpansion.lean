import BossOptimizer.Operators.CScalarArrayCmp

/-!
# Expanding array comparisons in conjuncts and disjuncts (CPredicateUtils.cpp:356–468)

`PdrgpexprExpandConjuncts` writes out the array comparisons among conjuncts and, below an OR, among
its disjuncts, and `PdrgpexprExpandDisjuncts` does the same with AND and OR exchanged. Each removes
repeated expressions. Both are one function of the connective.

The expanded conjuncts have the truth value of the conjuncts with plain arrays: without the coercion
of an array that is written out, and with the children of a multi-dimensional one as its elements.
Where no such array is written out nothing changes, whatever the connectives and the NULLs are.
-/

namespace BossOptimizer

namespace Predicate

variable {Op : Type}

/-! ## Conjuncts and disjuncts -/

/-- `FAnd`, or `FOr`. -/
def FConnective (fConjunction : Bool) (pexpr : Predicate Op) : Bool :=
  if fConjunction then FAnd pexpr else FOr pexpr

mutual

/-- `CollectConjuncts` or `CollectDisjuncts` (CPredicateUtils.cpp:289, 311). -/
def collect (fConjunction : Bool) : Predicate Op → List (Predicate Op)
  | .node pop pdrgpexpr =>
    if FConnective fConjunction (.node pop pdrgpexpr) then collectEach fConjunction pdrgpexpr
    else [.node pop pdrgpexpr]

def collectEach (fConjunction : Bool) : List (Predicate Op) → List (Predicate Op)
  | [] => []
  | pexpr :: pdrgpexpr => collect fConjunction pexpr ++ collectEach fConjunction pdrgpexpr

end

attribute [local simp] collect collectEach in
theorem collectEach_eq_flatMap (fConjunction : Bool) (l : List (Predicate Op)) :
    collectEach fConjunction l = l.flatMap (collect fConjunction) := by
  induction l with
  | nil => rfl
  | cons e l ih => rw [collectEach, ih, List.flatMap_cons]

variable {pexpr : Predicate Op} {fConjunction : Bool}

theorem fConnective_iff :
    FConnective fConjunction pexpr = true ↔
      pexpr.Pop = .boolOp (if fConjunction then .and else .or) := by
  cases fConjunction
  · exact fOr_iff
  · exact fAnd_iff

theorem collect_of_connective (h : FConnective fConjunction pexpr = true) :
    collect fConjunction pexpr = pexpr.PdrgPexpr.flatMap (collect fConjunction) := by
  obtain ⟨pop, l⟩ := pexpr
  rw [collect, if_pos h, collectEach_eq_flatMap]
  rfl

theorem collect_of_other
    (h : FConnective fConjunction pexpr = false) : collect fConjunction pexpr = [pexpr] := by
  obtain ⟨pop, l⟩ := pexpr
  rw [collect, h]
  rfl

theorem depth_le_of_mem_collect :
    ∀ e ∈ collect fConjunction pexpr, e.depth ≤ pexpr.depth := by
  induction pexpr using CExpression.induction with
  | node pop l ih =>
    cases h : FConnective fConjunction (.node pop l) with
    | false =>
      rw [collect_of_other h]
      simp
    | true =>
      rw [collect_of_connective h]
      intro e he
      obtain ⟨child, hchild, he⟩ := List.mem_flatMap.1 he
      exact (ih child hchild e he).trans (CExpression.depth_lt hchild).le

/-- The operands of a connective are lower than it. -/
theorem depth_lt_of_mem_collect (h : FConnective fConjunction pexpr = true) :
    ∀ e ∈ collect fConjunction pexpr, e.depth < pexpr.depth := by
  obtain ⟨pop, l⟩ := pexpr
  rw [collect_of_connective h]
  intro e he
  obtain ⟨child, hchild, he⟩ := List.mem_flatMap.1 he
  exact (depth_le_of_mem_collect e he).trans_lt (CExpression.depth_lt hchild)

section Truth

variable {ops : ScalarOperators Op} {X Env : Type} (S : Semantics ops X Env)

/-- Flattening a connective keeps its truth value. -/
theorem joined_collect (fConjunction : Bool) (pexpr : Predicate Op) (env : Env) :
    Truth.joined fConjunction ((collect fConjunction pexpr).map fun e => truth S e env) =
      truth S pexpr env := by
  induction pexpr using CExpression.induction with
  | node pop l ih =>
    cases h : FConnective fConjunction (.node pop l) with
    | false => rw [collect_of_other h, List.map_singleton, Truth.joined_singleton]
    | true =>
      obtain rfl : pop = _ := fConnective_iff.1 h
      rw [collect_of_connective h, List.map_flatMap, Truth.joined_flatMap, truth_connective]
      exact congrArg _ (List.map_congr_left ih)

end Truth

/-! ## Expansion -/

section Expand

variable (ops : ArrayOperators Op) (array_expansion_threshold : ℕ)

/-- What the loops append for one conjunct or disjunct: the parts of an expanded comparison where
    the expansion is of the loop's own connective, and an operand of the other connective with its
    own operands expanded. -/
def expandOne (fConjunction : Bool) (pexpr : Predicate (ArrayOp Op)) :
    List (Predicate (ArrayOp Op)) :=
  if FScalarArrayCmp pexpr then
    collect fConjunction (PexprExpand ops array_expansion_threshold pexpr)
  else if _ : FConnective (!fConjunction) pexpr then
    [PexprConjDisj (!fConjunction) (PdrgpexprDedup ops.predicates
      ((collect (!fConjunction) pexpr).attach.flatMap fun ⟨e, _⟩ => expandOne (!fConjunction) e))]
  else [pexpr]
termination_by pexpr.depth
decreasing_by exact depth_lt_of_mem_collect ‹_› e ‹_›

/-- `CPredicateUtils::PdrgpexprExpandConjuncts` (CPredicateUtils.cpp:415). -/
def PdrgpexprExpandConjuncts (pdrgpexprConjuncts : List (Predicate (ArrayOp Op))) :
    List (Predicate (ArrayOp Op)) :=
  PdrgpexprDedup ops.predicates
    (pdrgpexprConjuncts.flatMap (expandOne ops array_expansion_threshold true))

/-- `CPredicateUtils::PdrgpexprExpandDisjuncts` (CPredicateUtils.cpp:356). -/
def PdrgpexprExpandDisjuncts (pdrgpexprDisjuncts : List (Predicate (ArrayOp Op))) :
    List (Predicate (ArrayOp Op)) :=
  PdrgpexprDedup ops.predicates
    (pdrgpexprDisjuncts.flatMap (expandOne ops array_expansion_threshold false))

variable {pexpr : Predicate (ArrayOp Op)}

variable {ops array_expansion_threshold} in
theorem expandOne_connective {fConjunction : Bool} (h : FConnective (!fConjunction) pexpr = true) :
    expandOne ops array_expansion_threshold fConjunction pexpr =
      [PexprConjDisj (!fConjunction) (PdrgpexprDedup ops.predicates
        ((collect (!fConjunction) pexpr).flatMap
          (expandOne ops array_expansion_threshold (!fConjunction))))] := by
  have hcmp : FScalarArrayCmp pexpr = false := by
    obtain ⟨pop, l⟩ := pexpr
    obtain rfl : pop = _ := fConnective_iff.1 h
    rfl
  rw [expandOne, hcmp, if_neg Bool.false_ne_true, dif_pos h]
  simp

/-! ## Plain arrays -/

mutual

/-- The expression with plain arrays in the comparisons that the expansion of conjuncts (disjuncts)
    writes out: below the connectives that it goes into. -/
def plainArrays (fConjunction : Bool) : Predicate (ArrayOp Op) → Predicate (ArrayOp Op)
  | .node (.boolOp eboolop) pdrgpexpr =>
    if eboolop = if fConjunction then .or else .and then
      .node (.boolOp eboolop) (plainArraysEach fConjunction pdrgpexpr)
    else .node (.boolOp eboolop) pdrgpexpr
  | pexpr => plainComparison array_expansion_threshold pexpr

/-- The operands of the connective in it, or of a repetition of this connective. -/
def plainArraysEach (fConjunction : Bool) :
    List (Predicate (ArrayOp Op)) → List (Predicate (ArrayOp Op))
  | [] => []
  | pexpr :: pdrgpexpr =>
    (if FConnective (!fConjunction) pexpr then plainArrays fConjunction pexpr
      else plainArrays (!fConjunction) pexpr) :: plainArraysEach fConjunction pdrgpexpr

end

/-- No array in a comparison is coerced or multi-dimensional. -/
inductive PlainEverywhere : Predicate (ArrayOp Op) → Prop
  | node (pop : PredicateOp (ArrayOp Op)) (pdrgpexpr : List (Predicate (ArrayOp Op)))
    (each : ∀ pexpr ∈ pdrgpexpr, PlainEverywhere pexpr)
    (plain : ∀ earrccmpt mdid_op, pop = .other (.arrayCmp earrccmpt mdid_op) →
      ∀ pexpr ∈ pdrgpexpr, plainArray pexpr = pexpr) :
    PlainEverywhere (.node pop pdrgpexpr)

variable {ops array_expansion_threshold}

attribute [local simp] plainArrays plainArraysEach in
theorem plainArraysEach_eq_map (fConjunction : Bool) (l : List (Predicate (ArrayOp Op))) :
    plainArraysEach array_expansion_threshold fConjunction l = l.map fun pexpr =>
      if FConnective (!fConjunction) pexpr then
        plainArrays array_expansion_threshold fConjunction pexpr
      else plainArrays array_expansion_threshold (!fConjunction) pexpr := by
  induction l with
  | nil => rfl
  | cons e l ih => rw [plainArraysEach, ih, List.map_cons]

theorem plainArrays_connective (fConjunction : Bool) (eboolop : EBoolOperator)
    (l : List (Predicate (ArrayOp Op))) :
    plainArrays array_expansion_threshold fConjunction (.node (.boolOp eboolop) l) =
      if eboolop = (if fConjunction then .or else .and) then .node (.boolOp eboolop) (l.map fun e =>
        if FConnective (!fConjunction) e then plainArrays array_expansion_threshold fConjunction e
        else plainArrays array_expansion_threshold (!fConjunction) e)
      else .node (.boolOp eboolop) l := by
  rw [plainArrays, plainArraysEach_eq_map]

theorem plainArrays_of_pop (h : ∀ eboolop, pexpr.Pop ≠ .boolOp eboolop) (fConjunction : Bool) :
    plainArrays array_expansion_threshold fConjunction pexpr =
      plainComparison array_expansion_threshold pexpr := by
  obtain ⟨pop, l⟩ := pexpr
  cases pop with
  | boolOp eboolop => exact absurd rfl (h eboolop)
  | _ => rfl

theorem plainComparison_of_other (h : FScalarArrayCmp pexpr = false) :
    plainComparison array_expansion_threshold pexpr = pexpr := by
  unfold plainComparison
  split
  · cases h
  · rfl

/-- The expansion does not go into other expressions. -/
theorem plainArrays_of_neither {fConjunction : Bool} (hcmp : FScalarArrayCmp pexpr = false)
    (hconn : FConnective (!fConjunction) pexpr = false) :
    plainArrays array_expansion_threshold fConjunction pexpr = pexpr := by
  by_cases hbool : ∃ eboolop, pexpr.Pop = .boolOp eboolop
  · obtain ⟨eboolop, hpop⟩ := hbool
    obtain ⟨pop, l⟩ := pexpr
    obtain rfl : pop = _ := hpop
    rw [plainArrays_connective, if_neg]
    rintro rfl
    have hpos : FConnective (!fConjunction)
        (.node (.boolOp (if fConjunction then .or else .and)) l) = true :=
      fConnective_iff.2 (by cases fConjunction <;> rfl)
    rw [hpos] at hconn
    cases hconn
  · rw [plainArrays_of_pop fun eboolop h => hbool ⟨eboolop, h⟩, plainComparison_of_other hcmp]

/-- Where arrays are plain there is nothing to read otherwise. -/
theorem PlainEverywhere.plainArrays_eq
    (h : PlainEverywhere pexpr) : ∀ fConjunction, plainArrays array_expansion_threshold fConjunction pexpr = pexpr := by
  induction h with
  | node pop l _ plain ih =>
    intro fConjunction
    by_cases hbool : ∃ eboolop, pop = .boolOp eboolop
    · obtain ⟨eboolop, rfl⟩ := hbool
      have hmap : (l.map fun e => if FConnective (!fConjunction) e then
          plainArrays array_expansion_threshold fConjunction e
          else plainArrays array_expansion_threshold (!fConjunction) e) = l := by
        refine (List.map_congr_left fun e he => ?_).trans (List.map_id l)
        rw [ih e he, ih e he, ite_self, id]
      rw [plainArrays_connective, hmap, ite_self]
    · have hpop : ∀ eboolop, (CExpression.node pop l).Pop ≠ .boolOp eboolop :=
        fun eboolop h => hbool ⟨eboolop, h⟩
      rw [plainArrays_of_pop hpop]
      unfold plainComparison
      split
      · rename_i earrccmpt mdid_op pexprIdent pexprRight heq
        cases heq
        rw [plain earrccmpt mdid_op rfl pexprRight (by simp), ite_self]
      · rfl

variable {X Env : Type} (S : ArraySemantics ops X Env)

/-- The operands of the other connective, flattened, with their plain arrays. -/
theorem joined_collect_plain (fConjunction : Bool) (h : FConnective (!fConjunction) pexpr = true)
    (env : Env) :
    Truth.joined (!fConjunction) ((collect (!fConjunction) pexpr).map fun e =>
        truth S.toSemantics (plainArrays array_expansion_threshold (!fConjunction) e) env) =
      truth S.toSemantics (plainArrays array_expansion_threshold fConjunction pexpr) env := by
  induction pexpr using CExpression.induction with
  | node pop l ih =>
    obtain rfl : pop = _ := fConnective_iff.1 h
    have hop : (if (!fConjunction) = true then EBoolOperator.and else .or) =
        if fConjunction then .or else .and := by cases fConjunction <;> rfl
    rw [collect_of_connective h, List.map_flatMap, Truth.joined_flatMap, plainArrays_connective,
      if_pos hop, truth_connective, List.map_map]
    refine congrArg _ (List.map_congr_left fun child hchild => ?_)
    dsimp only [Function.comp]
    by_cases hconn : FConnective (!fConjunction) child = true
    · rw [if_pos hconn, ih child hchild hconn]
    · rw [if_neg hconn, collect_of_other (by simpa using hconn), List.map_singleton,
        Truth.joined_singleton]

/-- What is appended for one conjunct has, joined, its truth value with plain arrays: by induction
    on the height of the conjunct. -/
theorem joined_expandOne (lawful : ops.toScalarOperators.Lawful) (fConjunction : Bool)
    (pexpr : Predicate (ArrayOp Op)) (env : Env) :
    Truth.joined fConjunction ((expandOne ops array_expansion_threshold fConjunction pexpr).map
        fun e => truth S.toSemantics e env) =
      truth S.toSemantics (plainArrays array_expansion_threshold fConjunction pexpr) env := by
  induction hdepth : pexpr.depth using Nat.strong_induction_on generalizing fConjunction pexpr with
  | _ n ih =>
    subst hdepth
    by_cases hconn : FConnective (!fConjunction) pexpr = true
    · rw [expandOne_connective hconn, List.map_singleton, Truth.joined_singleton,
        truth_pexprConjDisj, joined_pdrgpexprDedup S.toSemantics (ArrayOp.lawful_operators lawful),
        List.map_flatMap, Truth.joined_flatMap, ← joined_collect_plain S fConjunction hconn]
      refine congrArg _ (List.map_congr_left fun e he => ?_)
      exact ih e.depth (depth_lt_of_mem_collect hconn e he) (!fConjunction) e rfl
    · rw [expandOne, dif_neg hconn]
      by_cases hcmp : FScalarArrayCmp pexpr = true
      · rw [if_pos hcmp, joined_collect, truth_pexprExpand S lawful, plainArrays_of_pop]
        intro eboolop hpop
        obtain ⟨pop, l⟩ := pexpr
        cases hpop
        cases hcmp
      · rw [if_neg hcmp, List.map_singleton, Truth.joined_singleton,
          plainArrays_of_neither (by simpa using hcmp) (by simpa using hconn)]

/-- The loop on conjuncts (disjuncts), with the removal of repetitions. -/
theorem joined_expand (lawful : ops.toScalarOperators.Lawful) (fConjunction : Bool)
    (l : List (Predicate (ArrayOp Op))) (env : Env) :
    Truth.joined fConjunction ((PdrgpexprDedup ops.predicates
        (l.flatMap (expandOne ops array_expansion_threshold fConjunction))).map
          fun e => truth S.toSemantics e env) =
      Truth.joined fConjunction (l.map fun e => truth S.toSemantics
        (plainArrays array_expansion_threshold fConjunction e) env) := by
  rw [joined_pdrgpexprDedup S.toSemantics (ArrayOp.lawful_operators lawful), List.map_flatMap,
    Truth.joined_flatMap]
  exact congrArg _ (List.map_congr_left fun e _ => joined_expandOne S lawful fConjunction e env)

/-- **Expansion keeps the truth value exactly where plain arrays do**: the expanded conjuncts
    (disjuncts), joined, have the truth value of the given ones on a row when taking plain arrays in
    the comparisons that are written out does not change it, as it never does where no array in a
    comparison is coerced or multi-dimensional. -/
theorem pdrgpexprExpand_truth_iff (lawful : ops.toScalarOperators.Lawful)
    (l : List (Predicate (ArrayOp Op))) (env : Env) :
    (Truth.joined true ((PdrgpexprExpandConjuncts ops array_expansion_threshold l).map
          fun e => truth S.toSemantics e env) =
        Truth.joined true (l.map fun e => truth S.toSemantics e env) ↔
      Truth.joined true (l.map fun e =>
          truth S.toSemantics (plainArrays array_expansion_threshold true e) env) =
        Truth.joined true (l.map fun e => truth S.toSemantics e env)) ∧
    (Truth.joined false ((PdrgpexprExpandDisjuncts ops array_expansion_threshold l).map
          fun e => truth S.toSemantics e env) =
        Truth.joined false (l.map fun e => truth S.toSemantics e env) ↔
      Truth.joined false (l.map fun e =>
          truth S.toSemantics (plainArrays array_expansion_threshold false e) env) =
        Truth.joined false (l.map fun e => truth S.toSemantics e env)) ∧
    ((∀ e ∈ l, PlainEverywhere e) → ∀ fConjunction, (l.map fun e =>
        truth S.toSemantics (plainArrays array_expansion_threshold fConjunction e) env) =
      l.map fun e => truth S.toSemantics e env) := by
  refine ⟨?_, ?_, fun hplain fConjunction => ?_⟩
  · rw [PdrgpexprExpandConjuncts, joined_expand S lawful]
  · rw [PdrgpexprExpandDisjuncts, joined_expand S lawful]
  · exact List.map_congr_left fun e he => by rw [(hplain e he).plainArrays_eq]

end Expand

section Examples

/-- Integers, truth values and arrays. -/
inductive ArrayValue where
  | truth (t : Truth)
  | int (value : ℤ)
  | array (values : List ArrayValue)

namespace ArrayValue

/-- Integers compare as such, and nothing else does. -/
def equal : ArrayValue → ArrayValue → Truth
  | .int a, .int b => some (a == b)
  | _, _ => none

def elements : ArrayValue → Option (List ArrayValue)
  | .array values => some values
  | _ => none

/-- Whole units to hundredths. -/
def scale : ArrayValue → ArrayValue
  | .int a => .int (100 * a)
  | x => x

def scaleArray : ArrayValue → ArrayValue
  | .array values => .array (values.map scale)
  | x => x

end ArrayValue

/-- A column, integer constants and the equality of integers. -/
inductive IntegerOp where
  | column
  | const (value : ℤ)
  | eq
  deriving DecidableEq

def integerOps : ArrayOperators IntegerOp where
  Matches := (· == ·)
  matches_refl := by simp
  FInputOrderSensitive := fun _ => true
  FBinaryCoercibleCast := fun _ => false
  FAnd := fun _ => false
  FNot := fun _ => false
  IsEqualityOp := (· == .eq)
  FIDF := fun _ => false
  MdidType := fun pop => if pop = .eq then GPDB_BOOL else 23
  PopScalarCmp := fun _ => .eq
  HashValue := fun _ => 0

/-- The value of an operator; the row is the value of the column. -/
def integerValue : IntegerOp → List (ArrayValue → ArrayValue) → ArrayValue → ArrayValue
  | .column, _, row => row
  | .const value, _, _ => .int value
  | .eq, [v, w], row => .truth ((v row).equal (w row))
  | .eq, _, _ => .truth none

def integerSemantics : ArraySemantics integerOps ArrayValue ArrayValue where
  base :=
    { truth := fun x => match x with
        | .truth t => t
        | _ => none
      ofTruth := .truth
      truth_ofTruth := fun _ => rfl
      existential := fun _ _ => none
      other := integerValue
      boolean := by
        intro pop vs row h
        match pop, vs with
        | .eq, [] => rfl
        | .eq, [_] => rfl
        | .eq, [_, _] => rfl
        | .eq, _ :: _ :: _ :: _ => rfl
      matches_eq := fun pop pop' h => by rw [eq_of_beq h]
      unordered := fun pop h => by cases h }
  compare := fun _ => ArrayValue.equal
  scalarCmp := fun _ _ _ _ => rfl
  elements := ArrayValue.elements
  array := .array
  elements_array := fun _ => rfl
  multiArray := fun xs => .array (xs.flatMap fun x => x.elements.getD [])
  elements_multiArray := fun _ => rfl
  coerceElement := fun _ => ArrayValue.scale
  coerceArray := fun _ => ArrayValue.scaleArray
  elements_coerceArray := fun _ x => by cases x <;> rfl

theorem lawful_integerOps : integerOps.toScalarOperators.Lawful where
  symm _ _ h := beq_iff_eq.2 (eq_of_beq h).symm
  trans _ _ _ h h' := beq_iff_eq.2 ((eq_of_beq h).trans (eq_of_beq h'))
  sensitive _ _ _ := rfl

/-- `ARRAY[values]`, collapsed. -/
def integerArray (values : List ℤ) : Predicate (ArrayOp IntegerOp) :=
  .node (.other (.array ⟨23, 1007, false, values.map .const, by decide⟩)) []

/-- `column = ANY (array)`. -/
def equalsAny (pexprRight : Predicate (ArrayOp IntegerOp)) : Predicate (ArrayOp IntegerOp) :=
  .node (.other (.arrayCmp .any 96)) [.node (.other (.other .column)) [], pexprRight]

/-- `column = ANY (ARRAY[1, 100])` is expanded as it is. -/
theorem pdrgpexprExpand_truth_iff_plain :
    let l := [equalsAny (integerArray [1, 100])]
    Truth.joined true ((PdrgpexprExpandConjuncts integerOps 25 l).map
        fun e => truth integerSemantics.toSemantics e (.int 100)) =
      Truth.joined true (l.map fun e => truth integerSemantics.toSemantics e (.int 100)) :=
  (pdrgpexprExpand_truth_iff integerSemantics lawful_integerOps _ (.int 100)).1.2 rfl

/-- `column = ANY (ARRAY[1])` with the elements converted to hundredths is true of 100, and expanded
    it compares with 1. -/
theorem not_pdrgpexprExpand_truth :
    let e := equalsAny (.node (.other (.arrayCoerce ⟨1, 1231, -1, false, 0, 0, by decide⟩))
      [integerArray [1]])
    Truth.joined true ((PdrgpexprExpandConjuncts integerOps 25 [e]).map
        fun e => truth integerSemantics.toSemantics e (.int 100)) ≠
      Truth.joined true ([e].map fun e => truth integerSemantics.toSemantics e (.int 100)) := by
  intro e
  have hplain : Truth.joined true ([e].map fun e => truth integerSemantics.toSemantics
      (plainArrays 25 true e) (.int 100)) = some false := rfl
  have hcoerced : Truth.joined true ([e].map fun e =>
      truth integerSemantics.toSemantics e (.int 100)) = some true := rfl
  rw [PdrgpexprExpandConjuncts, joined_expand integerSemantics lawful_integerOps, hplain, hcoerced]
  decide

end Examples

end Predicate

end BossOptimizer

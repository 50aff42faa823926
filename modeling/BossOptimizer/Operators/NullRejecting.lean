import BossOptimizer.Operators.BoolEvaluation

/-!
# Null-rejecting predicates: `CPredicateUtils::FNullRejecting` (CPredicateUtils.cpp:2432)

A predicate is evaluated with NULL for the given columns, and rejects NULL if this cannot be TRUE.
What `Eber` makes of an operator is right if it stands for the value of the operator whatever its
children are known to be. It is, except that three operators are taken for NULL with a NULL child:
a comparison with an array, which is TRUE or FALSE if the array is empty; NULLIF, which is its first
operand if the second is NULL; and a cast with a function that is not strict.
-/

namespace BossOptimizer

/-! ## The test -/

namespace Query

variable {D G Op : Type}

/-- `CScalarIdent` of one of the columns. -/
def FIdentOf (pcrs : List CColRef) : QueryOp D Op → Bool
  | .scalarIdent colref => decide (colref ∈ pcrs)
  | _ => false

mutual

/-- `CPredicateUtils::PexprReplaceColsWithNulls` (CPredicateUtils.cpp:2387). -/
def PexprReplaceColsWithNulls (pcrs : List CColRef) :
    Query D (ScalarOp D Op) → Query D (ScalarOp D Op)
  | .node pop pdrgpexpr =>
    if FSubquery pop then .node pop pdrgpexpr
    else if FIdentOf pcrs pop then .node (.other (.constBool none)) []
    else .node pop (replaceColsWithNullsEach pcrs pdrgpexpr)

def replaceColsWithNullsEach (pcrs : List CColRef) :
    List (Query D (ScalarOp D Op)) → List (Query D (ScalarOp D Op))
  | [] => []
  | pexpr :: pdrgpexpr =>
    PexprReplaceColsWithNulls pcrs pexpr :: replaceColsWithNullsEach pcrs pdrgpexpr

end

/-- The derived properties of functions that the test asks for. -/
structure FunctionProps (D Op : Type) where
  /-- `Efs` of `DeriveScalarFunctionProperties` is `EfsVolatile`. -/
  FVolatile : Query D (ScalarOp D Op) → Bool
  /-- `Efda` of `DeriveScalarFunctionProperties` is `EfdaNoSQL`. -/
  FNoSQL : Query D (ScalarOp D Op) → Bool
  DeriveHasNonScalarFunction : Query D (ScalarOp D Op) → Bool

/-- `CPredicateUtils::FNullRejecting` (CPredicateUtils.cpp:2432). -/
def FNullRejecting (md : NullInput) (props : FunctionProps D Op)
    (pexprScalar : Query D (ScalarOp D Op)) (pcrs : List CColRef) : Bool :=
  if props.FVolatile pexprScalar || !props.FNoSQL pexprScalar ||
      props.DeriveHasNonScalarFunction pexprScalar then false
  else
    let eber := CScalar.EberEvaluate md (PexprReplaceColsWithNulls pcrs pexprScalar)
    eber == .eberNull || eber == .eberFalse || eber == .eberNotTrue

attribute [local simp] PexprReplaceColsWithNulls replaceColsWithNullsEach ScalarSemantics.scalarOp
  EBoolTest.eval in
theorem replaceColsWithNullsEach_eq_map (pcrs : List CColRef)
    (l : List (Query D (ScalarOp D Op))) :
    replaceColsWithNullsEach pcrs l = l.map (PexprReplaceColsWithNulls pcrs) := by
  induction l with
  | nil => rfl
  | cons e l ih => rw [replaceColsWithNullsEach, ih, List.map_cons]

end Query

/-! ## What a result of the evaluation stands for -/

namespace EBoolEvalResult

variable {md : NullInput} {D G Op : Type}

/-- The truth values that the result stands for. -/
def AllowsTruth : EBoolEvalResult → Truth → Prop
  | eberTrue, t => t = some true
  | eberFalse, t => t = some false
  | eberNull, t => t = none
  | eberNotTrue, t => t ≠ some true
  | eberAny, _ => True

/-- The values that the result stands for. -/
def AllowsValue (S : ScalarSemantics md D G Op) : EBoolEvalResult → Datum D → Prop
  | eberTrue, v => v = S.ofTruth (some true)
  | eberFalse, v => v = S.ofTruth (some false)
  | eberNull, v => v = ⊥
  | eberNotTrue, v => S.truth v ≠ some true
  | eberAny, _ => True

/-- What an expression may be: a run-time error is not excluded. -/
def Allows (S : ScalarSemantics md D G Op) (eber : EBoolEvalResult) (result : Result D) : Prop :=
  ∀ v ∈ result.values, eber.AllowsValue S v

variable {S : ScalarSemantics md D G Op} {eber : EBoolEvalResult}

attribute [local simp] AllowsTruth AllowsValue in
theorem truth_null (S : ScalarSemantics md D G Op) : S.truth ⊥ = none := by
  rw [← S.ofTruth_unknown, S.truth_ofTruth]

theorem AllowsValue.truth {v : Datum D} (h : eber.AllowsValue S v) :
    eber.AllowsTruth (S.truth v) := by
  cases eber with
  | eberTrue | eberFalse => exact (congrArg S.truth h).trans (S.truth_ofTruth _)
  | eberNull => exact (congrArg S.truth h).trans (truth_null S)
  | eberNotTrue => exact h
  | eberAny => trivial

theorem AllowsTruth.ofTruth {t : Truth} (h : eber.AllowsTruth t) :
    eber.AllowsValue S (S.ofTruth t) := by
  cases eber with
  | eberTrue | eberFalse => exact congrArg S.ofTruth h
  | eberNull => exact (congrArg S.ofTruth h).trans S.ofTruth_unknown
  | eberNotTrue => exact (S.truth_ofTruth t).trans_ne h
  | eberAny => trivial

@[simp] theorem allows_value {v : Datum D} : eber.Allows S (.value v) ↔ eber.AllowsValue S v := by
  simp [Allows, Result.values]

@[simp] theorem allows_failure : eber.Allows S .failure := by simp [Allows, Result.values]

@[simp] theorem allows_any {result : Result D} : eberAny.Allows S result := fun _ _ => trivial

/-! ## Connectives -/

variable {l : List EBoolEvalResult} {ts : List Truth}

/-- A conjunction is FALSE with a FALSE conjunct, and without one NULL if any is NULL. -/
theorem allowsTruth_eberConjunction (h : List.Forall₂ AllowsTruth l ts) :
    (CScalar.EberConjunction l).AllowsTruth (Truth.all ts) := by
  unfold CScalar.EberConjunction
  split_ifs with hfalse htrue hany hnull
  · obtain ⟨e, he, hbeq⟩ := List.any_eq_true.1 hfalse
    obtain ⟨t, ht, hallows⟩ := exists_of_forall₂_left h he
    rw [beq_iff_eq.1 hbeq] at hallows
    have hmem : some false ∈ ts := hallows ▸ ht
    exact (Truth.all_eq ts).trans (if_pos hmem)
  · have hts : ∀ t ∈ ts, t = some true := by
      intro t ht
      obtain ⟨e, he, hallows⟩ := exists_of_forall₂_right h ht
      rwa [beq_iff_eq.1 (List.all_eq_true.1 htrue e he)] at hallows
    rw [Truth.all_eq, if_neg fun hmem => by simpa using hts _ hmem,
      if_neg fun hmem => by simpa using hts _ hmem]
    rfl
  · trivial
  · -- a conjunct is NULL, since not all are TRUE
    have hts : ∀ t ∈ ts, t ≠ some false := by
      intro t ht
      obtain ⟨e, he, hallows⟩ := exists_of_forall₂_right h ht
      have hor := List.all_eq_true.1 hnull e he
      simp only [Bool.or_eq_true, beq_iff_eq] at hor
      rcases hor with rfl | rfl
      · rw [show t = none from hallows]
        simp
      · rw [show t = some true from hallows]
        simp
    have hnone : none ∈ ts := by
      obtain ⟨e, he, hne⟩ : ∃ e ∈ l, e ≠ eberTrue := by
        by_contra hall
        push Not at hall
        exact htrue (List.all_eq_true.2 fun e he => beq_iff_eq.2 (hall e he))
      have hor := List.all_eq_true.1 hnull e he
      simp only [Bool.or_eq_true, beq_iff_eq, hne, or_false] at hor
      obtain ⟨t, ht, hallows⟩ := exists_of_forall₂_left h he
      rw [hor] at hallows
      exact hallows ▸ ht
    rw [Truth.all_eq, if_neg fun hmem => hts _ hmem rfl, if_pos hnone]
    rfl
  · -- some conjunct is NULL or not TRUE
    obtain ⟨e, he, hne⟩ : ∃ e ∈ l, e ≠ eberAny ∧ e ≠ eberTrue := by
      by_contra hall
      push Not at hall
      refine hany (List.all_eq_true.2 fun e he => ?_)
      by_cases heq : e = eberAny
      · simp [heq]
      · simp [hall e he heq]
    obtain ⟨t, ht, hallows⟩ := exists_of_forall₂_left h he
    have hfalse' : e ≠ eberFalse := fun heq => hfalse (List.any_eq_true.2 ⟨e, he, by simp [heq]⟩)
    have htrue' : t ≠ some true := by
      cases e with
      | eberTrue => exact absurd rfl hne.2
      | eberAny => exact absurd rfl hne.1
      | eberFalse => exact absurd rfl hfalse'
      | eberNull => rw [show t = none from hallows]; simp
      | eberNotTrue => exact hallows
    intro hall
    exact htrue' ((Truth.holds_all ts).1 ((Truth.holds_false_iff _).2 hall) t ht)

/-- A disjunction is TRUE with a TRUE disjunct, and without one NULL if any is NULL. -/
theorem allowsTruth_eberDisjunction (h : List.Forall₂ AllowsTruth l ts) :
    (CScalar.EberDisjunction l).AllowsTruth (Truth.any ts) := by
  unfold CScalar.EberDisjunction
  split_ifs with htrue hfalse hany hnotTrue hnull
  · obtain ⟨e, he, hbeq⟩ := List.any_eq_true.1 htrue
    obtain ⟨t, ht, hallows⟩ := exists_of_forall₂_left h he
    rw [beq_iff_eq.1 hbeq] at hallows
    have hmem : some true ∈ ts := hallows ▸ ht
    exact (Truth.any_eq ts).trans (if_pos hmem)
  · have hts : ∀ t ∈ ts, t = some false := by
      intro t ht
      obtain ⟨e, he, hallows⟩ := exists_of_forall₂_right h ht
      rwa [beq_iff_eq.1 (List.all_eq_true.1 hfalse e he)] at hallows
    rw [Truth.any_eq, if_neg fun hmem => by simpa using hts _ hmem,
      if_neg fun hmem => by simpa using hts _ hmem]
    rfl
  · trivial
  all_goals
    -- what is neither TRUE nor unknown to the evaluation is not TRUE
    have hts : ∀ t ∈ ts, t ≠ some true := by
      intro t ht
      obtain ⟨e, he, hallows⟩ := exists_of_forall₂_right h ht
      cases e with
      | eberTrue => exact absurd (List.any_eq_true.2 ⟨_, he, rfl⟩) htrue
      | eberAny => exact absurd (List.any_eq_true.2 ⟨_, he, rfl⟩) hany
      | eberFalse => rw [show t = some false from hallows]; simp
      | eberNull => rw [show t = none from hallows]; simp
      | eberNotTrue => exact hallows
  · intro hall
    obtain ⟨t, ht, htrue'⟩ := (Truth.holds_any ts).1 ((Truth.holds_false_iff _).2 hall)
    exact hts t ht htrue'
  · obtain ⟨e, he, hbeq⟩ := List.any_eq_true.1 hnull
    obtain ⟨t, ht, hallows⟩ := exists_of_forall₂_left h he
    rw [beq_iff_eq.1 hbeq] at hallows
    have hnone : none ∈ ts := hallows ▸ ht
    rw [Truth.any_eq, if_neg fun hmem => hts _ hmem rfl, if_pos hnone]
    rfl
  · trivial

theorem allowsTruth_boolOp {eboolop : EBoolOperator} (h : List.Forall₂ AllowsTruth l ts) :
    (CScalar.boolOp eboolop l).AllowsTruth (eboolop.eval ts) := by
  cases eboolop with
  | and => exact allowsTruth_eberConjunction h
  | or => exact allowsTruth_eberDisjunction h
  | not =>
    cases h with
    | nil => trivial
    | @cons e t _ _ hallows _ =>
      cases e with
      | eberTrue | eberFalse | eberNull => rw [show t = _ from hallows]; rfl
      | eberNotTrue | eberAny => trivial

theorem allowsTruth_booleanTest {ebt : EBoolTest} {t : Truth} (h : eber.AllowsTruth t) :
    (CScalar.booleanTest ebt [eber]).AllowsTruth (some (ebt.eval t)) := by
  cases eber with
  | eberTrue | eberFalse | eberNull => rw [show t = _ from h]; cases ebt <;> rfl
  | eberNotTrue =>
    have hbeq : (t == some true) = false := beq_eq_false_iff_ne.2 h
    cases ebt with
    | isTrue => exact congrArg some hbeq
    | isNotTrue => exact congrArg (fun b => some !b) hbeq
    | _ => trivial
  | eberAny => cases ebt <;> trivial

end EBoolEvalResult

/-! ## Operators -/

namespace ScalarSemantics

open EBoolEvalResult Result

variable {md : NullInput} {D G Op : Type} (S : ScalarSemantics md D G Op)

/-- The environments in which a scalar operator that `Eber` knows evaluates its children. -/
def sites : QueryOp D (ScalarOp D Op) → List (Env D G → Result D) → Env D G → ℕ → Env D G → Prop
  | .scalarCmp _, _, env, _, env' => env' = env
  | .scalarBoolOp _, _, env, _, env' => env' = env
  | .other pop, vs, env, i, env' => match pop with
    | .other _ => False
    | .switch => match vs, i with
      | _, 0 => env' = env
      | operand :: _, _ + 1 => ∃ v, operand env = .value v ∧ env' = S.withCase env v
      | [], _ + 1 => False
    | _ => env' = env
  | _, _, _, _, _ => False

/-- What `Eber` makes of the operator stands for its value, whatever stands for its children. -/
def OverApproximates (pop : QueryOp D (ScalarOp D Op)) (vs : List (Env D G → Result D))
    (env : Env D G) : Prop :=
  ∀ ebers : List EBoolEvalResult, ebers.length = vs.length →
    (∀ i eber v env', ebers[i]? = some eber → vs[i]? = some v → S.sites pop vs env i env' →
      eber.Allows S (v env')) →
    (CScalar.Eber md pop ebers).Allows S (S.toSemantics.op pop vs env)

/-- The operator is NULL where it is taken for it: with a NULL child. -/
def NullSafe (pop : QueryOp D (ScalarOp D Op)) (vs : List (Env D G → Result D))
    (env : Env D G) : Prop :=
  match pop, vs with
  | .other (.arrayCmp _ mdid), [left, right] =>
    md.FScalarOpReturnsNullOnNullInput mdid = true → left env = .value ⊥ →
      ∀ a, right env = .value a → S.elements a ≠ some []
  | .other (.nullIf mdid), [left, right] =>
    md.FScalarOpReturnsNullOnNullInput mdid = true → right env = .value ⊥ →
      ∀ v, left env = .value v → v = ⊥
  | .other (.cast (some mdid)), [child] => child env = .value ⊥ → S.cast mdid ⊥ = ⊥
  | _, _ => True

variable {S} {vs : List (Env D G → Result D)} {env : Env D G} {ebers : List EBoolEvalResult}

theorem allows_nullOnNullInput {flag : Bool} {result : Result D}
    (h : flag = true → eberNull ∈ ebers → ∀ v ∈ result.values, v = ⊥) :
    (CScalar.nullOnNullInput flag ebers).Allows S result := by
  unfold CScalar.nullOnNullInput CScalar.EberNullOnAnyNullChild
  split_ifs with hflag hnull
  · obtain ⟨e, he, hbeq⟩ := List.any_eq_true.1 hnull
    exact h hflag (beq_iff_eq.1 hbeq ▸ he)
  · exact allows_any
  · exact allows_any

theorem allows_nullOnAllNullChildren {result : Result D}
    (h : (∀ eber ∈ ebers, eber = eberNull) → ∀ v ∈ result.values, v = ⊥) :
    (CScalar.EberNullOnAllNullChildren ebers).Allows S result := by
  unfold CScalar.EberNullOnAllNullChildren
  split_ifs with hnull
  · exact h fun e he => beq_iff_eq.1 (List.all_eq_true.1 hnull e he)
  · exact allows_any

/-- An operator on the values of its children that is NULL if one of them is. -/
theorem allows_nullOnNullInput_mapM {flag : Bool} {f : List (Datum D) → Result D}
    (hf : flag = true → ∀ vals, ⊥ ∈ vals → ∀ v ∈ (f vals).values, v = ⊥)
    (h : List.Forall₂ (fun eber v => Allows S eber (v env)) ebers vs) :
    (CScalar.nullOnNullInput flag ebers).Allows S
      (ofOption do
        let vals ← vs.mapM fun child => (child env).value?
        some (f vals)) := by
  refine allows_nullOnNullInput fun hflag hnull => ?_
  cases hvals : vs.mapM fun child => (child env).value? with
  | none => simp [ofOption, values]
  | some vals =>
    obtain ⟨child, hchild, hallows⟩ := exists_of_forall₂_left h hnull
    obtain ⟨v, hv, hvalue⟩ := exists_of_forall₂_left (mapM_eq_some_iff.1 hvals) hchild
    rw [value?_eq_some] at hvalue
    rw [hvalue, allows_value] at hallows
    exact hf hflag vals (hallows ▸ hv)

/-- The same of an operator with two children. -/
theorem allows_nullOnNullInput_pair {flag : Bool} {left right : Result D}
    {eber eber' : EBoolEvalResult} {f : Datum D → Datum D → Datum D}
    (hf : flag = true → ∀ v w, left = .value v → right = .value w → v = ⊥ ∨ w = ⊥ → f v w = ⊥)
    (hleft : eber.Allows S left) (hright : eber'.Allows S right) :
    (CScalar.nullOnNullInput flag [eber, eber']).Allows S
      (ofOption do
        let v ← left.value?
        let w ← right.value?
        some (.value (f v w))) := by
  refine allows_nullOnNullInput fun hflag hnull => ?_
  cases left with
  | value v =>
    cases right with
    | value w =>
      have hor : v = ⊥ ∨ w = ⊥ := by
        rcases List.mem_pair.1 hnull with rfl | rfl
        · exact .inl (allows_value.1 hleft)
        · exact .inr (allows_value.1 hright)
      simpa [ofOption, values] using hf hflag v w rfl rfl hor
    | _ => simp [ofOption, values, value?]
  | _ => simp [ofOption, values, value?]

/-- With a NULL operand every comparison with an element is unknown. -/
theorem compareArray_null {earrccmpt : EArrCmpType} {mdid : ℕ} {v a : Datum D}
    (hflag : md.FScalarOpReturnsNullOnNullInput mdid = true) (hv : v = ⊥ ∨ a = ⊥)
    (ha : v = ⊥ → S.elements a ≠ some []) : S.compareArray earrccmpt mdid v a = none := by
  unfold compareArray
  cases hxs : S.elements a with
  | none => rfl
  | some xs =>
    have hbot : v = ⊥ := hv.resolve_right fun h => by
      rw [h, S.elements_null] at hxs
      cases hxs
    have hmap : xs.map (S.cmp mdid v) = List.replicate xs.length none :=
      List.map_eq_replicate_iff.2 fun x _ => S.cmp_null mdid v x hflag (.inl hbot)
    have hmem : none ∈ List.replicate xs.length (none : Truth) := by
      refine List.mem_replicate.2 ⟨fun hlen => ?_, rfl⟩
      rw [List.length_eq_zero_iff.1 hlen] at hxs
      exact ha hbot hxs
    have hconst : ∀ b : Bool, some b ∉ List.replicate xs.length (none : Truth) :=
      fun b hb => by simpa using List.eq_of_mem_replicate hb
    cases earrccmpt with
    | any =>
      show Truth.any (xs.map (S.cmp mdid v)) = none
      rw [hmap, Truth.any_eq, if_neg (hconst true), if_pos hmem]
    | all =>
      show Truth.all (xs.map (S.cmp mdid v)) = none
      rw [hmap, Truth.all_eq, if_neg (hconst false), if_pos hmem]

theorem firstNotNull_null {results : List (Result D)}
    (h : ∀ r ∈ results, ∀ v ∈ r.values, v = ⊥) : ∀ v ∈ (firstNotNull results).values, v = ⊥ := by
  induction results with
  | nil => simp [firstNotNull, values]
  | cons r rest ih =>
    have hrest := ih fun r hr => h r (List.mem_cons_of_mem _ hr)
    cases r with
    | value v =>
      have hv : v = ⊥ := h _ List.mem_cons_self v (by simp [values])
      subst hv
      exact hrest
    | _ => simp [firstNotNull, values]

theorem firstCase_null {results : List (Result D)}
    (h : ∀ r ∈ results, ∀ v ∈ r.values, v = ⊥) : ∀ v ∈ (firstCase results).values, v = ⊥ := by
  induction results with
  | nil => simp [firstCase, values]
  | cons r rest ih =>
    have hrest := ih fun r hr => h r (List.mem_cons_of_mem _ hr)
    have hr := h r List.mem_cons_self
    cases r with
    | value v => exact hr
    | set vs =>
      cases vs with
      | nil => exact hrest
      | cons v vs => simpa [firstCase, values] using hr v (by simp [values])
    | _ => simp [firstCase, values]

theorem minMax_null {choose : D → D → D} {vals : List (Datum D)} (h : ∀ v ∈ vals, v = ⊥) :
    minMax choose vals = ⊥ := by
  induction vals with
  | nil => rfl
  | cons v vals ih =>
    rw [h v List.mem_cons_self]
    exact ih fun w hw => h w (List.mem_cons_of_mem _ hw)

/-- What stands for the children stands for their values. -/
theorem allowsValue_of_mapM (h : List.Forall₂ (fun eber v => Allows S eber (v env)) ebers vs)
    {vals : List (Datum D)} (hvals : (vs.mapM fun child => (child env).value?) = some vals) :
    List.Forall₂ (AllowsValue S) ebers vals := by
  rw [mapM_eq_some_iff] at hvals
  induction h generalizing vals with
  | nil =>
    cases hvals
    exact .nil
  | cons hallows _ ih =>
    cases hvals with
    | cons hval hrest =>
      rw [value?_eq_some.1 hval, allows_value] at hallows
      exact .cons hallows (ih hrest)

/-- NULL is distinct from both truth values, and these from each other. -/
theorem allows_isDistinctFrom {mdid : ℕ} {left right : Result D} {eber eber' : EBoolEvalResult}
    (hleft : eber.Allows S left) (hright : eber'.Allows S right) :
    (CScalar.isDistinctFrom [eber, eber']).Allows S
      (ofOption do
        let v ← left.value?
        let w ← right.value?
        some (.value (S.ofTruth (some (S.distinct mdid v w))))) := by
  cases left with
  | value v =>
    cases right with
    | value w =>
      rw [allows_value] at hleft hright
      refine allows_value.2 ?_
      have hne : ∀ b : Bool, S.ofTruth (some b) ≠ ⊥ := fun b hb => by
        have htruth := congrArg S.truth hb
        rw [S.truth_ofTruth, truth_null] at htruth
        cases htruth
      have hnull := fun b => S.distinct_null mdid _ (hne b)
      have hbool := S.distinct_bool mdid
      cases eber with
      | eberNotTrue | eberAny => cases eber' <;> trivial
      | eberTrue | eberFalse | eberNull =>
        have hv : v = _ := hleft
        subst hv
        cases eber' with
        | eberNotTrue | eberAny => trivial
        | eberTrue | eberFalse | eberNull =>
          have hw : w = _ := hright
          subst hw
          refine congrArg (fun b => S.ofTruth (some b)) ?_
          first
            | exact S.distinct_self mdid _
            | exact hbool _
            | exact (hnull _).1
            | exact (hnull _).2
    | _ => exact allows_failure
  | _ => exact allows_failure

/-- What may be TRUE or FALSE is not NULL. -/
theorem allows_nullTest {child : Result D} {eber : EBoolEvalResult} (h : eber.Allows S child) :
    (CScalar.nullTest [eber]).Allows S
      (ofOption do
        let v ← child.value?
        some (.value (S.ofTruth (some v.isNone)))) := by
  cases child with
  | value v =>
    rw [allows_value] at h
    refine allows_value.2 ?_
    cases eber with
    | eberNull =>
      have hv : v = ⊥ := h
      subst hv
      rfl
    | eberTrue | eberFalse =>
      cases v with
      | none =>
        have htruth := h.truth
        rw [show S.truth none = none from truth_null S] at htruth
        cases htruth
      | some x => rfl
    | eberNotTrue | eberAny => trivial
  | _ => exact allows_failure

/-- A CASE with an operand evaluates its cases where their conditions see its value. -/
theorem overApproximates_switch : S.OverApproximates (.other .switch) vs env := by
  intro ebers hlen h
  refine allows_nullOnAllNullChildren fun hnull => ?_
  cases vs with
  | nil => simp [toSemantics, QuerySemantics.op, scalarOp, values]
  | cons operand cases =>
    cases hv : operand env with
    | value v =>
      have hcases : ∀ r ∈ cases.map fun child => child (S.withCase env v),
          ∀ w ∈ r.values, w = ⊥ := by
        intro r hr
        obtain ⟨child, hchild, rfl⟩ := List.mem_map.1 hr
        obtain ⟨i, hi⟩ := List.mem_iff_getElem?.1 hchild
        obtain ⟨eber, heber⟩ : ∃ eber, ebers[i + 1]? = some eber :=
          ⟨_, List.getElem?_eq_getElem
            (hlen ▸ Nat.succ_lt_succ (List.getElem?_eq_some_iff.1 hi).1)⟩
        have hallows := h (i + 1) eber child _ heber hi ⟨v, hv, rfl⟩
        rwa [hnull eber (List.mem_of_getElem? heber)] at hallows
      simpa [toSemantics, QuerySemantics.op, scalarOp, hv, ofOption] using firstCase_null hcases
    | _ => simp [toSemantics, QuerySemantics.op, scalarOp, hv, ofOption, values, value?]

/-- The other operators evaluate their children where they are. -/
theorem allows_scalarOp {pop : ScalarOp D Op} (hswitch : pop ≠ .switch)
    (hsafe : S.NullSafe (.other pop) vs env)
    (h : List.Forall₂ (fun eber v => Allows S eber (v env)) ebers vs) :
    (CScalar.Eber md (.other pop) ebers).Allows S (S.scalarOp pop vs env) := by
  cases pop with
  | switch => exact absurd rfl hswitch
  | other pop => exact allows_any
  | constBool t =>
    cases vs with
    | nil => rcases t with _ | _ | _ <;> exact allows_value.2 (AllowsTruth.ofTruth rfl)
    | cons v vs => exact allows_failure
  | const datum =>
    cases vs with
    | nil =>
      cases datum with
      | none => exact allows_value.2 rfl
      | some x => exact allows_any
    | cons v vs => exact allows_failure
  | isDistinctFrom mdid =>
    rcases h with _ | ⟨hleft, _ | ⟨hright, _ | _⟩⟩
    · exact allows_failure
    · exact allows_failure
    · exact allows_isDistinctFrom hleft hright
    · exact allows_failure
  | arrayCmp earrccmpt mdid =>
    rcases h with _ | ⟨hleft, _ | ⟨hright, _ | _⟩⟩
    · exact allows_failure
    · exact allows_failure
    · refine allows_nullOnNullInput_pair (fun hflag v a hv ha hnull => ?_) hleft hright
      show S.ofTruth (S.compareArray earrccmpt mdid v a) = ⊥
      rw [compareArray_null hflag hnull fun hbot => hsafe hflag (hbot ▸ hv) a ha,
        S.ofTruth_unknown]
    · exact allows_failure
  | nullIf mdid =>
    rcases h with _ | ⟨hleft, _ | ⟨hright, _ | _⟩⟩
    · exact allows_failure
    · exact allows_failure
    · refine allows_nullOnNullInput_pair (fun hflag v w hv hw hnull => ?_) hleft hright
      have hbot : v = ⊥ := hnull.elim id fun hbot => hsafe hflag (hbot ▸ hw) v hv
      rw [hbot]
      rfl
    · exact allows_failure
  | op mdid =>
    exact allows_nullOnNullInput_mapM
      (fun hflag vals hbot => by simpa [values] using S.op_null mdid vals hflag hbot) h
  | func mdid =>
    exact allows_nullOnNullInput_mapM (fun hflag vals => S.func_null mdid vals hflag) h
  | cast mdid =>
    rcases h with _ | @⟨eber, child, _, _, hchild, _ | _⟩
    · exact allows_failure
    · refine allows_nullOnAllNullChildren fun hnull => ?_
      rw [hnull eber (by simp)] at hchild
      cases hv : child env with
      | value v =>
        rw [hv, allows_value] at hchild
        have hbot : v = ⊥ := hchild
        subst hbot
        cases mdid with
        | none => simp [scalarOp, hv, ofOption, values]
        | some mdid => simpa [scalarOp, hv, ofOption, values] using hsafe hv
      | _ => simp [scalarOp, hv, ofOption, values, value?]
    · exact allows_failure
  | coerceToDomain mdid => exact allows_any
  | coalesce =>
    refine allows_nullOnAllNullChildren fun hnull => firstNotNull_null fun r hr => ?_
    obtain ⟨child, hchild, rfl⟩ := List.mem_map.1 hr
    obtain ⟨eber, heber, hallows⟩ := exists_of_forall₂_right h hchild
    rwa [hnull eber heber] at hallows
  | minMax mdid esmmt =>
    refine allows_nullOnAllNullChildren fun hnull => ?_
    cases hvals : vs.mapM fun child => (child env).value? with
    | none => simp [scalarOp, hvals, ofOption, values]
    | some vals =>
      have hbot : ∀ v ∈ vals, v = ⊥ := by
        intro v hv
        obtain ⟨eber, heber, hallows⟩ :=
          exists_of_forall₂_right (allowsValue_of_mapM h hvals) hv
        rwa [hnull eber heber] at hallows
      simpa [scalarOp, hvals, ofOption, values] using minMax_null hbot
  | ifElse =>
    rcases h with _ | @⟨e, cond, _, _, _, _ | @⟨epos, pos, _, _, hpos, _ | @⟨eneg, neg, _, _, hneg,
      _ | _⟩⟩⟩
    · exact allows_failure
    · exact allows_failure
    · exact allows_failure
    · refine allows_nullOnAllNullChildren fun hnull => ?_
      rw [hnull epos (by simp)] at hpos
      rw [hnull eneg (by simp)] at hneg
      cases hv : cond env with
      | value v =>
        simp only [scalarOp, hv, value?_value, Option.bind_eq_bind, Option.bind_some, ofOption]
        split_ifs
        · exact hpos
        · exact hneg
      | _ => simp [scalarOp, hv, ofOption, values, value?]
    · exact allows_failure
  | switchCase =>
    rcases h with _ | @⟨e, cond, _, _, hcond, _ | ⟨_, _ | _⟩⟩
    · exact allows_failure
    · exact allows_failure
    · refine allows_nullOnAllNullChildren fun hnull => ?_
      rw [hnull e (by simp)] at hcond
      cases hv : cond env with
      | value v =>
        rw [hv, allows_value] at hcond
        -- the condition is unknown, and the case is not taken
        simp [scalarOp, hv, show S.truth v = none from hcond.truth, ofOption, values]
      | _ => simp [scalarOp, hv, ofOption, values, value?]
    · exact allows_failure
  | nullTest =>
    rcases h with _ | ⟨hchild, _ | _⟩
    · exact allows_failure
    · exact allows_nullTest hchild
    · exact allows_failure
  | booleanTest ebt =>
    rcases h with _ | @⟨eber, child, _, _, hchild, _ | _⟩
    · exact allows_failure
    · cases hv : child env with
      | value v =>
        rw [hv, allows_value] at hchild
        simp only [scalarOp, hv, value?_value, Option.bind_eq_bind, Option.bind_some, ofOption]
        exact allows_value.2 (allowsTruth_booleanTest hchild.truth).ofTruth
      | _ => simp [scalarOp, hv, ofOption, value?]
    · exact allows_failure

theorem sites_self {pop : ScalarOp D Op} (hswitch : pop ≠ .switch) (hother : ∀ p, pop ≠ .other p)
    (i : ℕ) : S.sites (.other pop) vs env i env := by
  cases pop with
  | switch => exact absurd rfl hswitch
  | other p => exact absurd rfl (hother p)
  | _ => rfl

/-- An operator is what it is taken for wherever it is NULL safe. -/
theorem overApproximates_of_nullSafe {pop : QueryOp D (ScalarOp D Op)}
    (hsafe : S.NullSafe pop vs env) : S.OverApproximates pop vs env := by
  intro ebers hlen h
  have hchildren : (∀ i, S.sites pop vs env i env) →
      List.Forall₂ (fun eber v => Allows S eber (v env)) ebers vs := fun hsites =>
    forall₂_of_getElem? hlen fun i eber v he hv => h i eber v env he hv (hsites i)
  cases pop with
  | scalarCmp mdid =>
    match vs, ebers, hchildren fun _ => rfl with
    | [left, right], [eber, eber'], .cons hleft (.cons hright .nil) =>
      refine allows_nullOnNullInput_pair (fun hflag v w _ _ hnull => ?_) hleft hright
      show S.ofTruth (S.cmp mdid v w) = ⊥
      rw [S.cmp_null mdid v w hflag hnull, S.ofTruth_unknown]
    | [], _, _ | [_], _, _ | _ :: _ :: _ :: _, _, _ => exact allows_failure
  | scalarBoolOp eboolop =>
    show (CScalar.boolOp eboolop ebers).Allows S (ofOption _)
    cases hvals : vs.mapM fun child => (child env).value? with
    | none => exact allows_failure
    | some vals =>
      have htruth : List.Forall₂ AllowsTruth ebers (vals.map S.truth) := by
        rw [List.forall₂_map_right_iff]
        exact (allowsValue_of_mapM (hchildren fun _ => rfl) hvals).imp fun _ _ => AllowsValue.truth
      exact allows_value.2 (allowsTruth_boolOp htruth).ofTruth
  | other pop =>
    by_cases hswitch : pop = .switch
    · subst hswitch
      exact overApproximates_switch ebers hlen h
    by_cases hother : ∃ p, pop = .other p
    · obtain ⟨p, rfl⟩ := hother
      exact allows_any
    · exact allows_scalarOp hswitch hsafe
        (hchildren fun i => sites_self hswitch (fun p hp => hother ⟨p, hp⟩) i)
  | _ => exact allows_any

/-- TRUE and FALSE are not NULL. -/
theorem ofTruth_some_ne (b : Bool) : S.ofTruth (some b) ≠ ⊥ := by
  intro h
  have htruth := congrArg S.truth h
  rw [S.truth_ofTruth, truth_null] at htruth
  cases htruth

/-- Where it is not NULL safe, an operator that is taken for NULL has another value. -/
theorem nullSafe_of_overApproximates {pop : QueryOp D (ScalarOp D Op)}
    (h : S.OverApproximates pop vs env) : S.NullSafe pop vs env := by
  unfold NullSafe
  split
  · rename_i earrccmpt mdid left right
    intro hflag hleft a hright hempty
    have hallows := h [eberNull, eberAny] rfl fun i eber v env' heber hv hsite => by
      have henv : env' = env := hsite
      subst henv
      rcases i with _ | _ | i
      · cases heber
        cases hv
        rw [hleft]
        exact allows_value.2 rfl
      · cases heber
        exact allows_any
      · cases heber
    simp only [toSemantics, QuerySemantics.op, scalarOp, hleft, hright, value?_value, ofOption,
      Option.bind_eq_bind, Option.bind_some, CScalar.Eber, hflag, CScalar.nullOnNullInput,
      CScalar.EberNullOnAnyNullChild, allows_value, compareArray, hempty] at hallows
    cases earrccmpt
    · exact ofTruth_some_ne false hallows
    · exact ofTruth_some_ne true hallows
  · rename_i mdid left right
    intro hflag hright v hleft
    have hallows := h [eberAny, eberNull] rfl fun i eber v env' heber hv hsite => by
      have henv : env' = env := hsite
      subst henv
      rcases i with _ | _ | i
      · cases heber
        exact allows_any
      · cases heber
        cases hv
        rw [hright]
        exact allows_value.2 rfl
      · cases heber
    have hnullIf : S.nullIf mdid v ⊥ = v := by
      have hcond : (Option.isSome (⊥ : Datum D)) = false := rfl
      simp [nullIf, hcond]
    simp only [toSemantics, QuerySemantics.op, scalarOp, hleft, hright, value?_value, ofOption,
      Option.bind_eq_bind, Option.bind_some, CScalar.Eber, hflag, CScalar.nullOnNullInput,
      CScalar.EberNullOnAnyNullChild, allows_value, hnullIf] at hallows
    exact hallows
  · rename_i mdid child
    intro hchild
    have hallows := h [eberNull] rfl fun i eber v env' heber hv hsite => by
      have henv : env' = env := hsite
      subst henv
      rcases i with _ | i
      · cases heber
        cases hv
        rw [hchild]
        exact allows_value.2 rfl
      · cases heber
    simp only [toSemantics, QuerySemantics.op, scalarOp, hchild, value?_value, ofOption,
      Option.bind_eq_bind, Option.bind_some, CScalar.Eber, CScalar.EberNullOnAllNullChildren,
      allows_value] at hallows
    exact hallows
  · trivial

end ScalarSemantics

/-! ## Predicates -/

namespace Query

open EBoolEvalResult

variable {md : NullInput} {D G Op : Type} (S : ScalarSemantics md D G Op)

/-- All columns are NULL in the row. -/
def NullOn (pcrs : List CColRef) (env : Env D G) : Prop := ∀ colref ∈ pcrs, env.row colref = ⊥

/-- The part of the predicate is evaluated in the environment when the predicate is, outside of
    subqueries and of operators of which nothing is known. -/
inductive Part : Query D (ScalarOp D Op) → Env D G → Query D (ScalarOp D Op) → Env D G → Prop
  | here (pexpr : Query D (ScalarOp D Op)) (env : Env D G) : Part pexpr env pexpr env
  | child {pop : QueryOp D (ScalarOp D Op)} {pdrgpexpr : List (Query D (ScalarOp D Op))}
    {child part : Query D (ScalarOp D Op)} {env env' env'' : Env D G} {i : ℕ}
    (get : pdrgpexpr[i]? = some child)
    (site : S.sites pop (pdrgpexpr.map (eval S.toSemantics)) env i env')
    (rest : Part child env' part env'') : Part (.node pop pdrgpexpr) env part env''

/-- `Eber` is right for the root operator. -/
def RootOverApproximates : Query D (ScalarOp D Op) → Env D G → Prop
  | .node pop pdrgpexpr, env =>
    S.OverApproximates pop (pdrgpexpr.map (eval S.toSemantics)) env

/-- The root operator is NULL where it is taken for it. -/
def RootNullSafe : Query D (ScalarOp D Op) → Env D G → Prop
  | .node pop pdrgpexpr, env => S.NullSafe pop (pdrgpexpr.map (eval S.toSemantics)) env

variable {S} {pcrs : List CColRef}

theorem rootOverApproximates_iff (pexpr : Query D (ScalarOp D Op)) (env : Env D G) :
    RootOverApproximates S pexpr env ↔ RootNullSafe S pexpr env := by
  cases pexpr with
  | node pop pdrgpexpr =>
    exact ⟨ScalarSemantics.nullSafe_of_overApproximates,
      ScalarSemantics.overApproximates_of_nullSafe⟩

/-- No operator changes the row for its operands. -/
theorem sites_row {pop : QueryOp D (ScalarOp D Op)} {vs : List (Env D G → Result D)}
    {env env' : Env D G} {i : ℕ} (h : S.sites pop vs env i env') : env'.row = env.row := by
  have hsame : env' = env → env'.row = env.row := fun heq => heq ▸ rfl
  cases pop with
  | other pop =>
    cases pop with
    | other p => cases h
    | switch =>
      cases i with
      | zero => cases vs <;> exact hsame h
      | succ i =>
        cases vs with
        | nil => cases h
        | cons operand cases =>
          obtain ⟨v, -, henv⟩ := h
          rw [henv, S.withCase_row]
    | _ => exact hsame h
  | scalarCmp mdid => exact hsame h
  | scalarBoolOp eboolop => exact hsame h
  | _ => cases h

/-- **`EberEvaluate` over-approximates** a predicate with the columns replaced by NULL, in every row
    in which they are NULL: by induction on the predicate, each operator is right about its
    children. -/
theorem eberEvaluate_allows {pexpr : Query D (ScalarOp D Op)} {env : Env D G}
    (hnull : NullOn pcrs env)
    (hsafe : ∀ part env', Part S pexpr env part env' → RootNullSafe S part env') :
    (CScalar.EberEvaluate md (PexprReplaceColsWithNulls pcrs pexpr)).Allows S
      (eval S.toSemantics pexpr env) := by
  induction pexpr using CExpression.induction generalizing env with
  | node pop l ih =>
    rw [PexprReplaceColsWithNulls]
    split_ifs with hsub hident
    · rw [CScalar.eberEvaluate_node, if_pos hsub]
      cases pop <;> first | exact allows_any | cases hsub
    · -- a column of the set: NULL in the row
      cases pop with
      | scalarIdent colref =>
        rw [CScalar.eberEvaluate_node, eval_node]
        cases l with
        | nil => exact allows_value.2 (hnull colref (of_decide_eq_true hident))
        | cons e l => exact allows_failure
      | _ => cases hident
    · rw [CScalar.eberEvaluate_node, if_neg hsub, replaceColsWithNullsEach_eq_map, eval_node,
        List.map_map]
      have hroot := (rootOverApproximates_iff _ env).2 (hsafe _ env (.here _ env))
      refine hroot _ (by simp) fun i eber v env' heber hv hsite => ?_
      rw [List.getElem?_map] at heber hv
      obtain ⟨child, hchild, rfl⟩ := Option.map_eq_some_iff.1 hv
      rw [hchild, Option.map_some, Option.some.injEq] at heber
      subst heber
      refine ih child (List.mem_of_getElem? hchild) (fun colref hcol => ?_)
        fun part env'' hpart => hsafe part env'' (.child hchild hsite hpart)
      rw [sites_row hsite]
      exact hnull colref hcol

/-- **When `FNullRejecting` is sound**: each `Eber` is right about its operator in all parts of a
    predicate, for a row in which the columns are NULL, exactly when there no comparison with an
    empty array has a NULL operand, no NULLIF a NULL second operand without a NULL first, and no
    cast makes another value of NULL; then no such predicate that is called null rejecting is
    TRUE. -/
theorem fNullRejecting_sound_iff (props : FunctionProps D Op) (pexpr : Query D (ScalarOp D Op))
    (pcrs : List CColRef) (env : Env D G) (hnull : NullOn pcrs env) :
    ((∀ part env', Part S pexpr env part env' → RootOverApproximates S part env') ↔
      ∀ part env', Part S pexpr env part env' → RootNullSafe S part env') ∧
    ((∀ part env', Part S pexpr env part env' → RootNullSafe S part env') →
      (CScalar.EberEvaluate md (PexprReplaceColsWithNulls pcrs pexpr)).Allows S
        (eval S.toSemantics pexpr env) ∧
      (FNullRejecting md props pexpr pcrs = true →
        ∀ v, eval S.toSemantics pexpr env = .value v → S.truth v ≠ some true)) := by
  refine ⟨forall_congr' fun part => forall_congr' fun env' => imp_congr_right fun _ =>
    rootOverApproximates_iff part env', fun hsafe => ?_⟩
  have hallows := eberEvaluate_allows hnull hsafe
  refine ⟨hallows, fun hrejecting v hv => ?_⟩
  rw [hv, allows_value] at hallows
  have htruth := hallows.truth
  unfold FNullRejecting at hrejecting
  split_ifs at hrejecting
  simp only [Bool.or_eq_true, beq_iff_eq] at hrejecting
  rcases hrejecting with (heber | heber) | heber <;> rw [heber] at htruth
  · rw [show S.truth v = none from htruth]
    simp
  · rw [show S.truth v = some false from htruth]
    simp
  · exact htruth

/-! ## An empty array -/

section Examples

/-- The operator 96 returns NULL on NULL input; there are no functions. -/
def equalityOnly : NullInput where
  FScalarOpReturnsNullOnNullInput mdid := mdid == 96
  IsStrict _ := false

/-- Lists of numbers, which are numbers, truth values and arrays; every operator is the equality. -/
def arrays : ScalarSemantics equalityOnly (List ℕ) Unit Unit where
  truth v := v.map (· == [1])
  ofTruth t := t.map fun b => if b then [1] else [0]
  truth_ofTruth t := by rcases t with _ | _ | _ <;> rfl
  ofTruth_unknown := rfl
  cmp _ v w := Option.map₂ (· == ·) v w
  cmp_null _ v w _ h := by
    rcases h with rfl | rfl
    · rfl
    · exact Option.map₂_none_right ..
  distinct _ v w := decide (v ≠ w)
  distinct_self _ v := by simp
  distinct_null _ v hv := ⟨decide_eq_true hv, decide_eq_true hv.symm⟩
  distinct_bool _ b := by cases b <;> rfl
  op _ _ := ⊥
  op_null _ _ _ _ := rfl
  func _ _ := .value ⊥
  func_null _ _ _ _ v hv := List.mem_singleton.1 hv
  cast _ v := v
  cast_null _ _ := rfl
  coerceToDomain _ v := .value v
  choose _ _ x _ := x
  elements v := v.map fun xs => xs.map fun x => some [x]
  elements_null := rfl
  withCase env _ := env
  withCase_row _ _ := rfl
  other _ _ _ := .failure

/-- No functions. -/
def noFunctions : FunctionProps (List ℕ) Unit where
  FVolatile _ := false
  FNoSQL _ := true
  DeriveHasNonScalarFunction _ := false

/-- `x = ANY ('{1}')`. -/
theorem fNullRejecting_sound_iff_any :
    ¬∃ v, eval arrays.toSemantics (.node (.other (.arrayCmp .any 96))
      [.node (.scalarIdent colX) [], .node (.other (.const (some [1]))) []]) ⟨fun _ => ⊥, ()⟩ =
        .value v ∧ arrays.truth v = some true := by
  rintro ⟨v, hv, htrue⟩
  refine ((fNullRejecting_sound_iff (S := arrays) noFunctions _ [colX]
    ⟨fun _ => ⊥, ()⟩ (fun _ _ => rfl)).2 fun part env' hpart => ?_).2 rfl v hv htrue
  cases hpart with
  | here =>
    rintro - - a ha
    cases ha
    exact fun hempty => List.cons_ne_nil _ _ (Option.some.inj hempty)
  | @child _ _ _ _ _ _ _ i get _ rest =>
    match i, get with
    | 0, rfl | 1, rfl =>
      cases rest with
      | here => trivial
      | child get => cases get

/-- `x = ALL ('{}')` is called null rejecting, and is TRUE if `x` is NULL. -/
theorem not_fNullRejecting_sound :
    let pexpr : Query (List ℕ) (ScalarOp (List ℕ) Unit) := .node (.other (.arrayCmp .all 96))
      [.node (.scalarIdent colX) [], .node (.other (.const (some []))) []]
    ¬(FNullRejecting equalityOnly noFunctions pexpr [colX] = true →
      ∀ env, NullOn [colX] env → ∀ v, eval arrays.toSemantics pexpr env = .value v →
        arrays.truth v ≠ some true) := by
  intro pexpr h
  exact h rfl ⟨fun _ => ⊥, ()⟩ (fun _ _ => rfl) (some [1]) rfl rfl

end Examples

end Query

end BossOptimizer

import BossOptimizer.Operators.CPredicateUtils

/-!
# Unnesting and de-duplication: `CExpressionUtils`

`PexprUnnest` pulls the children of an AND below an AND, or of an OR below an OR, up to the upper
one, and pushes a NOT one level down; `PexprDedupChildren` drops repeated children.
-/

namespace BossOptimizer

namespace Predicate

variable {Op : Type}

/-- `CExpressionUtils::PexprPushNotOneLevel` (CExpressionUtils.cpp:181). -/
def PexprPushNotOneLevel : Predicate Op → Predicate Op
  | .node (.boolOp .and) pdrgpexpr => .node (.boolOp .or) (pdrgpexpr.map PexprNegate)
  | .node (.boolOp .or) pdrgpexpr => .node (.boolOp .and) (pdrgpexpr.map PexprNegate)
  | .node .subqueryExists pdrgpexpr => .node .subqueryNotExists pdrgpexpr
  | .node .subqueryNotExists pdrgpexpr => .node .subqueryExists pdrgpexpr
  | pexpr => PexprNegate pexpr

/-- `UnnestChild` on two cascaded NOT, which cancel each other (CExpressionUtils.cpp:69). -/
def cancelNots (fHasNegatedChild : Bool) : Predicate Op → Predicate Op
  | .node (.boolOp .not) (.node (.boolOp .not) (pexprChild :: rest) :: rest') =>
    if fHasNegatedChild then pexprChild
    else .node (.boolOp .not) (.node (.boolOp .not) (pexprChild :: rest) :: rest')
  | pexpr => pexpr

section Depth

variable {pexpr : Predicate Op}

attribute [local simp] PexprPushNotOneLevel in
theorem depth_lt_of_mem (h : pexprChild ∈ pexpr.PdrgPexpr) : pexprChild.depth < pexpr.depth := by
  cases pexpr
  exact CExpression.depth_lt h

theorem depth_pexprNegate (pexpr : Predicate Op) : (PexprNegate pexpr).depth = pexpr.depth + 1 := by
  simp [PexprNegate, CExpression.depth]

theorem depth_pexprPushNotOneLevel_le (pexpr : Predicate Op) :
    (PexprPushNotOneLevel pexpr).depth ≤ pexpr.depth + 1 := by
  have hmap : ∀ (pop pop' : PredicateOp Op) (l : List (Predicate Op)),
      CExpression.depth (.node pop (l.map PexprNegate)) ≤ CExpression.depth (.node pop' l) + 1 :=
    fun pop pop' l => CExpression.depth_le_of_forall fun e he => by
      obtain ⟨e', he', rfl⟩ := List.mem_map.1 he
      exact ⟨e', he', (depth_pexprNegate e').le⟩
  have hsame : ∀ (pop pop' : PredicateOp Op) (l : List (Predicate Op)),
      CExpression.depth (.node pop l) ≤ CExpression.depth (.node pop' l) + 1 :=
    fun pop pop' l => CExpression.depth_le_of_forall fun e he => ⟨e, he, Nat.le_succ _⟩
  unfold PexprPushNotOneLevel
  split
  · exact hmap ..
  · exact hmap ..
  · exact hsame ..
  · exact hsame ..
  · exact (depth_pexprNegate _).le

theorem depth_cancelNots_le (fHasNegatedChild : Bool) (pexpr : Predicate Op) :
    (cancelNots fHasNegatedChild pexpr).depth ≤ pexpr.depth := by
  unfold cancelNots
  split
  · split
    · exact ((CExpression.depth_lt List.mem_cons_self).trans
        (CExpression.depth_lt List.mem_cons_self)).le
    · exact le_rfl
  · exact le_rfl

end Depth

mutual

/-- `CExpressionUtils::UnnestChild` (CExpressionUtils.cpp:45): what is appended for one child. -/
def UnnestChild (fAnd fOr fHasNegatedChild : Bool) (pexprChild : Predicate Op) :
    List (Predicate Op) :=
  if (fAnd && FAnd pexprChild) || (fOr && FOr pexprChild) then PdrgpexprUnnestChildren pexprChild
  else [PexprUnnest (cancelNots fHasNegatedChild pexprChild)]
termination_by 3 * pexprChild.depth + 1
decreasing_by
  · omega
  · have := depth_cancelNots_le fHasNegatedChild pexprChild
    omega

/-- `CExpressionUtils::PdrgpexprUnnestChildren` (CExpressionUtils.cpp:117). -/
def PdrgpexprUnnestChildren (pexpr : Predicate Op) : List (Predicate Op) :=
  pexpr.PdrgPexpr.attach.flatMap fun ⟨pexprChild, _⟩ =>
    UnnestChild (FAnd pexpr) (FOr pexpr) (FHasNegatedChild pexpr) pexprChild
termination_by 3 * pexpr.depth - 1
decreasing_by
  have := depth_lt_of_mem ‹_›
  omega

/-- `CExpressionUtils::PexprUnnest` (CExpressionUtils.cpp:147). -/
def PexprUnnest (pexpr : Predicate Op) : Predicate Op :=
  match pexpr with
  | .node (.boolOp .not) (pexprChild :: _rest) =>
    let pexprPushedNot := PexprPushNotOneLevel pexprChild
    .node pexprPushedNot.Pop (PdrgpexprUnnestChildren pexprPushedNot)
  | pexpr => .node pexpr.Pop (PdrgpexprUnnestChildren pexpr)
termination_by 3 * pexpr.depth
decreasing_by
  · have := depth_pexprPushNotOneLevel_le pexprChild
    have : pexprChild.depth < CExpression.depth (.node (.boolOp .not) (pexprChild :: _rest)) :=
      CExpression.depth_lt List.mem_cons_self
    omega
  · have := pexpr.depth_pos
    omega

end

theorem pdrgpexprUnnestChildren_eq (pexpr : Predicate Op) :
    PdrgpexprUnnestChildren pexpr = pexpr.PdrgPexpr.flatMap
      (UnnestChild (FAnd pexpr) (FOr pexpr) (FHasNegatedChild pexpr)) := by
  rw [PdrgpexprUnnestChildren]
  simp

/-- Below any other operator there is one result for each child. -/
theorem unnestChild_neither (fHasNegatedChild : Bool) (pexpr : Predicate Op) :
    UnnestChild false false fHasNegatedChild pexpr =
      [PexprUnnest (cancelNots fHasNegatedChild pexpr)] := by
  rw [UnnestChild]
  simp

/-! ## De-duplication -/

variable (ops : PredicateOperators Op)

/-- `CExpression::HashValue` (CExpression.cpp:1221). -/
def HashValue (pexpr : Predicate Op) : BitVec 32 :=
  pexpr.fold fun pop hashes => hashes.foldl CombineHashes (ops.HashValue pop)

/-- `CExpression::UlHashDedup` (CExpression.cpp:1241). -/
def UlHashDedup : Predicate Op → BitVec 32
  | .node pop pdrgpexpr =>
    pdrgpexpr.foldl (fun ulHash pexpr =>
      if pop.FInputOrderSensitive ops.toScalarOperators then
        CombineHashes ulHash (HashValue ops pexpr)
      else ulHash ^^^ HashValue ops pexpr) (ops.HashValue pop)

/-- `CUtils::Equals`. -/
abbrev Equals : Predicate Op → Predicate Op → Bool :=
  CExpression.Equals (PredicateOp.operators ops.toScalarOperators)

/-- `CHashSet::Contains` with the number of chains of the default constructor. -/
def Contains (phsexpr : List (Predicate Op)) (pexpr : Predicate Op) : Bool :=
  phsexpr.any fun value =>
    (UlHashDedup ops value).toNat % 127 == (UlHashDedup ops pexpr).toNat % 127 &&
      Equals ops value pexpr

/-- `CUtils::PdrgpexprDedup` (CUtils.cpp:1323). The set has the expressions of the result. -/
def PdrgpexprDedup (pdrgpexpr : List (Predicate Op)) : List (Predicate Op) :=
  pdrgpexpr.foldl (fun phsexpr pexpr =>
    if Contains ops phsexpr pexpr then phsexpr else phsexpr ++ [pexpr]) []

mutual

/-- `CExpressionUtils::PexprDedupChildren` (CExpressionUtils.cpp:249). -/
def PexprDedupChildren : Predicate Op → Predicate Op
  | .node pop pdrgpexpr =>
    let pdrgpexprChildren := dedupChildrenEach pdrgpexpr
    if FAnd (.node pop pdrgpexpr) || FOr (.node pop pdrgpexpr) then
      match PdrgpexprDedup ops pdrgpexprChildren with
      | [pexprChild] => pexprChild
      | pdrgpexprNewChildren => .node pop pdrgpexprNewChildren
    else .node pop pdrgpexprChildren

def dedupChildrenEach : List (Predicate Op) → List (Predicate Op)
  | [] => []
  | pexpr :: pdrgpexpr => PexprDedupChildren pexpr :: dedupChildrenEach pdrgpexpr

end

/-! ## Unnesting keeps values -/

section Unnest

variable {ops : ScalarOperators Op} {X Env : Type} (S : Semantics ops X Env)

attribute [local simp] PexprDedupChildren dedupChildrenEach in
theorem truth_pexprPushNotOneLevel (pexpr : Predicate Op) (env : Env) :
    truth S (PexprPushNotOneLevel pexpr) env = (truth S pexpr env).not := by
  have hnot : ∀ pdrgpexpr : List (Predicate Op),
      (pdrgpexpr.map PexprNegate).map (fun pexpr => truth S pexpr env) =
        (pdrgpexpr.map fun pexpr => truth S pexpr env).map Truth.not := fun pdrgpexpr => by
    simp [Function.comp_def]
  unfold PexprPushNotOneLevel
  split
  · rw [truth_boolOp, truth_boolOp, hnot]
    exact (Truth.not_joined true _).symm
  · rw [truth_boolOp, truth_boolOp, hnot]
    exact (Truth.not_joined false _).symm
  · simp [truth, Semantics.op, S.truth_ofTruth]
  · simp [truth, Semantics.op, S.truth_ofTruth]
  · exact truth_pexprNegate S _ env

theorem mdidType_pexprPushNotOneLevel (pexpr : Predicate Op) :
    CExpression.MdidType (PredicateOp.operators ops) (PexprPushNotOneLevel pexpr) = GPDB_BOOL := by
  unfold PexprPushNotOneLevel
  split <;> rfl

variable {pexpr : Predicate Op}

theorem wellTyped_pexprPushNotOneLevel (h : WellTyped ops pexpr)
    (hbool : CExpression.MdidType (PredicateOp.operators ops) pexpr = GPDB_BOOL) :
    WellTyped ops (PexprPushNotOneLevel pexpr) := by
  have hnegate : ∀ {pexpr : Predicate Op}, WellTyped ops pexpr →
      CExpression.MdidType (PredicateOp.operators ops) pexpr = GPDB_BOOL →
        WellTyped ops (PexprNegate pexpr) := fun h hbool =>
    .node _ _ (by simpa using h) fun _ _ => by simpa using hbool
  have hconn : ∀ {eboolop eboolop' : EBoolOperator} {l : List (Predicate Op)},
      WellTyped ops (.node (.boolOp eboolop) l) →
        WellTyped ops (.node (.boolOp eboolop') (l.map PexprNegate)) := by
    rintro eboolop eboolop' l ⟨_, _, each, bool⟩
    refine .node _ _ (fun e he => ?_) fun _ _ e he => ?_
    · obtain ⟨e', he', rfl⟩ := List.mem_map.1 he
      exact hnegate (each e' he') (bool _ rfl e' he')
    · obtain ⟨e', -, rfl⟩ := List.mem_map.1 he
      rfl
  unfold PexprPushNotOneLevel
  split
  · exact hconn h
  · exact hconn h
  · cases h with
    | node _ _ each bool => exact .node _ _ each fun _ h => by cases h
  · cases h with
    | node _ _ each bool => exact .node _ _ each fun _ h => by cases h
  · exact hnegate h hbool

theorem wellTyped_cancelNots (fHasNegatedChild : Bool)
    (h : WellTyped ops pexpr) : WellTyped ops (cancelNots fHasNegatedChild pexpr) := by
  unfold cancelNots
  split
  · split
    · cases h with
      | node _ _ each _ =>
        cases each _ List.mem_cons_self with
        | node _ _ each _ => exact each _ List.mem_cons_self
    · exact h
  · exact h

/-- Two cascaded NOT cancel each other on a truth value. -/
theorem eval_cancelNots (fHasNegatedChild : Bool)
    (h : WellTyped ops pexpr) : eval S (cancelNots fHasNegatedChild pexpr) = eval S pexpr := by
  unfold cancelNots
  split
  · split
    · cases h with
      | node _ _ each _ =>
        cases each _ List.mem_cons_self with
        | node _ _ _ bool =>
          refine eval_eq_of_truth S (bool .not rfl _ List.mem_cons_self) rfl fun env => ?_
          simp [EBoolOperator.eval]
    · rfl
  · rfl

/-- The value of an operator over its unnested children, when all smaller trees are unnested
    without a change. -/
theorem eval_unnestedChildren (h : WellTyped ops pexpr)
    (ih : ∀ e : Predicate Op, e.depth < pexpr.depth → WellTyped ops e →
      eval S (.node e.Pop (PdrgpexprUnnestChildren e)) = eval S e ∧
        eval S (PexprUnnest e) = eval S e) :
    eval S (.node pexpr.Pop (PdrgpexprUnnestChildren pexpr)) = eval S pexpr := by
  obtain ⟨pop, l⟩ := pexpr
  obtain ⟨_, _, each, bool⟩ := h
  have hone : ∀ fHas, ∀ e ∈ l, eval S (PexprUnnest (cancelNots fHas e)) = eval S e :=
    fun fHas e he => by
      have hlt : (cancelNots fHas e).depth < CExpression.depth (.node pop l) :=
        (depth_cancelNots_le fHas e).trans_lt (CExpression.depth_lt he)
      rw [(ih _ hlt (wellTyped_cancelNots fHas (each e he))).2,
        eval_cancelNots S fHas (each e he)]
  -- a connective, over the lists that its children are unnested to
  have hconn : ∀ fConjunction : Bool, pop = .boolOp (if fConjunction then .and else .or) →
      ∀ env, Truth.joined fConjunction
        ((PdrgpexprUnnestChildren (.node pop l)).map fun e => truth S e env) =
          Truth.joined fConjunction (l.map fun e => truth S e env) := by
    intro fConjunction hpop env
    rw [pdrgpexprUnnestChildren_eq, List.map_flatMap, Truth.joined_flatMap]
    refine congrArg (Truth.joined fConjunction) (List.map_congr_left fun e he => ?_)
    rw [UnnestChild]
    split
    · rename_i hsame
      have hroot : e.Pop = pop := by
        simp only [Bool.or_eq_true, Bool.and_eq_true, fAnd_iff, fOr_iff] at hsame
        rcases hsame with h | h
        · exact h.2.trans h.1.symm
        · exact h.2.trans h.1.symm
      have heval := congrFun (ih e (CExpression.depth_lt he) (each e he)).1 env
      rw [← truth_connective S fConjunction, ← hpop, ← hroot, truth, heval, truth]
    · rw [List.map_singleton, Truth.joined_singleton, truth, hone _ e he, truth]
  -- any other operator, over children of the same values
  have hother : FAnd (.node pop l) = false → FOr (.node pop l) = false →
      (PdrgpexprUnnestChildren (.node pop l)).map (eval S) = l.map (eval S) := by
    intro hand hor
    rw [pdrgpexprUnnestChildren_eq, hand, hor, List.flatMap_congr fun e _ => unnestChild_neither _ e,
      ← List.map_eq_flatMap, List.map_map]
    exact List.map_congr_left fun e he => hone _ e he
  by_cases hand : FAnd (.node pop l) = true
  · obtain rfl : pop = .boolOp .and := fAnd_iff.1 hand
    exact eval_eq_of_truth S rfl rfl fun env =>
      (truth_connective S true _ env).trans
        ((hconn true rfl env).trans (truth_connective S true l env).symm)
  · by_cases hor : FOr (.node pop l) = true
    · obtain rfl : pop = .boolOp .or := fOr_iff.1 hor
      exact eval_eq_of_truth S rfl rfl fun env =>
        (truth_connective S false _ env).trans
          ((hconn false rfl env).trans (truth_connective S false l env).symm)
    · rw [eval_node, eval_node]
      exact congrArg _ (hother (by simpa using hand) (by simpa using hor))

/-- **Unnesting keeps the value**, by induction on the height of the tree: first over the children,
then below a NOT that has been pushed down, which does not make the tree higher. -/
theorem eval_pexprUnnest_both (n : ℕ) : ∀ e : Predicate Op, e.depth < n → WellTyped ops e →
    eval S (.node e.Pop (PdrgpexprUnnestChildren e)) = eval S e ∧
      eval S (PexprUnnest e) = eval S e := by
  induction n with
  | zero => exact fun e h => absurd h (Nat.not_lt_zero _)
  | succ n ih =>
    have hchildren : ∀ e : Predicate Op, e.depth < n + 1 → WellTyped ops e →
        eval S (.node e.Pop (PdrgpexprUnnestChildren e)) = eval S e := fun e hd h =>
      eval_unnestedChildren S h fun e' hlt => ih e' (by omega)
    refine fun e hd h => ⟨hchildren e hd h, ?_⟩
    unfold PexprUnnest
    split
    · rename_i pexprChild rest
      obtain ⟨_, _, each, bool⟩ := h
      have hc := each pexprChild List.mem_cons_self
      have hbool := bool .not rfl pexprChild List.mem_cons_self
      have hlt : pexprChild.depth < CExpression.depth (.node (.boolOp .not) (pexprChild :: rest)) :=
        CExpression.depth_lt List.mem_cons_self
      have hpushed := depth_pexprPushNotOneLevel_le pexprChild
      dsimp only
      rw [hchildren _ (by omega) (wellTyped_pexprPushNotOneLevel hc hbool)]
      exact eval_eq_of_truth S (mdidType_pexprPushNotOneLevel pexprChild) rfl fun env => by
        rw [truth_pexprPushNotOneLevel, truth_boolOp]
        rfl
    · exact hchildren _ hd h

theorem eval_pexprUnnest {e : Predicate Op} (h : WellTyped ops e) :
    eval S (PexprUnnest e) = eval S e :=
  (eval_pexprUnnest_both S _ e (Nat.lt_succ_self _) h).2

/-! The result is well typed, and of the same type. -/

theorem mdidType_cancelNots (fHasNegatedChild : Bool) (h : WellTyped ops pexpr) :
    CExpression.MdidType (PredicateOp.operators ops) (cancelNots fHasNegatedChild pexpr) =
      CExpression.MdidType (PredicateOp.operators ops) pexpr := by
  unfold cancelNots
  split
  · split
    · cases h with
      | node _ _ each _ =>
        cases each _ List.mem_cons_self with
        | node _ _ _ bool => exact bool .not rfl _ List.mem_cons_self
    · rfl
  · rfl

theorem wellTyped_unnestedChildren (h : WellTyped ops pexpr)
    (ih : ∀ e : Predicate Op, e.depth < pexpr.depth → WellTyped ops e →
      WellTyped ops (.node e.Pop (PdrgpexprUnnestChildren e)) ∧ WellTyped ops (PexprUnnest e) ∧
        CExpression.MdidType (PredicateOp.operators ops) (PexprUnnest e) =
          CExpression.MdidType (PredicateOp.operators ops) e) :
    WellTyped ops (.node pexpr.Pop (PdrgpexprUnnestChildren pexpr)) := by
  obtain ⟨pop, l⟩ := pexpr
  obtain ⟨_, _, each, bool⟩ := h
  have hchild : ∀ x ∈ PdrgpexprUnnestChildren (.node pop l), WellTyped ops x ∧
      ∀ eboolop, pop = .boolOp eboolop →
        CExpression.MdidType (PredicateOp.operators ops) x = GPDB_BOOL := by
    intro x hx
    rw [pdrgpexprUnnestChildren_eq] at hx
    obtain ⟨c, hc, hx⟩ := List.mem_flatMap.1 hx
    rw [UnnestChild] at hx
    split at hx
    · rename_i hsame
      have hroot : ∃ eboolop, c.Pop = .boolOp eboolop := by
        simp only [Bool.or_eq_true, Bool.and_eq_true, fAnd_iff, fOr_iff] at hsame
        rcases hsame with h | h
        · exact ⟨_, h.2⟩
        · exact ⟨_, h.2⟩
      obtain ⟨heach, hbool⟩ := wellTyped_node_iff.1
        (ih c (CExpression.depth_lt hc) (each c hc)).1
      obtain ⟨eboolop, hpop⟩ := hroot
      exact ⟨heach x hx, fun _ _ => hbool eboolop hpop x hx⟩
    · obtain rfl := List.mem_singleton.1 hx
      have hlt : (cancelNots (FHasNegatedChild (.node pop l)) c).depth <
          CExpression.depth (.node pop l) :=
        (depth_cancelNots_le _ c).trans_lt (CExpression.depth_lt hc)
      obtain ⟨-, htyped, htype⟩ := ih _ hlt (wellTyped_cancelNots _ (each c hc))
      refine ⟨htyped, fun eboolop hpop => ?_⟩
      rw [htype, mdidType_cancelNots _ (each c hc)]
      exact bool eboolop hpop c hc
  exact .node _ _ (fun x hx => (hchild x hx).1) fun eboolop hpop x hx => (hchild x hx).2 eboolop hpop

theorem wellTyped_pexprUnnest_all (n : ℕ) : ∀ e : Predicate Op, e.depth < n → WellTyped ops e →
    WellTyped ops (.node e.Pop (PdrgpexprUnnestChildren e)) ∧ WellTyped ops (PexprUnnest e) ∧
      CExpression.MdidType (PredicateOp.operators ops) (PexprUnnest e) =
        CExpression.MdidType (PredicateOp.operators ops) e := by
  induction n with
  | zero => exact fun e h => absurd h (Nat.not_lt_zero _)
  | succ n ih =>
    have hchildren : ∀ e : Predicate Op, e.depth < n + 1 → WellTyped ops e →
        WellTyped ops (.node e.Pop (PdrgpexprUnnestChildren e)) := fun e hd h =>
      wellTyped_unnestedChildren h fun e' hlt => ih e' (by omega)
    refine fun e hd h => ⟨hchildren e hd h, ?_⟩
    unfold PexprUnnest
    split
    · rename_i pexprChild rest
      obtain ⟨_, _, each, bool⟩ := h
      have hlt : pexprChild.depth < CExpression.depth (.node (.boolOp .not) (pexprChild :: rest)) :=
        CExpression.depth_lt List.mem_cons_self
      have hpushed := depth_pexprPushNotOneLevel_le pexprChild
      refine ⟨hchildren _ (by omega) (wellTyped_pexprPushNotOneLevel
        (each pexprChild List.mem_cons_self) (bool .not rfl pexprChild List.mem_cons_self)), ?_⟩
      have htype : CExpression.MdidType (PredicateOp.operators ops)
          (PexprPushNotOneLevel pexprChild) = GPDB_BOOL := mdidType_pexprPushNotOneLevel pexprChild
      revert htype
      cases PexprPushNotOneLevel pexprChild
      exact id
    · refine ⟨hchildren _ hd h, ?_⟩
      cases e
      rfl

theorem wellTyped_pexprUnnest {e : Predicate Op} (h : WellTyped ops e) :
    WellTyped ops (PexprUnnest e) :=
  (wellTyped_pexprUnnest_all _ e (Nat.lt_succ_self _) h).2.1

end Unnest

/-! ## De-duplication keeps values -/

section Dedup

variable {ops}

theorem dedupChildrenEach_eq_map (l : List (Predicate Op)) :
    dedupChildrenEach ops l = l.map (PexprDedupChildren ops) := by
  induction l with
  | nil => rfl
  | cons e l ih => rw [dedupChildrenEach, ih, List.map_cons]

variable {e : Predicate Op}

theorem exists_equals_of_contains {phsexpr : List (Predicate Op)}
    (h : Contains ops phsexpr e = true) : ∃ x ∈ phsexpr, Equals ops x e = true := by
  obtain ⟨x, hx, heq⟩ := List.any_eq_true.1 h
  exact ⟨x, hx, (Bool.and_eq_true _ _ ▸ heq).2⟩

/-- The loop over an array, from a set on. -/
theorem foldl_dedup_spec (l phsexpr : List (Predicate Op)) :
    let result := l.foldl (fun phsexpr pexpr =>
      if Contains ops phsexpr pexpr then phsexpr else phsexpr ++ [pexpr]) phsexpr
    (∀ e ∈ result, e ∈ phsexpr ∨ e ∈ l) ∧
      (∀ e ∈ phsexpr, e ∈ result) ∧ ∀ e ∈ l, ∃ x ∈ result, Equals ops x e = true := by
  induction l generalizing phsexpr with
  | nil => exact ⟨fun e he => .inl he, fun e he => he, by simp⟩
  | cons a l ih =>
    obtain ⟨hsub, hkeep, hall⟩ := ih (if Contains ops phsexpr a then phsexpr else phsexpr ++ [a])
    refine ⟨fun e he => ?_, fun e he => hkeep e ?_, fun e he => ?_⟩
    · rcases hsub e he with h | h
      · split at h
        · exact .inl h
        · rcases List.mem_append.1 h with h | h
          · exact .inl h
          · exact .inr (List.mem_singleton.1 h ▸ List.mem_cons_self)
      · exact .inr (List.mem_cons_of_mem a h)
    · split
      · exact he
      · exact List.mem_append_left _ he
    · rcases List.mem_cons.1 he with rfl | he
      · by_cases hc : Contains ops phsexpr e = true
        · obtain ⟨x, hx, heq⟩ := exists_equals_of_contains hc
          exact ⟨x, hkeep x (by rwa [if_pos hc]), heq⟩
        · exact ⟨e, hkeep e (by simp [hc]), CExpression.equals_self e⟩
      · exact hall e he

theorem mem_of_mem_pdrgpexprDedup {l : List (Predicate Op)}
    (h : e ∈ PdrgpexprDedup ops l) : e ∈ l :=
  ((foldl_dedup_spec l []).1 e h).resolve_left (by simp)

theorem exists_mem_pdrgpexprDedup {l : List (Predicate Op)} (h : e ∈ l) :
    ∃ x ∈ PdrgpexprDedup ops l, Equals ops x e = true :=
  (foldl_dedup_spec l []).2.2 e h

variable {X Env : Type} (S : Semantics ops.toScalarOperators X Env)

/-- The truth values of an array are those of the array without repetitions. -/
theorem joined_pdrgpexprDedup (lawful : ops.toScalarOperators.Lawful) (fConjunction : Bool)
    (l : List (Predicate Op)) (env : Env) :
    Truth.joined fConjunction ((PdrgpexprDedup ops l).map fun e => truth S e env) =
      Truth.joined fConjunction (l.map fun e => truth S e env) := by
  refine Truth.joined_congr fConjunction fun t => ?_
  simp only [List.mem_map]
  constructor
  · rintro ⟨e, he, rfl⟩
    exact ⟨e, mem_of_mem_pdrgpexprDedup he, rfl⟩
  · rintro ⟨e, he, rfl⟩
    obtain ⟨x, hx, heq⟩ := exists_mem_pdrgpexprDedup he
    exact ⟨x, hx, by rw [truth, truth, eval_eq_of_equals S lawful heq]⟩

/-- **De-duplication keeps the value and the type**, by induction on the tree. -/
theorem pexprDedupChildren_spec (lawful : ops.toScalarOperators.Lawful) :
    ∀ {e : Predicate Op}, WellTyped ops.toScalarOperators e →
      CExpression.MdidType (PredicateOp.operators ops.toScalarOperators)
          (PexprDedupChildren ops e) =
        CExpression.MdidType (PredicateOp.operators ops.toScalarOperators) e ∧
      eval S (PexprDedupChildren ops e) = eval S e := by
  intro e h
  induction h with
  | node pop l _ bool ih =>
    have hevals : (l.map (PexprDedupChildren ops)).map (eval S) = l.map (eval S) := by
      rw [List.map_map]
      exact List.map_congr_left fun e he => (ih e he).2
    rw [PexprDedupChildren, dedupChildrenEach_eq_map]
    split
    · rename_i hconn
      obtain ⟨fConjunction, rfl⟩ : ∃ fConjunction : Bool,
          pop = .boolOp (if fConjunction then .and else .or) := by
        rcases Bool.or_eq_true _ _ ▸ hconn with h | h
        · exact ⟨true, fAnd_iff.1 h⟩
        · exact ⟨false, fOr_iff.1 h⟩
      have htruth : ∀ env, Truth.joined fConjunction
          ((PdrgpexprDedup ops (l.map (PexprDedupChildren ops))).map fun e => truth S e env) =
            truth S (.node (.boolOp (if fConjunction then .and else .or)) l) env := fun env => by
        rw [joined_pdrgpexprDedup S lawful, truth_connective, List.map_map]
        refine congrArg (Truth.joined fConjunction) (List.map_congr_left fun e he => ?_)
        rw [Function.comp_apply, truth, truth, (ih e he).2]
      split
      · rename_i x hone
        have hx : x ∈ PdrgpexprDedup ops (l.map (PexprDedupChildren ops)) := by
          rw [hone]
          exact List.mem_singleton_self x
        obtain ⟨e, he, rfl⟩ := List.mem_map.1 (mem_of_mem_pdrgpexprDedup hx)
        have hbool := (ih e he).1.trans (bool _ rfl e he)
        refine ⟨hbool, eval_eq_of_truth S hbool rfl fun env => ?_⟩
        rw [← htruth, hone, List.map_singleton, Truth.joined_singleton]
      · refine ⟨rfl, eval_eq_of_truth S rfl rfl fun env => ?_⟩
        rw [truth_connective, htruth]
    · exact ⟨rfl, by rw [eval_node, eval_node, hevals]⟩

include S in
theorem wellTyped_pexprDedupChildren (lawful : ops.toScalarOperators.Lawful)
    (h : WellTyped ops.toScalarOperators e) :
    WellTyped ops.toScalarOperators (PexprDedupChildren ops e) := by
  induction h with
  | node pop l each bool ih =>
    have hmem : ∀ x ∈ l.map (PexprDedupChildren ops), WellTyped ops.toScalarOperators x ∧
        ∀ eboolop, pop = .boolOp eboolop → CExpression.MdidType
          (PredicateOp.operators ops.toScalarOperators) x = GPDB_BOOL := fun x hx => by
      obtain ⟨e, he, rfl⟩ := List.mem_map.1 hx
      exact ⟨ih e he, fun eboolop hpop =>
        (pexprDedupChildren_spec S lawful (each e he)).1.trans (bool eboolop hpop e he)⟩
    have hnode : ∀ l', (∀ x ∈ l', x ∈ l.map (PexprDedupChildren ops)) →
        WellTyped ops.toScalarOperators (.node pop l') := fun l' hl' =>
      .node pop l' (fun x hx => (hmem x (hl' x hx)).1)
        fun eboolop hpop x hx => (hmem x (hl' x hx)).2 eboolop hpop
    rw [PexprDedupChildren, dedupChildrenEach_eq_map]
    split
    · have hsub : ∀ x ∈ PdrgpexprDedup ops (l.map (PexprDedupChildren ops)),
          x ∈ l.map (PexprDedupChildren ops) := fun x hx => mem_of_mem_pdrgpexprDedup hx
      split
      · rename_i x hone
        exact (hmem x (hsub x (hone ▸ List.mem_singleton_self x))).1
      · exact hnode _ hsub
    · exact hnode _ fun _ hx => hx

/-- **Unnesting and de-duplication keep the truth value of a predicate, and pushing a NOT down
negates it.** -/
theorem expressionUtils_truth (lawful : ops.toScalarOperators.Lawful) {e : Predicate Op}
    (h : WellTyped ops.toScalarOperators e) (env : Env) :
    truth S (PexprUnnest e) env = truth S e env ∧
      truth S (PexprPushNotOneLevel e) env = (truth S e env).not ∧
      truth S (PexprDedupChildren ops e) env = truth S e env :=
  ⟨by rw [truth, truth, eval_pexprUnnest S h], truth_pexprPushNotOneLevel S e env,
    by rw [truth, truth, (pexprDedupChildren_spec S lawful h).2]⟩

/-- `NOT (p AND NOT q AND (p AND r))`, where `p` is unknown, `q` false and `r` true. -/
theorem expressionUtils_truth_negated :
    let e : Predicate ℕ := PexprNegate (.node (.boolOp .and)
      [leaf 0, PexprNegate (leaf 1), .node (.boolOp .and) [leaf 0, leaf 2]])
    let env : ℕ → Truth := fun n => if n = 0 then none else some (n = 2)
    truth assigned (PexprUnnest e) env = truth assigned e env ∧
      truth assigned (PexprPushNotOneLevel e) env = (truth assigned e env).not ∧
      truth assigned (PexprDedupChildren leaves e) env = truth assigned e env :=
  expressionUtils_truth assigned lawful_leaves
    (by simp [PexprNegate, wellTyped_node_iff, CExpression.MdidType]; decide) _

/-- Of a leaf, pushing a NOT down makes a NOT. -/
theorem not_truth_pexprPushNotOneLevel :
    ¬∀ (e : Predicate ℕ) (env : ℕ → Truth),
      truth assigned (PexprPushNotOneLevel e) env = truth assigned e env := by
  intro hall
  have h := hall (leaf 0) fun _ => some true
  rw [truth_pexprPushNotOneLevel, truth_leaf] at h
  exact absurd h (by decide)

end Dedup

end Predicate

end BossOptimizer

import BossOptimizer.Operators.CExpressionUtils

/-!
# Factors of disjunctions and filters inferred from them: `CExpressionFactorizer`

Both rewrites visit the topmost disjunctions of an expression. `PexprFactorize` takes the
conjuncts that are counted as often as there are disjuncts out of the disjuncts;
`PexprExtractInferredFilters` collects, for each source of columns, what the disjuncts say about
that source.
-/

namespace BossOptimizer

namespace Predicate

variable {Op : Type}

/-! ## The visitor -/

mutual

/-- `PexprProcessDisjDescendents` (CExpressionFactorizer.cpp:45). The visiting function gets the
    lowest logical ancestor, `none` for NULL; its result is `none` where it would follow NULL. -/
def PexprProcessDisjDescendents (FLogical : PredicateOp Op → Bool)
    (pfnpepdFunction : Predicate Op → Option (Predicate Op) → Option (Predicate Op)) :
    Predicate Op → Option (Predicate Op) → Option (Predicate Op)
  | .node pop pdrgpexpr, pexprLowestLogicalAncestor =>
    let pexprLogicalAncestor :=
      if FLogical pop then some (.node pop pdrgpexpr) else pexprLowestLogicalAncestor
    if FOr (.node pop pdrgpexpr) then pfnpepdFunction (.node pop pdrgpexpr) pexprLogicalAncestor
    else
      (processEach FLogical pfnpepdFunction pdrgpexpr pexprLogicalAncestor).map (.node pop ·)

def processEach (FLogical : PredicateOp Op → Bool)
    (pfnpepdFunction : Predicate Op → Option (Predicate Op) → Option (Predicate Op)) :
    List (Predicate Op) → Option (Predicate Op) → Option (List (Predicate Op))
  | [], _ => some []
  | pexpr :: pdrgpexpr, pexprLogicalAncestor =>
    (PexprProcessDisjDescendents FLogical pfnpepdFunction pexpr pexprLogicalAncestor).bind
      fun pexprChild => (processEach FLogical pfnpepdFunction pdrgpexpr pexprLogicalAncestor).map
        (pexprChild :: ·)

end

mutual

/-- The disjunctions that are visited, with their ancestors. -/
def disjunctions (FLogical : PredicateOp Op → Bool) :
    Predicate Op → Option (Predicate Op) → List (Predicate Op × Option (Predicate Op))
  | .node pop pdrgpexpr, pexprLowestLogicalAncestor =>
    let pexprLogicalAncestor :=
      if FLogical pop then some (.node pop pdrgpexpr) else pexprLowestLogicalAncestor
    if FOr (.node pop pdrgpexpr) then [(.node pop pdrgpexpr, pexprLogicalAncestor)]
    else disjunctionsEach FLogical pdrgpexpr pexprLogicalAncestor

def disjunctionsEach (FLogical : PredicateOp Op → Bool) :
    List (Predicate Op) → Option (Predicate Op) → List (Predicate Op × Option (Predicate Op))
  | [], _ => []
  | pexpr :: pdrgpexpr, pexprLogicalAncestor =>
    disjunctions FLogical pexpr pexprLogicalAncestor ++
      disjunctionsEach FLogical pdrgpexpr pexprLogicalAncestor

end

/-- The conjuncts of a disjunct. -/
def conjuncts (pexprDisj : Predicate Op) : List (Predicate Op) :=
  if FAnd pexprDisj then pexprDisj.PdrgPexpr else [pexprDisj]

/-! ## Factorization -/

/-- `ExprMap`, as the list of its entries. -/
abbrev ExprMap (Op : Type) : Type := List (Predicate Op × ℕ)

section Factors

variable (ops : PredicateOperators Op)

/-- The entry of `key` is found for `pexpr`: it is in the same one of the 127 chains, and equal. -/
def FMatchesKey (key pexpr : Predicate Op) : Bool :=
  (HashValue ops key).toNat % 127 == (HashValue ops pexpr).toNat % 127 && Equals ops key pexpr

/-- `ExprMap::Find`. -/
def FindCount (exprmap : ExprMap Op) (pexpr : Predicate Op) : Option ℕ :=
  (exprmap.find? fun entry => FMatchesKey ops entry.1 pexpr).map Prod.snd

/-- `ExprMap::Insert`. -/
def InsertCount (exprmap : ExprMap Op) (pexpr : Predicate Op) (count : ℕ) : ExprMap Op :=
  if (FindCount ops exprmap pexpr).isSome then exprmap else exprmap ++ [(pexpr, count)]

/-- `(*pul)++` on the count that is found. -/
def incrementCount (pexpr : Predicate Op) : ExprMap Op → ExprMap Op
  | [] => []
  | (key, count) :: exprmap =>
    if FMatchesKey ops key pexpr then (key, count + 1) :: exprmap
    else (key, count) :: incrementCount pexpr exprmap

/-- `PexprmapFactors` on one conjunct: the counts and the factors. -/
def countConjunct (ulDisjuncts : ℕ) (maps : ExprMap Op × ExprMap Op) (pexprConj : Predicate Op) :
    ExprMap Op × ExprMap Op :=
  let pexprmapGlobal :=
    if (FindCount ops maps.1 pexprConj).isSome then incrementCount ops pexprConj maps.1
    else InsertCount ops maps.1 pexprConj 1
  if FindCount ops pexprmapGlobal pexprConj = some ulDisjuncts then
    (pexprmapGlobal, InsertCount ops maps.2 pexprConj ulDisjuncts)
  else (pexprmapGlobal, maps.2)

/-- `PexprmapFactors` (CExpressionFactorizer.cpp:145). -/
def PexprmapFactors (pexpr : Predicate Op) : ExprMap Op :=
  ((pexpr.PdrgPexpr.flatMap conjuncts).foldl
    (countConjunct ops pexpr.PdrgPexpr.length) ([], [])).2

/-- `AddFactor` (CExpressionFactorizer.cpp:92), on the factors and the residuals. -/
def AddFactor (pexprmapFactors : ExprMap Op) (arrays : List (Predicate Op) × List (Predicate Op))
    (pexpr : Predicate Op) : List (Predicate Op) × List (Predicate Op) :=
  if (FindCount ops pexprmapFactors pexpr).isSome then
    (if arrays.1.any (Equals ops pexpr) then arrays.1 else arrays.1 ++ [pexpr],
      arrays.2 ++ [PexprConjDisj true []])
  else (arrays.1, arrays.2 ++ [pexpr])

/-- `PexprFactorizeDisj` on one disjunct. -/
def factorizeDisjunct (pexprmapFactors : ExprMap Op)
    (arrays : List (Predicate Op) × List (Predicate Op)) (pexprDisj : Predicate Op) :
    List (Predicate Op) × List (Predicate Op) :=
  if FAnd pexprDisj then
    let (pdrgpexprFactors, pdrgpexprConjuncts) :=
      pexprDisj.PdrgPexpr.foldl (AddFactor ops pexprmapFactors) (arrays.1, [])
    (pdrgpexprFactors,
      if pdrgpexprConjuncts.isEmpty then arrays.2
      else arrays.2 ++ [PexprConjDisj true pdrgpexprConjuncts])
  else AddFactor ops pexprmapFactors arrays pexprDisj

/-- `PexprFactorizeDisj` (CExpressionFactorizer.cpp:220). -/
def PexprFactorizeDisj (pexpr : Predicate Op) : Predicate Op :=
  let (pdrgpexprFactors, pdrgpexprResidual) :=
    pexpr.PdrgPexpr.foldl (factorizeDisjunct ops (PexprmapFactors ops pexpr)) ([], [])
  PexprConjDisj true
    (if pdrgpexprResidual.isEmpty then pdrgpexprFactors
    else pdrgpexprFactors ++ [PexprConjDisj false pdrgpexprResidual])

/-- `PexprDiscoverFactors` (CExpressionFactorizer.cpp:296). -/
def PexprDiscoverFactors (FLogical : PredicateOp Op → Bool) (pexpr : Predicate Op) :
    Option (Predicate Op) :=
  PexprProcessDisjDescendents FLogical (fun pexpr _ => some (PexprFactorizeDisj ops pexpr)) pexpr
    none

/-- `PexprFactorize` (CExpressionFactorizer.cpp:312). -/
def PexprFactorize (FLogical : PredicateOp Op → Bool) (pexpr : Predicate Op) :
    Option (Predicate Op) :=
  (PexprDiscoverFactors ops FLogical pexpr).map fun pexprFactorized =>
    PexprDedupChildren ops (PexprUnnest pexprFactorized)

end Factors

/-! ## The visitor keeps values -/

section Visitor

variable {ops : ScalarOperators Op} {X Env : Type} (S : Semantics ops X Env)
  {FLogical : PredicateOp Op → Bool}
  {pfn : Predicate Op → Option (Predicate Op) → Option (Predicate Op)}

/-- An expression in place of another one: well typed, of the same type and the same value. -/
structure Replaces (pexpr pexpr' : Predicate Op) : Prop where
  typed : WellTyped ops pexpr'
  type : CExpression.MdidType (PredicateOp.operators ops) pexpr' =
    CExpression.MdidType (PredicateOp.operators ops) pexpr
  value : eval S pexpr' = eval S pexpr

theorem mem_disjunctionsEach {d : Predicate Op × Option (Predicate Op)} {l : List (Predicate Op)}
    {anc : Option (Predicate Op)} :
    d ∈ disjunctionsEach FLogical l anc ↔ ∃ e ∈ l, d ∈ disjunctions FLogical e anc := by
  induction l with
  | nil => simp [disjunctionsEach]
  | cons e l ih => simp [disjunctionsEach, ih]

/-- Each of the children is replaced. -/
theorem processEach_replaces {l : List (Predicate Op)} {anc : Option (Predicate Op)}
    (h : ∀ e ∈ l, ∃ e', PexprProcessDisjDescendents FLogical pfn e anc = some e' ∧
      Replaces S e e') :
    ∃ l', processEach FLogical pfn l anc = some l' ∧ List.Forall₂ (Replaces S) l l' := by
  induction l with
  | nil => exact ⟨[], rfl, .nil⟩
  | cons e l ih =>
    obtain ⟨e', he', hrep⟩ := h e List.mem_cons_self
    obtain ⟨l', hl', hall⟩ := ih fun e he => h e (List.mem_cons_of_mem _ he)
    exact ⟨e' :: l', by rw [processEach, he', Option.bind_some, hl', Option.map_some],
      .cons hrep hall⟩

/-- An operator above children that are replaced. -/
theorem Replaces.node {pop : PredicateOp Op} {l l' : List (Predicate Op)}
    (h : WellTyped ops (.node pop l)) (hall : List.Forall₂ (Replaces S) l l') :
    Replaces S (.node pop l) (.node pop l') := by
  obtain ⟨_, _, each, bool⟩ := h
  have hmem : ∀ e' ∈ l', ∃ e ∈ l, Replaces S e e' := fun e' he' => by
    clear each bool
    induction hall with
    | nil => simp at he'
    | cons hrep _ ih =>
      rcases List.mem_cons.1 he' with rfl | he'
      · exact ⟨_, List.mem_cons_self, hrep⟩
      · obtain ⟨e, he, hrep⟩ := ih he'
        exact ⟨e, List.mem_cons_of_mem _ he, hrep⟩
  refine ⟨.node _ _ (fun e' he' => ?_) fun eboolop hpop e' he' => ?_, by cases pop <;> rfl, ?_⟩
  · obtain ⟨e, -, hrep⟩ := hmem e' he'
    exact hrep.typed
  · obtain ⟨e, he, hrep⟩ := hmem e' he'
    exact hrep.type.trans (bool eboolop hpop e he)
  · have hvalues : l'.map (eval S) = l.map (eval S) := by
      clear each bool hmem
      induction hall with
      | nil => rfl
      | cons hrep _ ih => rw [List.map_cons, List.map_cons, hrep.value, ih]
    rw [eval_node, eval_node, hvalues]

/-- **Where each disjunction that is visited is replaced, so is the expression**, by induction on
the tree. -/
theorem process_replaces {e : Predicate Op} (h : WellTyped ops e) :
    ∀ anc : Option (Predicate Op), (∀ d ∈ disjunctions FLogical e anc, WellTyped ops d.1 →
      ∃ e', pfn d.1 d.2 = some e' ∧ Replaces S d.1 e') →
        ∃ e', PexprProcessDisjDescendents FLogical pfn e anc = some e' ∧ Replaces S e e' := by
  induction h with
  | node pop l each bool ih =>
    intro anc hvisit
    rw [PexprProcessDisjDescendents]
    rw [disjunctions] at hvisit
    split
    · rename_i hor
      rw [if_pos hor] at hvisit
      exact hvisit _ (List.mem_singleton_self _) (.node pop l each bool)
    · rename_i hor
      rw [if_neg hor] at hvisit
      obtain ⟨l', hl', hall⟩ := processEach_replaces S fun e he => ih e he _ fun d hd =>
        hvisit d (mem_disjunctionsEach.2 ⟨e, he, hd⟩)
      exact ⟨.node pop l', by rw [hl', Option.map_some], .node S (.node pop l each bool) hall⟩

theorem fOr_of_mem_disjunctions {FLogical : PredicateOp Op → Bool} {e : Predicate Op} :
    ∀ {anc : Option (Predicate Op)} {d : Predicate Op × Option (Predicate Op)},
      d ∈ disjunctions FLogical e anc → FOr d.1 = true := by
  induction e using CExpression.induction with
  | node pop l ih =>
    intro anc d hd
    rw [disjunctions] at hd
    split at hd
    · rename_i hor
      exact List.mem_singleton.1 hd ▸ hor
    · obtain ⟨e, he, hd⟩ := mem_disjunctionsEach.1 hd
      exact ih e he hd

end Visitor

/-! ## Disjunctions, disjuncts and conjuncts -/

section Disjuncts

variable {ops : ScalarOperators Op} {X Env : Type} (S : Semantics ops X Env)

theorem mdidType_of_fOr {pexpr : Predicate Op} (hor : FOr pexpr = true) :
    CExpression.MdidType (PredicateOp.operators ops) pexpr = GPDB_BOOL := by
  obtain ⟨pop, l⟩ := pexpr
  obtain rfl : pop = .boolOp .or := fOr_iff.1 hor
  rfl

theorem truth_eq_conjuncts (pexprDisj : Predicate Op) (env : Env) :
    truth S pexprDisj env = Truth.all ((conjuncts pexprDisj).map fun c => truth S c env) := by
  unfold conjuncts
  split
  · rename_i hand
    obtain ⟨pop, l⟩ := pexprDisj
    obtain rfl : pop = .boolOp .and := fAnd_iff.1 hand
    exact truth_boolOp S .and l env
  · rw [List.map_singleton, Truth.all_singleton]

theorem holds_or_iff {pexpr : Predicate Op} (h : FOr pexpr = true) {env : Env} {m : Bool} :
    Truth.holds m (truth S pexpr env) ↔
      ∃ d ∈ pexpr.PdrgPexpr, Truth.holds m (truth S d env) := by
  obtain ⟨pop, l⟩ := pexpr
  obtain rfl : pop = .boolOp .or := fOr_iff.1 h
  rw [truth_boolOp]
  simp [EBoolOperator.eval, CExpression.PdrgPexpr]

/-- The disjuncts of a disjunction and their conjuncts are truth values. -/
theorem wellTyped_conjuncts {pexpr : Predicate Op} (hor : FOr pexpr = true)
    (h : WellTyped ops pexpr) :
    ∀ c ∈ pexpr.PdrgPexpr.flatMap conjuncts, WellTyped ops c ∧
      CExpression.MdidType (PredicateOp.operators ops) c = GPDB_BOOL := by
  obtain ⟨pop, l⟩ := pexpr
  obtain rfl : pop = .boolOp .or := fOr_iff.1 hor
  obtain ⟨each, bool⟩ := wellTyped_node_iff.1 h
  intro c hc
  obtain ⟨d, hd, hc⟩ := List.mem_flatMap.1 hc
  unfold conjuncts at hc
  split at hc
  · rename_i hand
    obtain ⟨pop, l'⟩ := d
    obtain rfl : pop = .boolOp .and := fAnd_iff.1 hand
    obtain ⟨each, bool⟩ := wellTyped_node_iff.1 (each _ hd)
    exact ⟨each c hc, bool .and rfl c hc⟩
  · obtain rfl := List.mem_singleton.1 hc
    exact ⟨each c hd, bool .or rfl c hd⟩

end Disjuncts

end Predicate

end BossOptimizer

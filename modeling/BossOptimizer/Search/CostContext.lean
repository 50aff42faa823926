import BossOptimizer.Cost.CCost

/-!
# Cost contexts: `CCostContext::FBetterThan`, `PccInsertBest`, `UpdateBestCost`, `PocLookupBest`

An optimization context is a group under a request. Its cost contexts are its plans by their root:
a group expression with an optimization context for each child, whose best cost contexts the cost
was computed from. The best one is kept.

The own cost of an operator and whether it is a parallel union, the one operator that costs its
most expensive child, are parameters (`OperatorCosts`).
-/

namespace BossOptimizer

variable {Poc : Type}

/-- What `BreakCostTiesForJoinPlans` reads: rows of the children, join depths of their groups. -/
structure JoinEstimates where
  dRowsOuter : ℚ
  dRowsInner : ℚ
  ulOuterJoinDepth : ℕ
  ulInnerJoinDepth : ℕ
  deriving DecidableEq

/-- What a comparison of two contexts looks at besides their costs. -/
structure PlanTraits where
  fPhysicalAgg : Bool
  fTwoStageScalarDQA : Bool
  fThreeStageScalarDQA : Bool
  fPartitioned : Bool
  fHashed : Bool
  fRandom : Bool
  /-- Set for physical joins. -/
  join : Option JoinEstimates
  /-- Set for spools: `FEager`. -/
  spool : Option Bool
  fMotionHazard : Bool
  deriving DecidableEq

/-- A plan root: a group expression under one of its optimization requests, with the contexts of
    its children. -/
structure Alternative (Poc : Type) where
  pgexpr : ℕ
  ulOptReq : ℕ
  pdrgpoc : List Poc
  traits : PlanTraits
  deriving DecidableEq

structure CCostContext (Poc : Type) extends Alternative Poc where
  cost : CCost
  deriving DecidableEq

/-- The best cost context, and the contexts in the hash tables of the group expressions. -/
structure COptimizationContext (Poc : Type) where
  pccBest : Option (CCostContext Poc)
  sht : List (CCostContext Poc)

/-- The costs that are assigned to operators. -/
structure OperatorCosts (Poc : Type) where
  costLocal : ℕ → Poc → List Poc → CCost
  fParallelUnionAll : ℕ → Bool

section Model

variable (useMaxCosting forceThreeStageScalarDQA : Bool) (costs : OperatorCosts Poc)

/-- The cost of an operator over its children: `CostUnionAll` (BOSSCostModel.cpp:787) for a
    parallel union, `costLocal + costChild` otherwise. -/
def costOver (fParallelUnionAll : Bool) (costLocal : CCost) (pdCost : List CCost) : CCost :=
  if fParallelUnionAll then BOSSCostModel.costMaxChild useMaxCosting pdCost
  else if pdCost.isEmpty then costLocal
  else costLocal.add useMaxCosting (BOSSCostModel.costChildren useMaxCosting pdCost)

/-- The cost of a context over the costs of its children. -/
def operatorCost (poc : Poc) (alt : Alternative Poc) (pdCost : List CCost) : CCost :=
  costOver useMaxCosting (costs.fParallelUnionAll alt.pgexpr)
    (costs.costLocal alt.pgexpr poc alt.pdrgpoc) pdCost

/-- `BreakCostTiesForJoinPlans` (CCostContext.cpp:317): the answer when the tie is resolved. -/
def breakCostTiesForJoinPlans (fst snd : JoinEstimates) : Option Bool :=
  if fst.dRowsOuter ≠ fst.dRowsInner then none
  else if snd.dRowsOuter ≠ snd.dRowsInner then none
  else if fst.dRowsInner ≠ snd.dRowsInner then none
  else some (fst.ulInnerJoinDepth < fst.ulOuterJoinDepth)

/-- The rules for equal costs (CCostContext.cpp:470). -/
def breakTies (this pcc : PlanTraits) : Bool :=
  if this.fPartitioned && !pcc.fPartitioned then true
  else if this.fHashed && pcc.fRandom then true
  else
    match (do breakCostTiesForJoinPlans (← this.join) (← pcc.join)) with
    | some preferred => preferred
    | none =>
      match pcc.spool, this.spool with
      | some fEagerNew, some fEagerBest => !pcc.fMotionHazard && (fEagerNew && !fEagerBest)
      | _, _ => false

/-- `CCostContext::FBetterThan` (CCostContext.cpp:404). -/
def fBetterThan (this pcc : CCostContext Poc) : Bool :=
  if forceThreeStageScalarDQA && this.traits.fPhysicalAgg && pcc.traits.fPhysicalAgg &&
      this.traits.fTwoStageScalarDQA && pcc.traits.fThreeStageScalarDQA then false
  else if forceThreeStageScalarDQA && this.traits.fPhysicalAgg && pcc.traits.fPhysicalAgg &&
      this.traits.fThreeStageScalarDQA && pcc.traits.fTwoStageScalarDQA then true
  else if this.cost.dCost - pcc.cost.dCost < 0 then true
  else if this.cost.dCost - pcc.cost.dCost > 0 then false
  else if useMaxCosting && this.cost.costSum - pcc.cost.costSum < 0 then true
  else if useMaxCosting && this.cost.costSum - pcc.cost.costSum > 0 then false
  else breakTies this.traits pcc.traits

variable [DecidableEq Poc]

/-- `FCostContextExists` (CGroupExpression.cpp:296). -/
def fCostContextExists (alt : Alternative Poc) (poc : COptimizationContext Poc) : Bool :=
  poc.sht.any fun pcc => pcc.pgexpr = alt.pgexpr && pcc.pdrgpoc = alt.pdrgpoc

/-- `PccInsertBest` (CGroupExpression.cpp:367), with the context that is kept. One group
    expression has one context for each of its optimization requests. -/
def pccInsertBest (poc : COptimizationContext Poc) (pcc : CCostContext Poc) :
    COptimizationContext Poc × CCostContext Poc :=
  match poc.sht.find? fun existing =>
    existing.pgexpr = pcc.pgexpr && existing.ulOptReq = pcc.ulOptReq with
  | none => ({ poc with sht := pcc :: poc.sht }, pcc)
  | some pccExisting =>
    if fBetterThan useMaxCosting forceThreeStageScalarDQA pcc pccExisting then
      ({ pccBest := if poc.pccBest = some pccExisting then some pcc else poc.pccBest
         sht := pcc :: poc.sht.erase pccExisting }, pcc)
    else (poc, pccExisting)

/-- `UpdateBestCost` (CGroup.cpp:279). -/
def updateBestCost (poc : COptimizationContext Poc) (pcc : CCostContext Poc) :
    COptimizationContext Poc :=
  if !CCost.eq useMaxCosting .invalidCost pcc.cost &&
      poc.pccBest.all (fBetterThan useMaxCosting forceThreeStageScalarDQA pcc ·) then
    { poc with pccBest := some pcc }
  else poc

/-- `PccComputeCost` (CGroupExpression.cpp:417) and the update of the best context that follows. -/
def computeCost (poc : COptimizationContext Poc) (pcc : CCostContext Poc) :
    COptimizationContext Poc :=
  if fCostContextExists pcc.toAlternative poc then poc
  else
    let inserted := pccInsertBest useMaxCosting forceThreeStageScalarDQA poc pcc
    updateBestCost useMaxCosting forceThreeStageScalarDQA inserted.1 inserted.2

/-- The optimization contexts of a memo. -/
abbrev Contexts (Poc : Type) := Poc → COptimizationContext Poc

/-- One search stage of `PocLookupBest`. -/
def lookupStep (contexts : Contexts Poc) (best : Option Poc × Option (CCostContext Poc))
    (poc : Poc) : Option Poc × Option (CCostContext Poc) :=
  match best.2, (contexts poc).pccBest with
  | none, pccCurrent => (some poc, pccCurrent)
  | some _, none => best
  | some pccBest, some pccCurrent =>
    if fBetterThan useMaxCosting forceThreeStageScalarDQA pccCurrent pccBest then
      (some poc, some pccCurrent)
    else best

/-- `PocLookupBest` (CGroup.cpp:351) over the contexts of one request in all search stages. -/
def pocLookupBest (contexts : Contexts Poc) (stages : List Poc) : Option Poc :=
  (stages.foldl (lookupStep useMaxCosting forceThreeStageScalarDQA contexts) (none, none)).1

/-- The costs of the best plans of the children. -/
def childCosts (contexts : Contexts Poc) (pdrgpoc : List Poc) : Option (List CCost) :=
  pdrgpoc.mapM fun poc => (contexts poc).pccBest.map (·.cost)

/-- One group expression is costed in a context, once all its children have a plan. -/
def optimizeStep (contexts : Contexts Poc) (step : Poc × Alternative Poc) : Contexts Poc :=
  match childCosts contexts step.2.pdrgpoc with
  | none => contexts
  | some pdCost =>
    Function.update contexts step.1 (computeCost useMaxCosting forceThreeStageScalarDQA
      (contexts step.1)
      ⟨step.2, operatorCost useMaxCosting costs step.1 step.2 pdCost⟩)

/-- A whole optimization, from empty contexts. -/
def optimize (run : List (Poc × Alternative Poc)) : Contexts Poc :=
  run.foldl (optimizeStep useMaxCosting forceThreeStageScalarDQA costs) fun _ => ⟨none, []⟩

end Model

/-! ## The best context of one optimization context -/

variable {useMaxCosting : Bool} {costs : OperatorCosts Poc}

/-- With the trace flag off a context that is better does not cost more, and one that is not better
    does not cost less. -/
theorem fBetterThan_dCost {this pcc : CCostContext Poc} :
    (fBetterThan useMaxCosting false this pcc = true → this.cost.dCost ≤ pcc.cost.dCost) ∧
      (fBetterThan useMaxCosting false this pcc = false → pcc.cost.dCost ≤ this.cost.dCost) := by
  simp only [fBetterThan, Bool.false_and, Bool.false_eq_true, if_false]
  split
  · next hlt => exact ⟨fun _ => by linarith, fun h => by cases h⟩
  · next hge =>
    split
    · next hgt => exact ⟨fun h => (by cases h), fun _ => by linarith⟩
    · next hle =>
      have heq : this.cost.dCost = pcc.cost.dCost := by linarith
      exact ⟨fun _ => heq.le, fun _ => heq.ge⟩

/-- The best context is no more expensive than any context in the tables. -/
def KeepsBest (poc : COptimizationContext Poc) : Prop :=
  ∀ c ∈ poc.sht, ∃ b ∈ poc.pccBest, b.cost.dCost ≤ c.cost.dCost

/-- A context that is not the invalid one becomes the best or is no better than the best. -/
theorem updateBestCost_spec (poc : COptimizationContext Poc) {pcc : CCostContext Poc}
    (hvalid : CCost.eq useMaxCosting .invalidCost pcc.cost = false) :
    let poc' := updateBestCost useMaxCosting false poc pcc
    poc'.sht = poc.sht ∧
      (poc'.pccBest = some pcc ∧ (∀ b ∈ poc.pccBest, pcc.cost.dCost ≤ b.cost.dCost) ∨
        poc'.pccBest = poc.pccBest ∧ ∃ b ∈ poc.pccBest, b.cost.dCost ≤ pcc.cost.dCost) := by
  intro poc'
  simp only [poc', updateBestCost, hvalid, Bool.not_false, Bool.true_and]
  cases hbest : poc.pccBest with
  | none => simp
  | some b =>
    simp only [Option.all_some]
    split
    · next hlt => exact ⟨rfl, .inl ⟨rfl, by simpa using fBetterThan_dCost.1 hlt⟩⟩
    · next hge =>
      exact ⟨rfl, .inr ⟨hbest, b, rfl, fBetterThan_dCost.2 (by simpa using hge)⟩⟩

/-- What a step can do to a context, and that it keeps the best. -/
structure StepSpec (pcc : CCostContext Poc) (poc poc' : COptimizationContext Poc) : Prop where
  keeps : KeepsBest poc'
  sht : ∀ c ∈ poc'.sht, c = pcc ∨ c ∈ poc.sht
  best : ∀ b ∈ poc'.pccBest, b = pcc ∨ b ∈ poc.pccBest ∨ b ∈ poc.sht
  better : ∀ b ∈ poc.pccBest, ∃ b' ∈ poc'.pccBest, b'.cost.dCost ≤ b.cost.dCost

/-- The best context after an update is no more expensive than the one offered. -/
theorem updateBestCost_better {poc : COptimizationContext Poc} {pcc : CCostContext Poc}
    (hvalid : CCost.eq useMaxCosting .invalidCost pcc.cost = false) {bound : ℚ}
    (h : pcc.cost.dCost ≤ bound ∨ ∃ b ∈ poc.pccBest, b.cost.dCost ≤ bound) :
    ∃ b ∈ (updateBestCost useMaxCosting false poc pcc).pccBest, b.cost.dCost ≤ bound := by
  obtain ⟨-, ⟨hbest, hle⟩ | ⟨hbest, b, hb, hle⟩⟩ := updateBestCost_spec poc hvalid
  · refine ⟨pcc, hbest, ?_⟩
    rcases h with h | ⟨b, hb, h⟩
    · exact h
    · exact (hle b hb).trans h
  · rw [hbest]
    rcases h with h | ⟨b', hb', h⟩
    · exact ⟨b, hb, hle.trans h⟩
    · exact ⟨b', hb', h⟩

variable [DecidableEq Poc]

/-- What `PccInsertBest` can do: the context that is kept is no more expensive than the one
    offered, and the best context does not get more expensive. -/
structure InsertSpec (pcc : CCostContext Poc) (poc poc' : COptimizationContext Poc)
    (pccKept : CCostContext Poc) : Prop where
  kept : pccKept = pcc ∨ pccKept ∈ poc.sht
  cheap : pccKept.cost.dCost ≤ pcc.cost.dCost
  sht : ∀ c ∈ poc'.sht, c = pccKept ∨ c ∈ poc.sht
  best : ∀ b ∈ poc'.pccBest, b = pccKept ∨ b ∈ poc.pccBest
  better : ∀ b ∈ poc.pccBest, ∃ b' ∈ poc'.pccBest, b'.cost.dCost ≤ b.cost.dCost

theorem pccInsertBest_spec (useMaxCosting : Bool) (poc : COptimizationContext Poc) (pcc : CCostContext Poc) :
    InsertSpec pcc poc (pccInsertBest useMaxCosting false poc pcc).1
      (pccInsertBest useMaxCosting false poc pcc).2 := by
  unfold pccInsertBest
  split
  · exact ⟨.inl rfl, le_rfl, fun c hc => List.mem_cons.1 hc, fun b hb => .inr hb,
      fun b hb => ⟨b, hb, le_rfl⟩⟩
  next pccExisting hfind =>
  have hmem : pccExisting ∈ poc.sht := List.mem_of_find?_eq_some hfind
  split
  · next hlt =>
    refine ⟨.inl rfl, le_rfl, fun c hc => ?_, fun b hb => ?_, fun b hb => ?_⟩
    · exact (List.mem_cons.1 hc).imp id List.mem_of_mem_erase
    · simp only at hb
      split at hb
      · exact .inl (Option.some.inj hb).symm
      · exact .inr hb
    · simp only
      split
      · -- the best context was the one that is replaced
        next heq =>
        obtain rfl : b = pccExisting := Option.some.inj (hb.symm.trans heq)
        exact ⟨pcc, rfl, fBetterThan_dCost.1 hlt⟩
      · exact ⟨b, hb, le_rfl⟩
  · next hge =>
    exact ⟨.inr hmem, fBetterThan_dCost.2 (by simpa using hge), fun c hc => .inr hc,
      fun b hb => .inr hb, fun b hb => ⟨b, hb, le_rfl⟩⟩

/-- `PccInsertBest` and `UpdateBestCost` together. -/
theorem computeCost_spec {poc : COptimizationContext Poc} {pcc : CCostContext Poc}
    (hkeeps : KeepsBest poc)
    (hvalid : CCost.eq useMaxCosting .invalidCost pcc.cost = false)
    (hsht : ∀ c ∈ poc.sht, CCost.eq useMaxCosting .invalidCost c.cost = false) :
    StepSpec pcc poc (computeCost useMaxCosting false poc pcc) ∧
      (fCostContextExists pcc.toAlternative poc = false →
        ∃ b ∈ (computeCost useMaxCosting false poc pcc).pccBest,
          b.cost.dCost ≤ pcc.cost.dCost) := by
  unfold computeCost
  split
  · next hexists =>
    exact ⟨⟨hkeeps, fun c hc => .inr hc, fun b hb => .inr (.inl hb), fun b hb => ⟨b, hb, le_rfl⟩⟩,
      fun h => by rw [hexists] at h; cases h⟩
  have hspec := pccInsertBest_spec useMaxCosting poc pcc
  generalize pccInsertBest useMaxCosting false poc pcc = inserted at hspec ⊢
  obtain ⟨poc₁, pccKept⟩ := inserted
  obtain ⟨hkept, hle, hsht₁, hbest₁, hbetter₁⟩ := hspec
  have hvalid' : CCost.eq useMaxCosting .invalidCost pccKept.cost = false := by
    rcases hkept with heq | hkept
    · obtain rfl : pccKept = pcc := heq
      exact hvalid
    · exact hsht _ hkept
  have hold : ∀ c ∈ poc₁.sht, c = pcc ∨ c ∈ poc.sht := by
    intro c hc
    rcases hsht₁ c hc with heq | hc
    · exact heq ▸ hkept
    · exact .inr hc
  obtain ⟨hsame, hbest⟩ := updateBestCost_spec poc₁ hvalid'
  have hbetter : ∀ b ∈ poc.pccBest,
      ∃ b' ∈ (updateBestCost useMaxCosting false poc₁ pccKept).pccBest,
        b'.cost.dCost ≤ b.cost.dCost := by
    intro b hb
    exact updateBestCost_better hvalid' (.inr (hbetter₁ b hb))
  refine ⟨⟨fun c hc => ?_, fun c hc => ?_, fun b hb => ?_, hbetter⟩, fun _ => ?_⟩
  · rw [hsame] at hc
    rcases hsht₁ c hc with heq | hc
    · exact updateBestCost_better hvalid' (.inl (heq ▸ le_rfl))
    · obtain ⟨b, hb, hle⟩ := hkeeps c hc
      obtain ⟨b', hb', hle'⟩ := hbetter b hb
      exact ⟨b', hb', hle'.trans hle⟩
  · exact hold c (hsame ▸ hc)
  · have hb : b = pccKept ∨ b ∈ poc.pccBest := by
      rcases hbest with ⟨hbest, -⟩ | ⟨hbest, -⟩ <;> rw [hbest] at hb
      · exact .inl (Option.some.inj hb).symm
      · exact hbest₁ b hb
    rcases hb with heq | hb
    · exact heq ▸ hkept.imp id .inr
    · exact .inr (.inl hb)
  · exact updateBestCost_better hvalid' (.inl hle)

end BossOptimizer

import BossOptimizer.Search.BestPlan
import BossOptimizer.Lib.Total
import Mathlib.Data.Finset.Insert

/-!
# Cost lower bounds: `CGroup::CostLowerBound`, `CGroupExpression::CostLowerBound`, `CPartialPlan`

The bound of a group is the least bound of its physical expressions that are not enforcers. The
bound of an expression is the cost of a partial plan: a child whose best plan is known enters with
its cost, any other child with the bound of its group. Both bounds are cached, and a cache entry
keeps the number only: it is tagged `EetAny` whatever the engines of the bound were.

Statistics and required columns enter through parameters: `costPartial` is the own cost of the root
of a partial plan at the row counts a partial plan assumes, `reqdCols` what `ComputeChildReqdCols`
asks of a child. Scalar children are left out, as the loops over the children skip them.
-/

namespace BossOptimizer

variable {Poc : Type}

/-! ## The memo under optimization -/

/-- Groups, their expressions and the requests they are optimized under. -/
structure SearchSpace (Poc : Type) where
  pgroup : Poc → ℕ
  /-- `PcrsRequired` of the request. -/
  pcrsRequired : Poc → Finset ℕ
  /-- `Ped` of the request. -/
  ped : Poc → ℕ
  /-- The expressions of a group that are not logical, in order. -/
  gexprs : ℕ → List ℕ
  fEnforcer : ℕ → Bool
  /-- The child groups of an expression. -/
  children : ℕ → List ℕ
  /-- `Eceo` is `EceoRightToLeft`. -/
  fRightToLeft : ℕ → Bool
  reqdCols : ℕ → Finset ℕ → ℕ → Finset ℕ
  /-- `GetPartitionInfo()->UlConsumers()` of a group. -/
  ulConsumers : ℕ → ℕ
  /-- The expressions and optimization requests that `FOptimizeChild` and `FCheckReqdProps` let
      through. A child context that is the context itself is a deadlock that both engines refuse. -/
  alternatives : Poc → List (Alternative Poc)
  /-- The enforcers that `FCheckEnfdProps` adds to the group. -/
  enforcers : Poc → Alternative Poc → List ℕ
  /-- What `FCheckEnfdProps` returns: the properties are satisfied without an enforcer. -/
  fCheckEnfdProps : Poc → Alternative Poc → Bool
  /-- Children come before their parents, enforcers apart. -/
  rank : ℕ → ℕ
  mem_gexprs : ∀ poc, ∀ alt ∈ alternatives poc, alt.pgexpr ∈ gexprs (pgroup poc)
  pgroup_pdrgpoc : ∀ poc, ∀ alt ∈ alternatives poc, alt.pdrgpoc.map pgroup = children alt.pgexpr
  not_mem_pdrgpoc : ∀ poc, ∀ alt ∈ alternatives poc, poc ∉ alt.pdrgpoc
  /-- Asking fewer columns of an expression asks no more columns of its children. -/
  reqdCols_subset : ∀ poc, ∀ alt ∈ alternatives poc, ∀ cols ⊆ pcrsRequired poc,
    ∀ i q, alt.pdrgpoc[i]? = some q → reqdCols alt.pgexpr cols i ⊆ pcrsRequired q
  /-- The child of an enforcer is the group of the enforcer. -/
  children_enforcer : ∀ g, ∀ pgexpr ∈ gexprs g, fEnforcer pgexpr = true → children pgexpr = [g]
  /-- An enforcer passes the required columns on. -/
  pcrs_enforcer : ∀ poc, ∀ alt ∈ alternatives poc, fEnforcer alt.pgexpr = true →
    ∀ q ∈ alt.pdrgpoc, pcrsRequired poc ⊆ pcrsRequired q
  rank_children : ∀ g, ∀ pgexpr ∈ gexprs g, fEnforcer pgexpr = false →
    ∀ child ∈ children pgexpr, rank child < rank g

/-- A child whose best plan is known. -/
structure KnownChild (Poc : Type) where
  ulChildIndex : ℕ
  poc : Poc
  pccChild : CCostContext Poc
  deriving DecidableEq

/-- `CPartialPlan` (CPartialPlan.h:42), as far as `CPartialPlan::Equals` compares it: of the request
    the required columns and, if there is one, the required distribution. -/
structure PartialPlan (Poc : Type) where
  pgexpr : ℕ
  pcrs : Finset ℕ
  ped : Option ℕ
  child : Option (KnownChild Poc)
  deriving DecidableEq

/-- The own costs of complete and of partial plans. -/
structure BoundingCosts (Poc : Type) extends OperatorCosts Poc where
  costPartial : ℕ → Finset ℕ → Option ℕ → Option (ℕ × Poc) → CCost

/-- `m_pcostmap` of the groups and `m_ppartialplancostmap` of the expressions. -/
structure CostCaches (Poc : Type) where
  pcostmap : ℕ × Finset ℕ → Option CCost
  ppartialplancostmap : PartialPlan Poc → Option CCost

namespace CostCaches

def empty : CostCaches Poc := ⟨fun _ => none, fun _ => none⟩

/-- The entry is made from `CCost::Get`. -/
def insertGroup (caches : CostCaches Poc) (key : ℕ × Finset ℕ) (cost : CCost) : CostCaches Poc :=
  { caches with pcostmap := Function.update caches.pcostmap key (some (.ofDouble cost.dCost)) }

def insertPartialPlan [DecidableEq Poc] (caches : CostCaches Poc) (ppp : PartialPlan Poc)
    (cost : CCost) : CostCaches Poc :=
  { caches with ppartialplancostmap :=
      Function.update caches.ppartialplancostmap ppp (some (.ofDouble cost.dCost)) }

end CostCaches

namespace SearchSpace

variable [DecidableEq Poc] (space : SearchSpace Poc) (useMaxCosting : Bool)
  (costs : BoundingCosts Poc)

/-! ## Computing a bound -/

section Bounds

-- `CGroup::CostLowerBound`, as its callers see it
variable (costLowerBound : CostCaches Poc → ℕ → Finset ℕ → Option (CostCaches Poc × CCost))

/-- One child in the loop of `ExtractChildrenCostingInfo` (CPartialPlan.cpp:74). -/
def extractChildCost (ppp : PartialPlan Poc) (acc : CostCaches Poc × List CCost)
    (child : ℕ × ℕ) : Option (CostCaches Poc × List CCost) :=
  match ppp.child.filter (·.ulChildIndex = child.2) with
  | some known => some (acc.1, acc.2 ++ [known.pccChild.cost])
  | none =>
    (costLowerBound acc.1 child.1 (space.reqdCols ppp.pgexpr ppp.pcrs child.2)).map fun r =>
      (r.1, acc.2 ++ [r.2])

/-- The cost over the costs of the children. The 1.0 is taken off for a constant that cost models
    once added to the costs of children. -/
def partialPlanCost (ppp : PartialPlan Poc) (pdCost : List CCost) : CCost :=
  let cost := costOver useMaxCosting (costs.fParallelUnionAll ppp.pgexpr)
    (costs.costPartial ppp.pgexpr ppp.pcrs ppp.ped (ppp.child.map fun c => (c.ulChildIndex, c.poc)))
    pdCost
  if !pdCost.isEmpty && 1 < cost.dCost then .ofDouble (cost.dCost - 1) else cost

/-- `CPartialPlan::CostCompute` (CPartialPlan.cpp:176). -/
def costCompute (caches : CostCaches Poc) (ppp : PartialPlan Poc) :
    Option (CostCaches Poc × CCost) :=
  ((space.children ppp.pgexpr).zipIdx.foldlM (space.extractChildCost costLowerBound ppp)
    (caches, [])).map fun r => (r.1, partialPlanCost useMaxCosting costs ppp r.2)

/-- `CGroupExpression::CostLowerBound` (CGroupExpression.cpp:492). -/
def gexprCostLowerBound (caches : CostCaches Poc) (ppp : PartialPlan Poc) :
    Option (CostCaches Poc × CCost) :=
  match caches.ppartialplancostmap ppp with
  | some cost => some (caches, cost)
  | none => (space.costCompute useMaxCosting costs costLowerBound caches ppp).map fun r =>
      (r.1.insertPartialPlan ppp r.2, r.2)

/-- One expression in the loop of `CGroup::CostLowerBound`. -/
def gexprStep (pcrs : Finset ℕ) (acc : CostCaches Poc × CCost) (pgexpr : ℕ) :
    Option (CostCaches Poc × CCost) :=
  if space.fEnforcer pgexpr then some acc
  else
    (space.gexprCostLowerBound useMaxCosting costs costLowerBound acc.1
      ⟨pgexpr, pcrs, none, none⟩).map fun r =>
        (r.1, if CCost.lt useMaxCosting r.2 acc.2 then r.2 else acc.2)

end Bounds

/-- `CGroup::CostLowerBound` (CGroup.cpp:2031). The requests it is asked for carry the required
    columns only. -/
def groupCostLowerBound :
    ℕ → CostCaches Poc → ℕ → Finset ℕ → Option (CostCaches Poc × CCost)
  | 0, _, _, _ => none
  | fuel + 1, caches, pgroup, pcrs =>
    match caches.pcostmap (pgroup, pcrs) with
    | some cost => some (caches, cost)
    | none =>
      ((space.gexprs pgroup).foldlM
        (space.gexprStep useMaxCosting costs (groupCostLowerBound fuel) pcrs)
        (caches, .infiniteCost)).map fun r => (r.1.insertGroup (pgroup, pcrs) r.2, r.2)

end SearchSpace

/-! ## What a bound bounds -/

namespace SearchSpace

variable {space : SearchSpace Poc} {useMaxCosting : Bool} {costs : BoundingCosts Poc}

/-- What a plan may be assembled from. -/
def Admits (space : SearchSpace Poc) (poc : Poc) (alt : Alternative Poc) : Prop :=
  alt ∈ space.alternatives poc ∧ space.fCheckEnfdProps poc alt = true

/-- The cost is below all plans of the group under requests of at least these columns. -/
def BelowGroup (space : SearchSpace Poc) (useMaxCosting : Bool) (costs : BoundingCosts Poc)
    (pgroup : ℕ) (pcrs : Finset ℕ) (bound : CCost) : Prop :=
  ∀ (plan : Plan Poc) (poc : Poc), space.pgroup poc = pgroup → pcrs ⊆ space.pcrsRequired poc →
    plan.Assembled space.Admits poc →
      bound.dCost ≤ (plan.cost useMaxCosting costs.toOperatorCosts poc).dCost

/-- The plan completes the partial plan. Its child in the place of the known one may be another,
    but none that is cheaper. -/
structure Completes (space : SearchSpace Poc) (useMaxCosting : Bool) (costs : BoundingCosts Poc)
    (ppp : PartialPlan Poc) (poc : Poc) (alt : Alternative Poc) (children : List (Plan Poc)) :
    Prop where
  pgexpr : alt.pgexpr = ppp.pgexpr
  pcrs : ppp.pcrs ⊆ space.pcrsRequired poc
  ped : ∀ ped ∈ ppp.ped, ped = space.ped poc
  assembled : (Plan.node alt children).Assembled space.Admits poc
  child : ∀ known ∈ ppp.child, alt.pdrgpoc[known.ulChildIndex]? = some known.poc ∧
    ∀ plan, children[known.ulChildIndex]? = some plan →
      known.pccChild.cost.dCost ≤ (plan.cost useMaxCosting costs.toOperatorCosts known.poc).dCost

/-- The cost is below all plans that complete the partial plan. -/
def BelowPartial (space : SearchSpace Poc) (useMaxCosting : Bool) (costs : BoundingCosts Poc)
    (ppp : PartialPlan Poc) (bound : CCost) : Prop :=
  ∀ poc alt children, space.Completes useMaxCosting costs ppp poc alt children →
    bound.dCost ≤
      ((Plan.node alt children).cost useMaxCosting costs.toOperatorCosts poc).dCost

/-- The cached bounds are bounds. -/
structure CachesBelow (space : SearchSpace Poc) (useMaxCosting : Bool) (costs : BoundingCosts Poc)
    (caches : CostCaches Poc) : Prop where
  pcostmap : ∀ pgroup pcrs bound, caches.pcostmap (pgroup, pcrs) = some bound →
    bound.Plain useMaxCosting ∧ space.BelowGroup useMaxCosting costs pgroup pcrs bound
  ppartialplancostmap : ∀ ppp bound, caches.ppartialplancostmap ppp = some bound →
    bound.Plain useMaxCosting ∧ space.BelowPartial useMaxCosting costs ppp bound

/-- The costs behave like numbers, and an operator in a partial plan costs no more than in a plan
    that completes it. -/
structure Monotone (space : SearchSpace Poc) (useMaxCosting : Bool) (costs : BoundingCosts Poc) :
    Prop where
  costLocal : ∀ pgexpr poc pdrgpoc, (costs.costLocal pgexpr poc pdrgpoc).Plain useMaxCosting
  costPartial : ∀ pgexpr pcrs ped child,
    (costs.costPartial pgexpr pcrs ped child).Plain useMaxCosting
  costPartial_le : ∀ poc, ∀ alt ∈ space.alternatives poc, ∀ pcrs ⊆ space.pcrsRequired poc,
    ∀ ped : Option ℕ, (∀ d ∈ ped, d = space.ped poc) →
    ∀ child : Option (ℕ × Poc), (∀ c ∈ child, alt.pdrgpoc[c.1]? = some c.2) →
      (costs.costPartial alt.pgexpr pcrs ped child).dCost ≤
        (costs.costLocal alt.pgexpr poc alt.pdrgpoc).dCost

/-! ## Partial plans -/

theorem costAll_eq_zipWith (useMaxCosting : Bool) (costs : OperatorCosts Poc) (pocs : List Poc)
    (plans : List (Plan Poc)) : Plan.costAll useMaxCosting costs pocs plans =
      List.zipWith (fun poc plan => plan.cost useMaxCosting costs poc) pocs plans := by
  induction pocs generalizing plans with
  | nil => simp [Plan.costAll]
  | cons poc pocs ih => cases plans <;> simp [Plan.costAll, ih]

theorem Monotone.cost_plain (hcosts : space.Monotone useMaxCosting costs) (plan : Plan Poc) :
    ∀ poc, (plan.cost useMaxCosting costs.toOperatorCosts poc).Plain useMaxCosting := by
  induction plan using Plan.induction with
  | node alt children ih =>
    intro poc
    rw [Plan.cost]
    refine costOver_plain (hcosts.costLocal _ _ _) fun c hc => ?_
    obtain ⟨q, plan, hplan, rfl⟩ := Plan.mem_costAll hc
    exact ih plan hplan q

/-- The cost is below the child at this position in all plans that complete the partial plan. -/
def BelowChild (space : SearchSpace Poc) (useMaxCosting : Bool) (costs : BoundingCosts Poc)
    (ppp : PartialPlan Poc) (i : ℕ) (bound : CCost) : Prop :=
  ∀ poc alt children, space.Completes useMaxCosting costs ppp poc alt children →
    ∀ q plan, alt.pdrgpoc[i]? = some q → children[i]? = some plan →
      bound.dCost ≤ (plan.cost useMaxCosting costs.toOperatorCosts q).dCost

/-- Bounds of the children make a bound of the partial plan. -/
theorem partialPlanCost_below (hcosts : space.Monotone useMaxCosting costs)
    {ppp : PartialPlan Poc} {pdCost : List CCost}
    (h : List.Forall₂ (fun (child : ℕ × ℕ) bound => bound.Plain useMaxCosting ∧
      space.BelowChild useMaxCosting costs ppp child.2 bound)
        (space.children ppp.pgexpr).zipIdx pdCost) :
    (partialPlanCost useMaxCosting costs ppp pdCost).Plain useMaxCosting ∧
      space.BelowPartial useMaxCosting costs ppp
        (partialPlanCost useMaxCosting costs ppp pdCost) := by
  have hplain : ∀ c ∈ pdCost, c.Plain useMaxCosting := by
    intro c hc
    obtain ⟨-, -, hplain, -⟩ := exists_of_forall₂_right h hc
    exact hplain
  -- the cost before the constant is taken off
  set cost := costOver useMaxCosting (costs.fParallelUnionAll ppp.pgexpr)
    (costs.costPartial ppp.pgexpr ppp.pcrs ppp.ped
      (ppp.child.map fun c => (c.ulChildIndex, c.poc))) pdCost with hdef
  have hcost : cost.Plain useMaxCosting := costOver_plain (hcosts.costPartial _ _ _ _) hplain
  have hbelow : space.BelowPartial useMaxCosting costs ppp cost := by
    intro poc alt children hc
    obtain ⟨⟨halt, -⟩, hall⟩ := hc.assembled
    rw [Plan.assembledAll_iff] at hall
    rw [Plan.cost, operatorCost, hdef, ← hc.pgexpr]
    refine costOver_mono (hcosts.costPartial _ _ _ _) (hcosts.costLocal _ _ _) ?_ hplain ?_ ?_
    · refine hcosts.costPartial_le poc alt halt _ hc.pcrs _ hc.ped _ fun c hmem => ?_
      obtain ⟨known, hknown, rfl⟩ := Option.map_eq_some_iff.1 hmem
      exact (hc.child known hknown).1
    · intro c hmem
      obtain ⟨q, plan, -, rfl⟩ := Plan.mem_costAll hmem
      exact hcosts.cost_plain plan q
    · have hlen : (space.children ppp.pgexpr).length = alt.pdrgpoc.length := by
        rw [← hc.pgexpr, ← space.pgroup_pdrgpoc poc alt halt, List.length_map]
      rw [costAll_eq_zipWith]
      refine forall₂_of_getElem? ?_ fun i c c' hmem hmem' => ?_
      · rw [← h.length_eq, List.length_zipIdx, List.length_zipWith, hlen, hall.length_eq,
          Nat.min_self]
      · obtain ⟨q, plan, hq, hplan, rfl⟩ := List.getElem?_zipWith_eq_some.1 hmem'
        obtain ⟨hi, -⟩ := List.getElem?_eq_some_iff.1 hq
        have hchild : (space.children ppp.pgexpr).zipIdx[i]? =
            some ((space.children ppp.pgexpr)[i], i) := by simp
        exact (rel_of_getElem? h hchild hmem).2 poc alt children hc q plan hq hplan
  unfold partialPlanCost
  simp only [← hdef]
  split
  · next hlt =>
    simp only [Bool.and_eq_true, decide_eq_true_eq] at hlt
    refine ⟨CCost.ofDouble_plain (by linarith [hlt.2]), fun poc alt children hc => ?_⟩
    refine le_trans ?_ (hbelow poc alt children hc)
    simp only [CCost.ofDouble, CCost.ofEngine]
    linarith
  · exact ⟨hcost, hbelow⟩

/-! ## Caches -/

theorem CachesBelow.empty : space.CachesBelow useMaxCosting costs .empty :=
  ⟨fun _ _ _ h => by simp [CostCaches.empty] at h, fun _ _ h => by simp [CostCaches.empty] at h⟩

/-- A cache keeps a bound a bound. -/
theorem CachesBelow.insertGroup {caches : CostCaches Poc}
    (hcaches : space.CachesBelow useMaxCosting costs caches) {pgroup : ℕ} {pcrs : Finset ℕ}
    {bound : CCost} (hplain : bound.Plain useMaxCosting)
    (hbelow : space.BelowGroup useMaxCosting costs pgroup pcrs bound) :
    space.CachesBelow useMaxCosting costs (caches.insertGroup (pgroup, pcrs) bound) := by
  refine ⟨fun pgroup' pcrs' bound' h => ?_, hcaches.ppartialplancostmap⟩
  by_cases heq : (pgroup', pcrs') = (pgroup, pcrs)
  · simp only [CostCaches.insertGroup, heq, Function.update_self, Option.some.injEq] at h
    obtain ⟨rfl, rfl⟩ := Prod.mk.inj heq
    subst h
    exact ⟨CCost.ofDouble_plain hplain.dCost_nonneg, hbelow⟩
  · simp only [CostCaches.insertGroup, Function.update_of_ne heq] at h
    exact hcaches.pcostmap _ _ _ h

theorem CachesBelow.insertPartialPlan [DecidableEq Poc] {caches : CostCaches Poc}
    (hcaches : space.CachesBelow useMaxCosting costs caches) {ppp : PartialPlan Poc}
    {bound : CCost} (hplain : bound.Plain useMaxCosting)
    (hbelow : space.BelowPartial useMaxCosting costs ppp bound) :
    space.CachesBelow useMaxCosting costs (caches.insertPartialPlan ppp bound) := by
  refine ⟨hcaches.pcostmap, fun ppp' bound' h => ?_⟩
  by_cases heq : ppp' = ppp
  · subst heq
    simp only [CostCaches.insertPartialPlan, Function.update_self, Option.some.injEq] at h
    subst h
    exact ⟨CCost.ofDouble_plain hplain.dCost_nonneg, hbelow⟩
  · simp only [CostCaches.insertPartialPlan, Function.update_of_ne heq] at h
    exact hcaches.ppartialplancostmap _ _ h

/-! ## The bounds are bounds -/

/-- What a bound function of groups has to do for a group. -/
def BoundsGroup (space : SearchSpace Poc) (useMaxCosting : Bool) (costs : BoundingCosts Poc)
    (costLowerBound : CostCaches Poc → ℕ → Finset ℕ → Option (CostCaches Poc × CCost))
    (pgroup : ℕ) : Prop :=
  ∀ caches pcrs, space.CachesBelow useMaxCosting costs caches →
    Ensures (costLowerBound caches pgroup pcrs) fun r =>
      space.CachesBelow useMaxCosting costs r.1 ∧ r.2.Plain useMaxCosting ∧
        space.BelowGroup useMaxCosting costs pgroup pcrs r.2

section Gexpr

variable {costLowerBound : CostCaches Poc → ℕ → Finset ℕ → Option (CostCaches Poc × CCost)}

/-- The bound of a child group is below the child of a plan that completes the partial plan. -/
theorem belowChild_of_belowGroup {ppp : PartialPlan Poc} {i child : ℕ} {bound : CCost}
    (hi : (space.children ppp.pgexpr)[i]? = some child)
    (h : space.BelowGroup useMaxCosting costs child (space.reqdCols ppp.pgexpr ppp.pcrs i) bound) :
    space.BelowChild useMaxCosting costs ppp i bound := by
  intro poc alt children hc q plan hq hplan
  obtain ⟨⟨halt, -⟩, hall⟩ := hc.assembled
  rw [Plan.assembledAll_iff] at hall
  refine h plan q ?_ ?_ (rel_of_getElem? hall hq hplan)
  · rw [← hc.pgexpr, ← space.pgroup_pdrgpoc poc alt halt, List.getElem?_map, hq] at hi
    exact Option.some.inj hi
  · rw [← hc.pgexpr]
    exact space.reqdCols_subset poc alt halt _ hc.pcrs i q hq

theorem costCompute_below (hcosts : space.Monotone useMaxCosting costs) {ppp : PartialPlan Poc}
    (hknown : ∀ known ∈ ppp.child, known.pccChild.cost.Plain useMaxCosting)
    (hlower : ∀ child ∈ space.children ppp.pgexpr,
      space.BoundsGroup useMaxCosting costs costLowerBound child)
    {caches : CostCaches Poc} (hcaches : space.CachesBelow useMaxCosting costs caches) :
    Ensures (space.costCompute useMaxCosting costs costLowerBound caches ppp) fun r =>
      space.CachesBelow useMaxCosting costs r.1 ∧ r.2.Plain useMaxCosting ∧
        space.BelowPartial useMaxCosting costs ppp r.2 := by
  -- the loop over the children: what has been visited has a bound
  let inv (done : List (ℕ × ℕ)) (acc : CostCaches Poc × List CCost) : Prop :=
    space.CachesBelow useMaxCosting costs acc.1 ∧
      List.Forall₂ (fun (child : ℕ × ℕ) bound => bound.Plain useMaxCosting ∧
        space.BelowChild useMaxCosting costs ppp child.2 bound) done acc.2
  have hloop : Ensures ((space.children ppp.pgexpr).zipIdx.foldlM
      (space.extractChildCost costLowerBound ppp) (caches, []))
      (inv (space.children ppp.pgexpr).zipIdx) := by
    refine Ensures.foldlM (fun done child hmem acc hacc => ?_) _ ⟨hcaches, .nil⟩
    obtain ⟨child, i⟩ := child
    obtain ⟨hcaches', hdone⟩ := hacc
    have hi : (space.children ppp.pgexpr)[i]? = some child := List.mem_zipIdx_iff_getElem?.1 hmem
    simp only [extractChildCost]
    split
    · next known hfilter =>
      -- the child with the known plan
      obtain ⟨hmem, hindex⟩ := Option.filter_eq_some_iff.1 hfilter
      have hindex : known.ulChildIndex = i := by simpa using hindex
      refine .some ⟨hcaches', List.rel_append hdone (.cons ⟨hknown known hmem, ?_⟩ .nil)⟩
      intro poc alt children hc q plan hq hplan
      obtain ⟨hpoc, hle⟩ := hc.child known hmem
      rw [hindex] at hpoc hle
      obtain rfl : q = known.poc := Option.some.inj (hq.symm.trans hpoc)
      exact hle plan hplan
    · refine (hlower child (List.mem_of_getElem? hi) acc.1 _ hcaches').map fun r hr => ?_
      obtain ⟨hcaches', hplain, hbelow⟩ := hr
      exact ⟨hcaches', List.rel_append hdone
        (.cons ⟨hplain, belowChild_of_belowGroup hi hbelow⟩ .nil)⟩
  exact hloop.map fun r hr => ⟨hr.1, partialPlanCost_below hcosts hr.2⟩

variable [DecidableEq Poc]

/-- `CGroupExpression::CostLowerBound` bounds the plans that complete the partial plan. -/
theorem gexprCostLowerBound_below (hcosts : space.Monotone useMaxCosting costs)
    {ppp : PartialPlan Poc}
    (hknown : ∀ known ∈ ppp.child, known.pccChild.cost.Plain useMaxCosting)
    (hlower : ∀ child ∈ space.children ppp.pgexpr,
      space.BoundsGroup useMaxCosting costs costLowerBound child)
    {caches : CostCaches Poc} (hcaches : space.CachesBelow useMaxCosting costs caches) :
    Ensures (space.gexprCostLowerBound useMaxCosting costs costLowerBound caches ppp) fun r =>
      space.CachesBelow useMaxCosting costs r.1 ∧ r.2.Plain useMaxCosting ∧
        space.BelowPartial useMaxCosting costs ppp r.2 := by
  unfold gexprCostLowerBound
  split
  · next bound hfind => exact .some ⟨hcaches, hcaches.ppartialplancostmap _ _ hfind⟩
  · refine (costCompute_below hcosts hknown hlower hcaches).map fun r hr => ?_
    exact ⟨hr.1.insertPartialPlan hr.2.1 hr.2.2, hr.2⟩

end Gexpr

/-- A plan costs at least what its children cost. -/
theorem le_costOver {fParallelUnionAll : Bool} {costLocal : CCost} {pdCost : List CCost}
    (hlocal : costLocal.Plain useMaxCosting) (h : ∀ c ∈ pdCost, c.Plain useMaxCosting)
    {c : CCost} (hc : c ∈ pdCost) :
    c.dCost ≤ (costOver useMaxCosting fParallelUnionAll costLocal pdCost).dCost := by
  unfold costOver
  split
  · exact (((BOSSCostModel.costMaxChild_plain h).2 _).1 le_rfl).2 c hc
  · rw [if_neg (by simpa using List.ne_nil_of_mem hc)]
    obtain ⟨hplain, hcost⟩ := BOSSCostModel.costChildren_plain h
    rw [CCost.dCost_add_plain hlocal hplain, hcost]
    have hsum : c.dCost ≤ (pdCost.map CCost.dCost).sum := by
      refine List.single_le_sum (fun x hx => ?_) _ (List.mem_map_of_mem hc)
      obtain ⟨c', hc', rfl⟩ := List.mem_map.1 hx
      exact (h c' hc').dCost_nonneg
    linarith [hlocal.dCost_nonneg]

/-- A bound of all expressions of a group but the enforcers bounds the group: below the enforcers
    on top of a plan there is a plan of the group for at least the same columns. -/
theorem belowGroup_of_gexprs (hcosts : space.Monotone useMaxCosting costs) {pgroup : ℕ}
    {pcrs : Finset ℕ} {bound : CCost}
    (h : ∀ pgexpr ∈ space.gexprs pgroup, space.fEnforcer pgexpr = false →
      space.BelowPartial useMaxCosting costs ⟨pgexpr, pcrs, none, none⟩ bound) :
    space.BelowGroup useMaxCosting costs pgroup pcrs bound := by
  intro plan
  induction plan using Plan.induction with
  | node alt children ih =>
    intro poc hgroup hpcrs hplan
    have hmem := space.mem_gexprs poc alt hplan.1.1
    rw [hgroup] at hmem
    cases henf : space.fEnforcer alt.pgexpr with
    | false => exact h alt.pgexpr hmem henf poc alt children ⟨rfl, hpcrs, by simp, hplan, by simp⟩
    | true =>
      obtain ⟨⟨halt, -⟩, hall⟩ := hplan
      have hchild := space.pgroup_pdrgpoc poc alt halt
      rw [space.children_enforcer pgroup alt.pgexpr hmem henf] at hchild
      obtain ⟨q, hq, hqgroup⟩ := List.map_eq_singleton_iff.1 hchild
      rw [Plan.assembledAll_iff, hq] at hall
      cases hall with
      | cons hplan hnil =>
        next child rest =>
        cases hnil
        have hcols := space.pcrs_enforcer poc alt halt henf q (by simp [hq])
        refine (ih child (by simp) q hqgroup (hpcrs.trans hcols) hplan).trans ?_
        rw [Plan.cost, hq]
        refine le_costOver (hcosts.costLocal _ _ _) (fun c hc => ?_) (by simp [Plan.costAll])
        obtain ⟨poc', plan, -, rfl⟩ := Plan.mem_costAll hc
        exact hcosts.cost_plain plan poc'

/-- **The bound of a group** is computed, and it is not above the cost of any complete plan of the
    group under a request of at least the columns it is asked for. -/
theorem groupCostLowerBound_below [DecidableEq Poc] (hcosts : space.Monotone useMaxCosting costs)
    (fuel : ℕ) : ∀ pgroup, space.rank pgroup < fuel →
      space.BoundsGroup useMaxCosting costs
        (space.groupCostLowerBound useMaxCosting costs fuel) pgroup := by
  induction fuel with
  | zero => exact fun _ h => absurd h (Nat.not_lt_zero _)
  | succ fuel ih =>
    intro pgroup hrank caches pcrs hcaches
    rw [groupCostLowerBound]
    split
    · next bound hfind => exact .some ⟨hcaches, hcaches.pcostmap _ _ _ hfind⟩
    -- the loop over the expressions: the least bound so far is below those that have been visited
    let inv (done : List ℕ) (acc : CostCaches Poc × CCost) : Prop :=
      space.CachesBelow useMaxCosting costs acc.1 ∧ acc.2.Plain useMaxCosting ∧
        ∀ pgexpr ∈ done, space.fEnforcer pgexpr = false →
          space.BelowPartial useMaxCosting costs ⟨pgexpr, pcrs, none, none⟩ acc.2
    have hloop : Ensures ((space.gexprs pgroup).foldlM
        (space.gexprStep useMaxCosting costs (space.groupCostLowerBound useMaxCosting costs fuel)
          pcrs) (caches, .infiniteCost)) (inv (space.gexprs pgroup)) := by
      refine Ensures.foldlM (fun done pgexpr hmem acc hacc => ?_) _
        ⟨hcaches, CCost.ofDouble_plain (by positivity), by simp⟩
      obtain ⟨hcaches', hplain, hdone⟩ := hacc
      unfold gexprStep
      split
      · next henf =>
        refine .some ⟨hcaches', hplain, fun e he hne => ?_⟩
        rcases List.mem_append.1 he with he | he
        · exact hdone e he hne
        · rw [List.mem_singleton.1 he, henf] at hne
          cases hne
      · next henf =>
        have henf : space.fEnforcer pgexpr = false := by simpa using henf
        have hlower : ∀ child ∈ space.children pgexpr, space.BoundsGroup useMaxCosting costs
            (space.groupCostLowerBound useMaxCosting costs fuel) child := by
          intro child hchild
          have := space.rank_children pgroup pgexpr hmem henf child hchild
          exact ih child (by omega)
        refine (gexprCostLowerBound_below hcosts (by simp) hlower hcaches').map fun r hr => ?_
        obtain ⟨hcaches'', hplain', hbelow⟩ := hr
        refine ⟨hcaches'', ?_, fun e he hne => ?_⟩
        · simp only
          split
          · exact hplain'
          · exact hplain
        · intro poc alt children hc
          simp only
          split
          · next hlt =>
            have hlt := (CCost.lt_iff_plain hplain' hplain).1 hlt
            rcases List.mem_append.1 he with he | he
            · exact hlt.le.trans (hdone e he hne poc alt children hc)
            · obtain rfl := List.mem_singleton.1 he
              exact hbelow poc alt children hc
          · next hge =>
            have hge := not_lt.1 fun h => hge ((CCost.lt_iff_plain hplain' hplain).2 h)
            rcases List.mem_append.1 he with he | he
            · exact hdone e he hne poc alt children hc
            · obtain rfl := List.mem_singleton.1 he
              exact hge.trans (hbelow poc alt children hc)
    refine hloop.map fun r hr => ?_
    have hbelow := belowGroup_of_gexprs hcosts hr.2.2
    exact ⟨hr.1.insertGroup hr.2.1 hbelow, hr.2.1, hbelow⟩

end SearchSpace

end BossOptimizer

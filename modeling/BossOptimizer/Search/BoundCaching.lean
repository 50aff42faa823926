import BossOptimizer.Cost.CostOrder
import BossOptimizer.EngineProperty.CDistributionSpec
import BossOptimizer.Lib.Memo
import BossOptimizer.Search.CostBound

/-!
# Are cached lower bounds transparent?

The two `CostLowerBound` functions with whole requests: a cache finds a bound by any request that
`FEqualForCostBounding` identifies with the one it was stored under. The cost model is an arbitrary
function of what a partial plan passes to it, and its costs may be tagged with any engines.

What a cache stores is made from `CCost::Get`, and `CCost(CDouble)` tags it `EetAny`. A group drops
every bound that is tagged otherwise (`operator<` against the infinite cost gives up on the engine
under `useMaxCosting`), so its bound is the stored one. The bound of an expression may be tagged.
-/

namespace BossOptimizer

/-! ## Requests -/

/-- `EDistributionMatching` (CEnfdDistribution.h:39). -/
inductive EDistributionMatching where
  | edmExact | edmSatisfy | edmSubset
  deriving DecidableEq

structure CEnfdDistribution (Pds : Type) where
  edm : EDistributionMatching
  pdsRequired : Pds

/-- The distribution specs that can be required, with their `Equals` and `Edpt`. Specs that are
    equal have the same class, and so the same `Edpt`. -/
structure DistributionSpecs (Pds : Type) where
  equals : Pds → Pds → Bool
  edpt : Pds → EDistributionPartitioningType
  equivalence : Equivalence fun pds pds' => equals pds pds' = true
  edpt_eq : ∀ pds pds', equals pds pds' = true → edpt pds = edpt pds'

/-- `CReqdPropPlan`: required columns, required distribution, and the other properties. -/
structure CReqdPropPlan (Pds Rest : Type) where
  pcrsRequired : Finset ℕ
  ped : Option (CEnfdDistribution Pds)
  rest : Option Rest

variable {Poc Pds Rest : Type}

/-- `CEnfdDistribution::Matches` (CEnfdDistribution.h:84). -/
def CEnfdDistribution.matches (specs : DistributionSpecs Pds) (this ped : CEnfdDistribution Pds) :
    Bool :=
  this.edm = ped.edm && specs.equals this.pdsRequired ped.pdsRequired

/-- `FEqualForCostBounding` (CReqdPropPlan.cpp:680). -/
def fEqualForCostBounding (specs : DistributionSpecs Pds)
    (prppFst prppSnd : CReqdPropPlan Pds Rest) : Bool :=
  match prppFst.ped, prppSnd.ped with
  | some pedFst, some pedSnd =>
    prppFst.pcrsRequired = prppSnd.pcrsRequired && pedFst.matches specs pedSnd
  | none, none => prppFst.pcrsRequired = prppSnd.pcrsRequired
  | _, _ => false

/-- `CPartialPlan` (CPartialPlan.h:42). -/
structure CPartialPlan (Poc Pds Rest : Type) where
  pgexpr : ℕ
  prpp : CReqdPropPlan Pds Rest
  child : Option (KnownChild Poc)

/-- `CPartialPlan::Equals` (CPartialPlan.cpp:300). -/
def CPartialPlan.equals [DecidableEq Poc] (specs : DistributionSpecs Pds)
    (pppFst pppSnd : CPartialPlan Poc Pds Rest) : Bool :=
  pppFst.child = pppSnd.child && (pppFst.pgexpr = pppSnd.pgexpr &&
    fEqualForCostBounding specs pppFst.prpp pppSnd.prpp)

/-- `ICostModel::Cost` of a partial plan: the costing info has the rows, which depend on `Edpt`,
    the widths, which depend on the required columns, what is known of a child, and the costs of
    the children. -/
abbrev PartialPlanCost (Poc : Type) :=
  ℕ → Finset ℕ → Option EDistributionPartitioningType → Option (KnownChild Poc) → List CCost → CCost

/-- `m_pcostmap` of the groups and `m_ppartialplancostmap` of the expressions. -/
structure BoundCaches (Poc Pds Rest : Type) where
  pcostmap : ℕ → CReqdPropPlan Pds Rest → Option CCost
  ppartialplancostmap : CPartialPlan Poc Pds Rest → Option CCost

/-! ## The bounds -/

namespace BoundCaches

def empty : BoundCaches Poc Pds Rest := ⟨fun _ _ => none, fun _ => none⟩

/-- The entry is made from `CCost::Get`. -/
def insertGroup (specs : DistributionSpecs Pds) (caches : BoundCaches Poc Pds Rest) (pgroup : ℕ)
    (prpp : CReqdPropPlan Pds Rest) (cost : CCost) : BoundCaches Poc Pds Rest :=
  let entries :=
    insertNew (fEqualForCostBounding specs) (caches.pcostmap pgroup) prpp (.ofDouble cost.dCost)
  { caches with pcostmap := Function.update caches.pcostmap pgroup entries }

def insertPartialPlan [DecidableEq Poc] (specs : DistributionSpecs Pds)
    (caches : BoundCaches Poc Pds Rest) (ppp : CPartialPlan Poc Pds Rest) (cost : CCost) :
    BoundCaches Poc Pds Rest :=
  let entries :=
    insertNew (CPartialPlan.equals specs) caches.ppartialplancostmap ppp (.ofDouble cost.dCost)
  { caches with ppartialplancostmap := entries }

end BoundCaches

namespace CPartialPlan

variable [DecidableEq Poc] (space : SearchSpace Poc) (useMaxCosting : Bool)
  (specs : DistributionSpecs Pds) (pcm : PartialPlanCost Poc)

section Bounds

-- `CGroup::CostLowerBound`, as its callers see it
variable (costLowerBound : BoundCaches Poc Pds Rest → ℕ → CReqdPropPlan Pds Rest →
  Option (BoundCaches Poc Pds Rest × CCost))

omit [DecidableEq Poc] in
/-- One child in the loop of `ExtractChildrenCostingInfo` (CPartialPlan.cpp:74). The request of a
    child carries columns only. -/
def extractChildCost (ppp : CPartialPlan Poc Pds Rest)
    (acc : BoundCaches Poc Pds Rest × List CCost) (child : ℕ × ℕ) :
    Option (BoundCaches Poc Pds Rest × List CCost) :=
  match ppp.child.filter (·.ulChildIndex = child.2) with
  | some known => some (acc.1, acc.2 ++ [known.pccChild.cost])
  | none =>
    (costLowerBound acc.1 child.1
      ⟨space.reqdCols ppp.pgexpr ppp.prpp.pcrsRequired child.2, none, none⟩).map fun r =>
        (r.1, acc.2 ++ [r.2])

/-- The loop of `ExtractChildrenCostingInfo`. -/
def extractChildrenCosts (caches : BoundCaches Poc Pds Rest) (ppp : CPartialPlan Poc Pds Rest) :
    Option (BoundCaches Poc Pds Rest × List CCost) :=
  (space.children ppp.pgexpr).zipIdx.foldlM (extractChildCost space costLowerBound ppp) (caches, [])

/-- What the cost model says. -/
def modelCost (ppp : CPartialPlan Poc Pds Rest) (pdCost : List CCost) : CCost :=
  pcm ppp.pgexpr ppp.prpp.pcrsRequired (ppp.prpp.ped.map fun ped => specs.edpt ped.pdsRequired)
    ppp.child pdCost

/-- The constant 1.0 of cost models is taken off. -/
def withoutConstant (pdCost : List CCost) (cost : CCost) : CCost :=
  if !pdCost.isEmpty && 1 < cost.dCost then .ofDouble (cost.dCost - 1) else cost

/-- `CPartialPlan::CostCompute` (CPartialPlan.cpp:176). -/
def costCompute (caches : BoundCaches Poc Pds Rest) (ppp : CPartialPlan Poc Pds Rest) :
    Option (BoundCaches Poc Pds Rest × CCost) :=
  (extractChildrenCosts space costLowerBound caches ppp).map fun r =>
    (r.1, withoutConstant r.2 (modelCost specs pcm ppp r.2))

/-- `CGroupExpression::CostLowerBound` (CGroupExpression.cpp:492). -/
def gexprCostLowerBound (caches : BoundCaches Poc Pds Rest) (ppp : CPartialPlan Poc Pds Rest) :
    Option (BoundCaches Poc Pds Rest × CCost) :=
  match caches.ppartialplancostmap ppp with
  | some cost => some (caches, cost)
  | none => (costCompute space specs pcm costLowerBound caches ppp).map fun r =>
      (r.1.insertPartialPlan specs ppp r.2, r.2)

/-- One expression in the loop of `CGroup::CostLowerBound`. -/
def gexprStep (prpp : CReqdPropPlan Pds Rest) (acc : BoundCaches Poc Pds Rest × CCost)
    (pgexpr : ℕ) : Option (BoundCaches Poc Pds Rest × CCost) :=
  if space.fEnforcer pgexpr then some acc
  else (gexprCostLowerBound space specs pcm costLowerBound acc.1 ⟨pgexpr, prpp, none⟩).map fun r =>
    (r.1, if CCost.lt useMaxCosting r.2 acc.2 then r.2 else acc.2)

end Bounds

/-- `CGroup::CostLowerBound` (CGroup.cpp:2031). -/
def groupCostLowerBound : ℕ → BoundCaches Poc Pds Rest → ℕ → CReqdPropPlan Pds Rest →
    Option (BoundCaches Poc Pds Rest × CCost)
  | 0, _, _, _ => none
  | fuel + 1, caches, pgroup, prpp =>
    match caches.pcostmap pgroup prpp with
    | some cost => some (caches, cost)
    | none =>
      ((space.gexprs pgroup).foldlM
        (gexprStep space useMaxCosting specs pcm (groupCostLowerBound fuel) prpp)
        (caches, .infiniteCost)).map fun r => (r.1.insertGroup specs pgroup prpp r.2, r.2)

end CPartialPlan

/-! ## Costs that compare the same -/

namespace CCost

/-- The costs have the same comparisons with every cost. -/
def SameComparisons (useMaxCosting : Bool) (c c' : CCost) : Prop :=
  ∀ x, x.Proper useMaxCosting → comparisons useMaxCosting c x = comparisons useMaxCosting c' x ∧
    comparisons useMaxCosting x c = comparisons useMaxCosting x c'

variable {useMaxCosting : Bool} {c acc : CCost}

theorem keys_eq_singleton_iff : c.engineCostMap.keys = [eetAny] ↔
    ∀ k, k ∈ c.engineCostMap.keys ↔ k = eetAny := by
  constructor
  · intro h k
    rw [h, List.mem_singleton]
  · intro h
    refine List.perm_singleton.1 ((List.perm_ext_iff_of_nodup c.nodup (List.nodup_singleton _)).2 ?_)
    intro k
    rw [h, List.mem_singleton]

theorem Plain.values_eq (h : c.Plain true) : c.values = (ofDouble c.dCost).values := by
  rw [values, h.eq_singleton]
  rfl

/-- A cost compares like the one that is stored for it if no other engine is in it. -/
theorem sameComparisons_stored_iff (hc : c.Proper useMaxCosting) :
    SameComparisons useMaxCosting c (.ofDouble c.dCost) ↔ c.Plain useMaxCosting := by
  constructor
  · intro h
    refine ⟨hc, fun hmode => ?_⟩
    subst hmode
    obtain ⟨hfst, hsnd⟩ := h c hc
    have hrefl : le true c c = true := le_max_iff.2 le_rfl
    have hle : le true (ofDouble c.dCost) c = true :=
      (congrArg (·.2.1) hfst).symm.trans hrefl
    have hge : le true c (ofDouble c.dCost) = true :=
      (congrArg (·.2.1) hsnd).symm.trans hrefl
    have hvalues : c.values = (ofDouble c.dCost).values :=
      le_antisymm (le_max_iff.1 hge) (le_max_iff.1 hle)
    refine keys_eq_singleton_iff.2 fun k => ?_
    rw [← not_iff_not, ← EngineCostMap.values_eq_bot_iff]
    have hk : c.engineCostMap.values k = (ofDouble c.dCost).engineCostMap.values k :=
      congrFun hvalues k
    rw [hk, EngineCostMap.values_eq_bot_iff]
    simp [ofDouble, ofEngine, EngineCostMap.keys]
  · intro h x _
    exact ⟨comparisons_congr (fun hmode => ⟨(hmode ▸ h : c.Plain true).values_eq, rfl⟩)
        fun _ => ⟨rfl, rfl⟩,
      comparisons_congr (fun hmode => ⟨rfl, (hmode ▸ h : c.Plain true).values_eq⟩)
        fun _ => ⟨rfl, rfl⟩⟩

/-- What is less than a cost without other engines has none either. -/
theorem plain_of_lt (hc : c.Proper useMaxCosting) (hacc : acc.Plain useMaxCosting)
    (h : lt useMaxCosting c acc = true) : c.Plain useMaxCosting := by
  refine ⟨hc, fun hmode => ?_⟩
  subst hmode
  obtain ⟨hle, k, hk, -⟩ := below_iff.1 (lt_max_iff.1 h)
  have hsub : ∀ k ∈ c.engineCostMap.keys, k = eetAny := by
    intro k hk
    by_contra hne
    have hbot : acc.values k = ⊥ := by
      refine EngineCostMap.values_eq_bot_iff.2 ?_
      rw [hacc.untagged rfl, List.mem_singleton]
      exact hne
    exact EngineCostMap.values_eq_bot_iff.1 (le_bot_iff.1 ((hle k).trans_eq hbot)) hk
  have hmem : k ∈ c.engineCostMap.keys := not_not.1 (mt EngineCostMap.values_eq_bot_iff.2 hk)
  refine keys_eq_singleton_iff.2 fun k' => ⟨hsub k', ?_⟩
  rintro rfl
  exact hsub k hmem ▸ hmem

end CCost

/-! ## Requests that are identified -/

section Requests

variable {specs : DistributionSpecs Pds}

theorem fEqualForCostBounding_iff {r r' : CReqdPropPlan Pds Rest} :
    fEqualForCostBounding specs r r' = true ↔ r.pcrsRequired = r'.pcrsRequired ∧
      (r.ped = none ∧ r'.ped = none ∨ ∃ ped ∈ r.ped, ∃ ped' ∈ r'.ped, ped.edm = ped'.edm ∧
        specs.equals ped.pdsRequired ped'.pdsRequired = true) := by
  unfold fEqualForCostBounding
  cases r.ped <;> cases r'.ped <;> simp [CEnfdDistribution.matches]

theorem fEqualForCostBounding_equivalence (specs : DistributionSpecs Pds) :
    Equivalence fun r r' : CReqdPropPlan Pds Rest => fEqualForCostBounding specs r r' = true where
  refl r := by
    refine fEqualForCostBounding_iff.2 ⟨rfl, ?_⟩
    cases hped : r.ped with
    | none => exact .inl ⟨rfl, rfl⟩
    | some ped => exact .inr ⟨ped, rfl, ped, rfl, rfl, specs.equivalence.refl _⟩
  symm h := by
    obtain ⟨hcols, hnone | ⟨ped, hped, ped', hped', hedm, heq⟩⟩ := fEqualForCostBounding_iff.1 h
    · exact fEqualForCostBounding_iff.2 ⟨hcols.symm, .inl hnone.symm⟩
    · exact fEqualForCostBounding_iff.2
        ⟨hcols.symm, .inr ⟨ped', hped', ped, hped, hedm.symm, specs.equivalence.symm heq⟩⟩
  trans {r r' r''} h h' := by
    obtain ⟨hcols, hdist⟩ := fEqualForCostBounding_iff.1 h
    obtain ⟨hcols', hdist'⟩ := fEqualForCostBounding_iff.1 h'
    refine fEqualForCostBounding_iff.2 ⟨hcols.trans hcols', ?_⟩
    rcases hdist with ⟨hnone, hnone'⟩ | ⟨ped, hped, ped', hped', hedm, heq⟩
    · rcases hdist' with ⟨-, hnone''⟩ | ⟨ped, hped, -⟩
      · exact .inl ⟨hnone, hnone''⟩
      · rw [hnone'] at hped
        cases hped
    · rcases hdist' with ⟨hnone, -⟩ | ⟨ped₁, hped₁, ped'', hped'', hedm', heq'⟩
      · rw [hnone] at hped'
        cases hped'
      · obtain rfl : ped' = ped₁ := Option.some.inj (hped'.symm.trans hped₁)
        exact .inr ⟨ped, hped, ped'', hped'', hedm.trans hedm', specs.equivalence.trans heq heq'⟩

variable [DecidableEq Poc]

theorem CPartialPlan.equals_iff {ppp ppp' : CPartialPlan Poc Pds Rest} :
    ppp.equals specs ppp' = true ↔ ppp.child = ppp'.child ∧ ppp.pgexpr = ppp'.pgexpr ∧
      fEqualForCostBounding specs ppp.prpp ppp'.prpp = true := by
  simp [CPartialPlan.equals]

theorem CPartialPlan.equals_equivalence (specs : DistributionSpecs Pds) :
    Equivalence fun ppp ppp' : CPartialPlan Poc Pds Rest => ppp.equals specs ppp' = true where
  refl ppp := equals_iff.2 ⟨rfl, rfl, (fEqualForCostBounding_equivalence specs).refl _⟩
  symm h := by
    obtain ⟨hchild, hpgexpr, heq⟩ := equals_iff.1 h
    exact equals_iff.2
      ⟨hchild.symm, hpgexpr.symm, (fEqualForCostBounding_equivalence specs).symm heq⟩
  trans h h' := by
    obtain ⟨hchild, hpgexpr, heq⟩ := equals_iff.1 h
    obtain ⟨hchild', hpgexpr', heq'⟩ := equals_iff.1 h'
    exact equals_iff.2 ⟨hchild.trans hchild', hpgexpr.trans hpgexpr',
      (fEqualForCostBounding_equivalence specs).trans heq heq'⟩

/-- The cost model sees no difference between identified requests. -/
theorem CPartialPlan.modelCost_congr (pcm : PartialPlanCost Poc) {ppp ppp' : CPartialPlan Poc Pds Rest}
    (h : ppp.equals specs ppp' = true) (pdCost : List CCost) :
    modelCost specs pcm ppp pdCost = modelCost specs pcm ppp' pdCost := by
  obtain ⟨hchild, hpgexpr, heq⟩ := equals_iff.1 h
  obtain ⟨hcols, hdist⟩ := fEqualForCostBounding_iff.1 heq
  have hedpt : (ppp.prpp.ped.map fun ped => specs.edpt ped.pdsRequired) =
      ppp'.prpp.ped.map fun ped => specs.edpt ped.pdsRequired := by
    rcases hdist with ⟨hnone, hnone'⟩ | ⟨ped, hped, ped', hped', -, hequal⟩
    · rw [hnone, hnone']
    · rw [show ppp.prpp.ped = some ped from hped, show ppp'.prpp.ped = some ped' from hped']
      exact congrArg some (specs.edpt_eq _ _ hequal)
  rw [modelCost, modelCost, hchild, hpgexpr, hcols, hedpt]

end Requests

end BossOptimizer

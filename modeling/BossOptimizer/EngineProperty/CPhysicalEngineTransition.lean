import BossOptimizer.EngineProperty.CDistributionSpec
import BossOptimizer.Registry.EngineTransforms

/-!
# The engine transition (CPhysicalEngineTransition.cpp)

The enforcer of the engine property. What it derives depends on three flags that the registry keeps
for the pair of engines; two transitions match when their target engines are equal.

A transition hands the distribution of its child on or replaces it by the singleton distribution,
so distribution specs are an arbitrary type with a singleton, and a required distribution is an
arbitrary value with its `FCompatible`.
-/

namespace BossOptimizer

/-- `COrderSpec::ENullTreatment`. -/
inductive ENullTreatment where
  | entAuto | entFirst | entLast
  deriving DecidableEq

/-- `COrderSpec::COrderExpression` (COrderSpec.h:67). -/
structure COrderExpression where
  mdid : ℕ
  pcr : ℕ
  ent : ENullTreatment
  deriving DecidableEq

/-- `COrderSpec`. -/
abbrev COrderSpec := List COrderExpression

/-- `COrderSpec::FSatisfies` (COrderSpec.cpp:181): the required order is a prefix. -/
def COrderSpec.fSatisfies : COrderSpec → COrderSpec → Bool
  | _, [] => true
  | [], _ :: _ => false
  | poe :: pos, poe' :: pos' => poe = poe' && COrderSpec.fSatisfies pos pos'

/-- `ERewindabilityType` (CRewindabilitySpec.h:66). -/
inductive ERewindabilityType where
  | ertMarkRestore | ertRewindable | ertRescannable | ertNone
  deriving DecidableEq

/-- `CRewindabilitySpec`, with whether there is a motion hazard. -/
structure CRewindabilitySpec where
  ert : ERewindabilityType
  emht : Bool
  deriving DecidableEq

/-- `CEngineSpec`. -/
structure CEngineSpec where
  eet : EEngineType
  deriving DecidableEq

/-- `CEngineSpec::FSatisfies` (CEngineSpec.cpp:15). -/
def CEngineSpec.fSatisfies (this pes : CEngineSpec) : Bool :=
  this.eet = pes.eet || pes.eet = eetAny

/-- The part of `CDrvdPropPlan` that a transition derives. -/
structure CDrvdPropPlan (Pds : Type) where
  pos : COrderSpec
  pds : Pds
  prs : CRewindabilitySpec
  pes : CEngineSpec
  deriving DecidableEq

/-- `CEnfdProp::EPropEnforcingType`. -/
inductive EPropEnforcingType where
  | epetRequired | epetOptional | epetProhibited | epetUnnecessary
  deriving DecidableEq

/-- `CPhysicalEngineTransition` (CPhysicalEngineTransition.hpp:28). -/
structure CPhysicalEngineTransition where
  pes : CEngineSpec
  preserveOrder : Bool
  preserveDistribution : Bool
  preserveRewindability : Bool
  deriving DecidableEq

namespace CPhysicalEngineTransition

variable {Pds Ped : Type}

/-- `Matches` (CPhysicalEngineTransition.cpp:12). -/
def «matches» (this pop : CPhysicalEngineTransition) : Bool := this.pes.eet = pop.pes.eet

/-- `PosDerive` (CPhysicalEngineTransition.hpp:109). -/
def posDerive (this : CPhysicalEngineTransition) (child : CDrvdPropPlan Pds) : COrderSpec :=
  if this.preserveOrder then child.pos else []

/-- `PdsDerive` (CPhysicalEngineTransition.hpp:118). -/
def pdsDerive (singleton : Pds) (this : CPhysicalEngineTransition) (child : CDrvdPropPlan Pds) :
    Pds :=
  if this.preserveDistribution then child.pds else singleton

/-- `PrsDerivePassThruOuter` (CPhysical.cpp:505). -/
def prsDerivePassThruOuter (child : CDrvdPropPlan Pds) : CRewindabilitySpec :=
  if child.prs.ert = .ertMarkRestore then ⟨.ertRewindable, child.prs.emht⟩ else child.prs

/-- `PrsDerive` (CPhysicalEngineTransition.cpp:90). -/
def prsDerive (this : CPhysicalEngineTransition) (child : CDrvdPropPlan Pds) :
    CRewindabilitySpec :=
  if this.preserveRewindability then prsDerivePassThruOuter child
  else ⟨.ertNone, child.prs.emht⟩

/-- `PesDerive` (CPhysicalEngineTransition.cpp:48). -/
def pesDerive (this : CPhysicalEngineTransition) : CEngineSpec := this.pes

/-- The properties of the transition over a child plan. -/
def pdpplan (singleton : Pds) (this : CPhysicalEngineTransition) (child : CDrvdPropPlan Pds) :
    CDrvdPropPlan Pds :=
  ⟨this.posDerive child, this.pdsDerive singleton child, this.prsDerive child, this.pesDerive⟩

/-- `EpetOrder` (CPhysicalEngineTransition.cpp:62). -/
def epetOrder (singleton : Pds) (this : CPhysicalEngineTransition) (child : CDrvdPropPlan Pds)
    (peo : COrderSpec) : EPropEnforcingType :=
  if (this.pdpplan singleton child).pos.fSatisfies peo then .epetUnnecessary else .epetRequired

/-- `EpetDistribution` (CPhysicalEngineTransition.cpp:75). -/
def epetDistribution (singleton : Pds) (fCompatible : Ped → Pds → Bool)
    (this : CPhysicalEngineTransition) (child : CDrvdPropPlan Pds) (ped : Ped) :
    EPropEnforcingType :=
  if fCompatible ped (this.pdpplan singleton child).pds then .epetUnnecessary else .epetRequired

/-- `EpetRewindability` (CBasePhysicalUnaryOp.cpp:136), which the transition inherits. -/
def epetRewindability (_this : CPhysicalEngineTransition) (_child : CDrvdPropPlan Pds)
    (_per : CRewindabilitySpec) : EPropEnforcingType := .epetUnnecessary

/-- `EpetEngine` (CPhysicalEngineTransition.cpp:23). -/
def epetEngine (this : CPhysicalEngineTransition) (_child : CDrvdPropPlan Pds)
    (pee : CEngineSpec) : EPropEnforcingType :=
  if this.pes.fSatisfies pee then .epetUnnecessary else .epetProhibited

/-! ## What matching transitions have in common -/

/-- Over the child plan both derive the same properties and answer every query alike. -/
structure SameOver (singleton : Pds) (fCompatible : Ped → Pds → Bool)
    (this pop : CPhysicalEngineTransition) (child : CDrvdPropPlan Pds) : Prop where
  pos : this.posDerive child = pop.posDerive child
  pds : this.pdsDerive singleton child = pop.pdsDerive singleton child
  prs : this.prsDerive child = pop.prsDerive child
  pes : this.pesDerive = pop.pesDerive
  order : ∀ peo, this.epetOrder singleton child peo = pop.epetOrder singleton child peo
  distribution : ∀ ped, this.epetDistribution singleton fCompatible child ped =
    pop.epetDistribution singleton fCompatible child ped
  rewindability : ∀ per, this.epetRewindability child per = pop.epetRewindability child per
  engine : ∀ pee, this.epetEngine child pee = pop.epetEngine child pee

/-- What a flag that differs leaves alike: plans that have nothing to preserve. -/
structure NothingToLose (singleton : Pds) (this pop : CPhysicalEngineTransition)
    (child : CDrvdPropPlan Pds) : Prop where
  order : this.preserveOrder = pop.preserveOrder ∨ child.pos = []
  distribution : this.preserveDistribution = pop.preserveDistribution ∨ child.pds = singleton
  rewindability : this.preserveRewindability = pop.preserveRewindability ∨
    child.prs.ert = .ertNone

variable {singleton : Pds} {fCompatible : Ped → Pds → Bool}
  {this pop : CPhysicalEngineTransition} {child : CDrvdPropPlan Pds}

theorem posDerive_eq_iff : this.posDerive child = pop.posDerive child ↔
    this.preserveOrder = pop.preserveOrder ∨ child.pos = [] := by
  unfold posDerive
  cases this.preserveOrder <;> cases pop.preserveOrder <;> simp [eq_comm]

theorem pdsDerive_eq_iff : this.pdsDerive singleton child = pop.pdsDerive singleton child ↔
    this.preserveDistribution = pop.preserveDistribution ∨ child.pds = singleton := by
  unfold pdsDerive
  cases this.preserveDistribution <;> cases pop.preserveDistribution <;> simp [eq_comm]

theorem prsDerivePassThruOuter_eq_iff :
    prsDerivePassThruOuter child = ⟨.ertNone, child.prs.emht⟩ ↔ child.prs.ert = .ertNone := by
  obtain ⟨pos, pds, ⟨ert, emht⟩, pes⟩ := child
  cases ert <;> simp [prsDerivePassThruOuter]

theorem prsDerive_eq_iff : this.prsDerive child = pop.prsDerive child ↔
    this.preserveRewindability = pop.preserveRewindability ∨ child.prs.ert = .ertNone := by
  unfold prsDerive
  cases this.preserveRewindability <;> cases pop.preserveRewindability
  · simp
  · simpa [eq_comm] using prsDerivePassThruOuter_eq_iff
  · simpa using prsDerivePassThruOuter_eq_iff
  · simp

/-- Over one child plan. -/
theorem sameOver_iff (h : this.matches pop) :
    SameOver singleton fCompatible this pop child ↔ NothingToLose singleton this pop child := by
  constructor
  · intro hsame
    exact ⟨posDerive_eq_iff.1 hsame.pos, pdsDerive_eq_iff.1 hsame.pds,
      prsDerive_eq_iff.1 hsame.prs⟩
  · intro hlose
    have hpos := posDerive_eq_iff.2 hlose.order
    have hpds := pdsDerive_eq_iff.2 hlose.distribution
    have hpes : this.pes = pop.pes := congrArg CEngineSpec.mk (of_decide_eq_true h)
    refine ⟨hpos, hpds, prsDerive_eq_iff.2 hlose.rewindability, hpes, fun peo => ?_,
      fun ped => ?_, fun _ => rfl, fun pee => ?_⟩
    · exact congrArg (fun pos : COrderSpec =>
        if pos.fSatisfies peo then EPropEnforcingType.epetUnnecessary else .epetRequired) hpos
    · exact congrArg (fun pds : Pds =>
        if fCompatible ped pds then EPropEnforcingType.epetUnnecessary else .epetRequired) hpds
    · rw [epetEngine, epetEngine, hpes]

/-- **Matching transitions** are interchangeable over every child plan exactly when their three
    flags are equal. -/
theorem sameOver_all_iff [Nontrivial Pds] (singleton : Pds) (fCompatible : Ped → Pds → Bool)
    (this pop : CPhysicalEngineTransition) (h : this.matches pop) :
    (∀ child, SameOver singleton fCompatible this pop child) ↔
      this.preserveOrder = pop.preserveOrder ∧
        this.preserveDistribution = pop.preserveDistribution ∧
        this.preserveRewindability = pop.preserveRewindability := by
  constructor
  · intro hsame
    obtain ⟨other, hother⟩ := exists_ne singleton
    -- a plan with something to lose in each of the three properties
    have hlose := (sameOver_iff h).1 (hsame
      ⟨[⟨0, 0, .entAuto⟩], other, ⟨.ertRewindable, false⟩, ⟨eetGP⟩⟩)
    refine ⟨?_, ?_, ?_⟩
    · simpa using hlose.order
    · simpa [hother] using hlose.distribution
    · simpa using hlose.rewindability
  · rintro ⟨horder, hdistribution, hrewindability⟩ child
    exact (sameOver_iff h).2 ⟨.inl horder, .inl hdistribution, .inl hrewindability⟩

section Examples

/-- One registers that order is preserved, the other that it is not. -/
def sorted : CPhysicalEngineTransition := ⟨⟨3⟩, true, false, false⟩

def unsorted : CPhysicalEngineTransition := ⟨⟨3⟩, false, false, false⟩

/-- They match, and over a sorted child one needs a sort on top and the other does not. -/
theorem sameOver_sorted_unsorted :
    let child : CDrvdPropPlan EDistributionType :=
      ⟨[⟨1, 2, .entLast⟩], .edtHashed, ⟨.ertNone, false⟩, ⟨eetGP⟩⟩
    sorted.matches unsorted = true ∧
      sorted.posDerive child ≠ unsorted.posDerive child ∧
      sorted.epetOrder .edtSingleton child child.pos = .epetUnnecessary ∧
      unsorted.epetOrder .edtSingleton child child.pos = .epetRequired := by
  decide

/-- Transitions from two engines with the same flags. -/
theorem sameOver_all_iff_sorted :
    SameOver EDistributionType.edtSingleton (fun _ : Unit => fun _ => true) sorted
      ⟨⟨3⟩, true, false, false⟩
      ⟨[⟨1, 2, .entLast⟩], .edtHashed, ⟨.ertNone, false⟩, ⟨eetGP⟩⟩ :=
  have : Nontrivial EDistributionType := ⟨.edtHashed, .edtAny, by decide⟩
  (sameOver_all_iff _ _ sorted ⟨⟨3⟩, true, false, false⟩ (by decide)).2 (by decide) _

end Examples

end CPhysicalEngineTransition

end BossOptimizer

import BossOptimizer.EngineProperty.CDistributionSpec
import BossOptimizer.Lib.Leaders
import BossOptimizer.Search.CostContext
import Mathlib.Data.Prod.Lex

/-!
# Is `FBetterThan` a strict order?

The contexts of one optimization context are compared by cost, then by distribution, then by join
depth or by streaming. A context that was pruned by a cost bound has no plan properties and no
child contexts, so a tie with it reads a null pointer.

The join rule looks at the depths of its left side only: `BreakCostTiesForJoinPlans` prefers the
second plan whenever the inner side of the first one is not the shallower one, and the first plan
whatever the second one is like.
-/

namespace BossOptimizer

/-! ## What a plan root is -/

/-- `EAggStage` (CLogicalGbAgg.h:54). -/
inductive EAggStage where
  | easTwoStageScalarDQA | easThreeStageScalarDQA | easOthers
  deriving DecidableEq

/-- The operators that `FBetterThan` tells apart. -/
inductive PlanOp where
  | agg (isAggFromSplitDQA : Bool) (aggStage : EAggStage)
  | join (estimates : JoinEstimates)
  | spool (fEager : Bool)
  | other
  deriving DecidableEq

/-- What is read of a plan with this root, distribution and request. -/
def PlanTraits.of (op : PlanOp) (edt : EDistributionType) (fMotionHazard : Bool) : PlanTraits where
  fPhysicalAgg := match op with
    | .agg .. => true
    | _ => false
  fTwoStageScalarDQA := match op with
    | .agg isAggFromSplitDQA aggStage =>
      isAggFromSplitDQA && aggStage = .easTwoStageScalarDQA
    | _ => false
  fThreeStageScalarDQA := match op with
    | .agg isAggFromSplitDQA aggStage =>
      isAggFromSplitDQA && aggStage = .easThreeStageScalarDQA
    | _ => false
  fPartitioned := edt.edpt = .edptPartitioned
  fHashed := edt = .edtHashed
  fRandom := edt = .edtRandom
  join := match op with
    | .join estimates => some estimates
    | _ => none
  spool := match op with
    | .spool fEager => some fEager
    | _ => none
  fMotionHazard := fMotionHazard

/-- A cost context, or one that was pruned: its properties and the rows of its children are not
    there. -/
structure AnyContext (Poc : Type) extends CCostContext Poc where
  fPruned : Bool
  deriving DecidableEq

variable {Poc : Type}

/-- The context has a plan for a request with this motion hazard. -/
def AnyContext.Belongs (fMotionHazard : Bool) (c : AnyContext Poc) : Prop :=
  ∃ op edt, c.traits = .of op edt fMotionHazard

section Model

variable (useMaxCosting forceThreeStageScalarDQA : Bool)

/-- The trace flag puts this three-stage aggregate before that two-stage one. -/
def forced (this pcc : PlanTraits) : Bool :=
  forceThreeStageScalarDQA && this.fPhysicalAgg && pcc.fPhysicalAgg &&
    this.fThreeStageScalarDQA && pcc.fTwoStageScalarDQA

/-- Costs less, or the same with a smaller sum under `useMaxCosting`. -/
def CostsLess (c c' : CCost) : Prop :=
  c.dCost < c'.dCost ∨ c.dCost = c'.dCost ∧ useMaxCosting = true ∧ c.costSum < c'.costSum

def CostsSame (c c' : CCost) : Prop :=
  c.dCost = c'.dCost ∧ (useMaxCosting = true → c.costSum = c'.costSum)

instance (c c' : CCost) : Decidable (CostsLess useMaxCosting c c') :=
  inferInstanceAs (Decidable (_ ∨ _))

instance (c c' : CCost) : Decidable (CostsSame useMaxCosting c c') :=
  inferInstanceAs (Decidable (_ ∧ _))

/-- The comparison goes on to the rules for equal costs. -/
def tied (this pcc : AnyContext Poc) : Bool :=
  !forced forceThreeStageScalarDQA this.traits pcc.traits &&
    !forced forceThreeStageScalarDQA pcc.traits this.traits &&
    decide (CostsSame useMaxCosting this.cost pcc.cost)

/-- The rules read the plan properties of the first context, of the second one if the first is
    partitioned or hashed, and the rows of the second join if those of the first one are equal. -/
def readsNull (this pcc : AnyContext Poc) : Bool :=
  this.fPruned || pcc.fPruned && (this.traits.fPartitioned || this.traits.fHashed ||
    pcc.traits.join.isSome && this.traits.join.any fun est => est.dRowsOuter = est.dRowsInner)

/-- `FBetterThan` (CCostContext.cpp:404) of contexts that may be pruned, `none` for a null
    pointer that is read. -/
def fBetterThanOrNull (this pcc : AnyContext Poc) : Option Bool :=
  if tied useMaxCosting forceThreeStageScalarDQA this pcc && readsNull this pcc then none
  else some (fBetterThan useMaxCosting forceThreeStageScalarDQA this.toCCostContext
    pcc.toCCostContext)

/-- The contexts with a computed cost. -/
def costed (contexts : List (AnyContext Poc)) : List (CCostContext Poc) :=
  (contexts.filter (!·.fPruned)).map (·.toCCostContext)

/-- The best context after these have been costed, in this order. -/
def keptOf [DecidableEq Poc] (order : List (CCostContext Poc)) : Option (CCostContext Poc) :=
  (order.foldl (computeCost useMaxCosting forceThreeStageScalarDQA) ⟨none, []⟩).pccBest

end Model

/-! ## The comparison in terms of costs and rules -/

/-- Rules 1 and 2: partitioned before not partitioned, hashed before random. -/
def BetterDistributed (t t' : PlanTraits) : Prop :=
  t.fPartitioned = true ∧ t'.fPartitioned = false ∨ t.fHashed = true ∧ t'.fRandom = true

/-- A streaming spool against an eager one, and the request has no motion hazard. -/
def Streams (t t' : PlanTraits) : Prop :=
  t.spool = some false ∧ t'.spool = some true ∧ t'.fMotionHazard = false

/-- A join over children with the same rows whose inner side is the shallower one. -/
def ShallowInner (t : PlanTraits) : Prop :=
  ∃ est ∈ t.join, est.dRowsOuter = est.dRowsInner ∧ est.ulInnerJoinDepth < est.ulOuterJoinDepth

/-- Partitioned, but neither hashed nor random. -/
def OtherPartitioned (t : PlanTraits) : Prop :=
  t.fPartitioned = true ∧ t.fHashed = false ∧ t.fRandom = false

def ThreeStage (t : PlanTraits) : Prop :=
  t.fPhysicalAgg = true ∧ t.fThreeStageScalarDQA = true

def TwoStage (t : PlanTraits) : Prop := t.fPhysicalAgg = true ∧ t.fTwoStageScalarDQA = true

/-- Ahead by cost, by distribution or by streaming. -/
def Ahead (useMaxCosting : Bool) (a b : CCostContext Poc) : Prop :=
  CostsLess useMaxCosting a.cost b.cost ∨ CostsSame useMaxCosting a.cost b.cost ∧
    (BetterDistributed a.traits b.traits ∨ Streams a.traits b.traits)

/-- Ahead, or put before by the trace flag. -/
def Precedes (useMaxCosting forceThreeStageScalarDQA : Bool) (a b : CCostContext Poc) : Prop :=
  forced forceThreeStageScalarDQA a.traits b.traits = true ∨
    forced forceThreeStageScalarDQA b.traits a.traits = false ∧ Ahead useMaxCosting a b

/-- What one operator, one distribution and one request can be like. -/
structure PlanTraits.Coherent (t : PlanTraits) : Prop where
  hashed : t.fHashed = true → t.fPartitioned = true ∧ t.fRandom = false
  random : t.fRandom = true → t.fPartitioned = true
  stages : t.fTwoStageScalarDQA = true → t.fThreeStageScalarDQA = false
  spool : t.spool.isSome = true → t.fPhysicalAgg = false ∧ t.join = none

theorem PlanTraits.of_coherent (op : PlanOp) (edt : EDistributionType) (fMotionHazard : Bool) :
    (PlanTraits.of op edt fMotionHazard).Coherent where
  hashed h := by
    obtain rfl : edt = .edtHashed := by simpa [of] using h
    exact ⟨rfl, rfl⟩
  random h := by
    obtain rfl : edt = .edtRandom := by simpa [of] using h
    rfl
  stages h := by
    cases op with
    | agg isAggFromSplitDQA aggStage =>
      obtain ⟨-, rfl⟩ : isAggFromSplitDQA = true ∧ aggStage = .easTwoStageScalarDQA := by
        simpa [of] using h
      simp [of]
    | join | spool | other => rfl
  spool h := by
    cases op with
    | spool => exact ⟨rfl, rfl⟩
    | agg | join | other => cases h

theorem AnyContext.Belongs.coherent {fMotionHazard : Bool} {c : AnyContext Poc}
    (h : c.Belongs fMotionHazard) : c.traits.Coherent := by
  obtain ⟨op, edt, htraits⟩ := h
  exact htraits ▸ PlanTraits.of_coherent op edt fMotionHazard

variable {useMaxCosting forceThreeStageScalarDQA : Bool}

theorem forced_iff {t t' : PlanTraits} : forced forceThreeStageScalarDQA t t' = true ↔
    forceThreeStageScalarDQA = true ∧ ThreeStage t ∧ TwoStage t' := by
  simp only [forced, ThreeStage, TwoStage, Bool.and_eq_true]
  tauto

theorem PlanTraits.Coherent.not_both_stages {t : PlanTraits} (ht : t.Coherent) (hthree : ThreeStage t) :
    ¬TwoStage t := fun htwo => Bool.false_ne_true ((ht.stages htwo.2).symm.trans hthree.2)

/-- The trace flag does not put two contexts before each other. -/
theorem forced_asymm {t t' : PlanTraits} (ht : t.Coherent)
    (h : forced forceThreeStageScalarDQA t t' = true) :
    forced forceThreeStageScalarDQA t' t = false := by
  refine Bool.eq_false_iff.2 fun h' => ?_
  exact ht.not_both_stages (forced_iff.1 h).2.1 (forced_iff.1 h').2.2

theorem forced_eq_false {t t' : PlanTraits} (h : ¬ThreeStage t ∨ ¬TwoStage t') :
    forced forceThreeStageScalarDQA t t' = false :=
  Bool.eq_false_iff.2 fun hforced =>
    h.elim (· (forced_iff.1 hforced).2.1) (· (forced_iff.1 hforced).2.2)

theorem PlanTraits.Coherent.not_stage {t : PlanTraits} (ht : t.Coherent)
    (hspool : t.spool.isSome = true) : ¬ThreeStage t ∧ ¬TwoStage t := by
  have hagg := (ht.spool hspool).1
  constructor
  · rintro ⟨h, -⟩
    exact Bool.false_ne_true (hagg.symm.trans h)
  · rintro ⟨h, -⟩
    exact Bool.false_ne_true (hagg.symm.trans h)

/-- `FBetterThan` is decided by the trace flag, then by costs, then by the rules for ties. -/
theorem fBetterThan_iff {a b : CCostContext Poc} (ha : a.traits.Coherent) :
    fBetterThan useMaxCosting forceThreeStageScalarDQA a b = true ↔
      forced forceThreeStageScalarDQA a.traits b.traits = true ∨
        forced forceThreeStageScalarDQA b.traits a.traits = false ∧
          (CostsLess useMaxCosting a.cost b.cost ∨ CostsSame useMaxCosting a.cost b.cost ∧
            breakTies a.traits b.traits = true) := by
  have hfst : (forceThreeStageScalarDQA && a.traits.fPhysicalAgg && b.traits.fPhysicalAgg &&
      a.traits.fTwoStageScalarDQA && b.traits.fThreeStageScalarDQA) =
        forced forceThreeStageScalarDQA b.traits a.traits := by
    unfold forced
    ac_rfl
  have hsnd : (forceThreeStageScalarDQA && a.traits.fPhysicalAgg && b.traits.fPhysicalAgg &&
      a.traits.fThreeStageScalarDQA && b.traits.fTwoStageScalarDQA) =
        forced forceThreeStageScalarDQA a.traits b.traits := rfl
  rw [fBetterThan, hfst, hsnd]
  cases hab : forced forceThreeStageScalarDQA a.traits b.traits with
  | true => simp [forced_asymm ha hab]
  | false =>
    cases hba : forced forceThreeStageScalarDQA b.traits a.traits with
    | true => simp
    | false =>
      simp only [Bool.false_eq_true, if_false, false_or, true_and, sub_neg, gt_iff_lt, sub_pos,
        CostsLess, CostsSame]
      rcases lt_trichotomy a.cost.dCost b.cost.dCost with hlt | heq | hgt
      · simp [hlt]
      · cases useMaxCosting with
        | false => simp [heq]
        | true =>
          rcases lt_trichotomy a.cost.costSum b.cost.costSum with hlt | heq' | hgt
          · simp only [CCost.costSum_eq] at hlt
            simp [heq, hlt]
          · simp only [CCost.costSum_eq] at heq'
            simp [heq, heq']
          · simp only [CCost.costSum_eq] at hgt
            simp [heq, hgt, hgt.not_gt, hgt.ne']
      · simp [hgt, hgt.not_gt, hgt.ne']

/-- Without the join rule a tie is broken by distribution or by streaming. -/
theorem breakTies_iff {t t' : PlanTraits} (ht : t.Coherent) (hjoin : ¬ShallowInner t) :
    breakTies t t' = true ↔ BetterDistributed t t' ∨ Streams t t' := by
  unfold breakTies
  by_cases hpart : t.fPartitioned = true ∧ t'.fPartitioned = false
  · simp [hpart, BetterDistributed]
  by_cases hhash : t.fHashed = true ∧ t'.fRandom = true
  · simp [hhash, BetterDistributed]
  have hdist : ¬BetterDistributed t t' := fun h => h.elim hpart hhash
  rw [if_neg (by simpa using hpart), if_neg (by simpa using hhash), or_iff_right hdist]
  cases hest : t.join with
  | some est =>
    -- a join is no spool, and its own depths do not prefer it
    have hspool : t.spool = none := by
      rw [Option.eq_none_iff_forall_ne_some]
      intro fEager h
      have hnone := (ht.spool (by simp [h])).2
      rw [hest] at hnone
      cases hnone
    have hdepth : est.dRowsOuter = est.dRowsInner → est.ulOuterJoinDepth ≤ est.ulInnerJoinDepth :=
      fun hrows => not_lt.1 fun hlt => hjoin ⟨est, hest, hrows, hlt⟩
    simp only [Streams, hspool, reduceCtorEq, false_and, iff_false]
    cases t'.join with
    | none => cases t'.spool <;> simp
    | some est' =>
      simp only [Option.bind_eq_bind, Option.bind_some, breakCostTiesForJoinPlans]
      split <;> rename_i heq
      · split at heq
        · cases heq
        · split at heq
          · cases heq
          · split at heq
            · cases heq
            · next hrows _ _ =>
              obtain rfl := Option.some.inj heq
              simpa using hdepth (not_not.1 hrows)
      · cases t'.spool <;> simp
  | none =>
    cases hfst : t.spool <;> cases hsnd : t'.spool <;> simp [Streams, hfst, hsnd]
    tauto

/-- A join with the shallower inner side is preferred to itself. -/
theorem breakTies_self {t : PlanTraits} (hjoin : ShallowInner t) : breakTies t t = true := by
  obtain ⟨est, hest, hrows, hdepth⟩ := hjoin
  have hest : t.join = some est := hest
  unfold breakTies
  split
  · rfl
  · split
    · rfl
    · simp [hest, breakCostTiesForJoinPlans, hrows, hdepth]

/-! ## Costs -/

/-- The costs in the order in which they are compared. -/
def costKey (useMaxCosting : Bool) (c : CCost) : ℚ ×ₗ ℚ :=
  toLex (c.dCost, if useMaxCosting then c.costSum else 0)

theorem costsLess_iff {c c' : CCost} :
    CostsLess useMaxCosting c c' ↔ costKey useMaxCosting c < costKey useMaxCosting c' := by
  cases useMaxCosting <;> simp [CostsLess, costKey, Prod.Lex.toLex_lt_toLex]

theorem costsSame_iff {c c' : CCost} :
    CostsSame useMaxCosting c c' ↔ costKey useMaxCosting c = costKey useMaxCosting c' := by
  cases useMaxCosting <;> simp [CostsSame, costKey]

/-! ## The rules for ties -/

section Ties

variable {s t u : PlanTraits}

theorem BetterDistributed.asymm (hs : s.Coherent) (ht : t.Coherent) (h : BetterDistributed s t) :
    ¬BetterDistributed t s := by
  intro h'
  have := hs.hashed
  have := ht.hashed
  rcases h with h | h <;> rcases h' with h' | h' <;> simp_all

theorem BetterDistributed.trans (hs : s.Coherent) (ht : t.Coherent) (h : BetterDistributed s t)
    (h' : BetterDistributed t u) : BetterDistributed s u := by
  have := hs.hashed
  have := ht.hashed
  rcases h with h | h <;> rcases h' with h' | h' <;> simp_all [BetterDistributed]

theorem Streams.asymm (h : Streams s t) : ¬Streams t s := by
  intro h'
  have := h.1.symm.trans h'.2.1
  cases this

/-- Distribution, then streaming: only one kind of triple goes wrong. -/
theorem betterDistributed_streams (hs : s.Coherent) (h : BetterDistributed s t)
    (hconflict : ¬BetterDistributed u t) :
    BetterDistributed s u ∨ s.fHashed = true ∧ t.fRandom = true ∧ OtherPartitioned u := by
  have hpart := hs.hashed
  cases hp : u.fPartitioned <;> cases hh : u.fHashed <;> cases hr : u.fRandom <;>
    rcases h with h | h <;> simp_all [BetterDistributed, OtherPartitioned]

/-- Streaming, then distribution. -/
theorem streams_betterDistributed (ht : t.Coherent) (h : BetterDistributed t u)
    (hconflict : ¬BetterDistributed t s) :
    BetterDistributed s u ∨ OtherPartitioned s ∧ t.fHashed = true ∧ u.fRandom = true := by
  have hpart := ht.hashed
  cases hp : s.fPartitioned <;> cases hh : s.fHashed <;> cases hr : s.fRandom <;>
    rcases h with h | h <;> simp_all [BetterDistributed, OtherPartitioned]

end Ties

/-! ## The order of contexts -/

/-- The rules do not contradict each other on these contexts. -/
structure NoConflict (useMaxCosting forceThreeStageScalarDQA : Bool)
    (contexts : List (AnyContext Poc)) : Prop where
  /-- No tie reads a null pointer. -/
  pruned : ∀ a ∈ contexts, ∀ b ∈ contexts, a ≠ b → a.fPruned = true →
    tied useMaxCosting forceThreeStageScalarDQA a b = false
  joins : ∀ a ∈ contexts, a.fPruned = false → ¬ShallowInner a.traits
  /-- Streaming and distribution do not point in opposite directions. -/
  spools : ∀ a ∈ contexts, ∀ b ∈ contexts, CostsSame useMaxCosting a.cost b.cost →
    Streams a.traits b.traits → ¬BetterDistributed b.traits a.traits
  /-- Hashed before random, and the random one streams before one that is partitioned in another
      way. -/
  hashed : ∀ a ∈ contexts, ∀ b ∈ contexts, ∀ c ∈ contexts,
    CostsSame useMaxCosting a.cost b.cost → CostsSame useMaxCosting b.cost c.cost →
    a.traits.fHashed = true → b.traits.fRandom = true → OtherPartitioned c.traits →
    Streams b.traits c.traits → Streams a.traits c.traits
  /-- One that is partitioned in another way streams before a hashed one, hashed before random. -/
  random : ∀ a ∈ contexts, ∀ b ∈ contexts, ∀ c ∈ contexts,
    CostsSame useMaxCosting a.cost b.cost → CostsSame useMaxCosting b.cost c.cost →
    OtherPartitioned a.traits → b.traits.fHashed = true → c.traits.fRandom = true →
    Streams a.traits b.traits → Streams a.traits c.traits
  /-- A context without stages does not come between a three-stage and a two-stage aggregate. -/
  stages : forceThreeStageScalarDQA = true → ∀ a ∈ contexts, ∀ b ∈ contexts, ∀ c ∈ contexts,
    ThreeStage a.traits → TwoStage b.traits → ¬ThreeStage c.traits → ¬TwoStage c.traits →
    (Ahead useMaxCosting b.toCCostContext c.toCCostContext →
      Ahead useMaxCosting a.toCCostContext c.toCCostContext) ∧
    (Ahead useMaxCosting c.toCCostContext a.toCCostContext →
      Ahead useMaxCosting c.toCCostContext b.toCCostContext)

theorem CostsSame.symm {c c' : CCost} (h : CostsSame useMaxCosting c c') :
    CostsSame useMaxCosting c' c := costsSame_iff.2 (costsSame_iff.1 h).symm

theorem CostsSame.trans {c c' c'' : CCost} (h : CostsSame useMaxCosting c c')
    (h' : CostsSame useMaxCosting c' c'') : CostsSame useMaxCosting c c'' :=
  costsSame_iff.2 ((costsSame_iff.1 h).trans (costsSame_iff.1 h'))

theorem CostsSame.not_less {c c' : CCost} (h : CostsSame useMaxCosting c c') :
    ¬CostsLess useMaxCosting c c' := fun hless =>
  (costsLess_iff.1 hless).ne (costsSame_iff.1 h)

theorem not_ahead_self {a : CCostContext Poc} (ha : a.traits.Coherent) :
    ¬Ahead useMaxCosting a a := by
  rintro (hless | ⟨-, hdist | hstreams⟩)
  · exact (costsLess_iff.1 hless).false
  · exact hdist.asymm ha ha hdist
  · exact hstreams.asymm hstreams

/-- Two contexts are ahead of each other only if streaming and distribution disagree. -/
theorem Ahead.asymm {a b : CCostContext Poc} (ha : a.traits.Coherent) (hb : b.traits.Coherent)
    (hab : CostsSame useMaxCosting a.cost b.cost → Streams a.traits b.traits →
      ¬BetterDistributed b.traits a.traits)
    (hba : CostsSame useMaxCosting b.cost a.cost → Streams b.traits a.traits →
      ¬BetterDistributed a.traits b.traits)
    (h : Ahead useMaxCosting a b) : ¬Ahead useMaxCosting b a := by
  intro h'
  rcases h with hless | ⟨hsame, h⟩
  · rcases h' with hless' | ⟨hsame', -⟩
    · exact (costsLess_iff.1 hless).asymm (costsLess_iff.1 hless')
    · exact hsame'.symm.not_less hless
  · rcases h' with hless' | ⟨-, h'⟩
    · exact hsame.symm.not_less hless'
    · rcases h with hdist | hstreams
      · rcases h' with hdist' | hstreams'
        · exact hdist.asymm ha hb hdist'
        · exact hba hsame.symm hstreams' hdist
      · rcases h' with hdist' | hstreams'
        · exact hab hsame hstreams hdist'
        · exact hstreams.asymm hstreams'

section Contexts

variable {contexts : List (AnyContext Poc)}

namespace NoConflict

variable (h : NoConflict useMaxCosting forceThreeStageScalarDQA contexts)
  (hcoherent : ∀ c ∈ contexts, c.traits.Coherent)
include h hcoherent

theorem ahead_asymm {a b : AnyContext Poc} (ha : a ∈ contexts) (hb : b ∈ contexts)
    (hab : Ahead useMaxCosting a.toCCostContext b.toCCostContext) :
    ¬Ahead useMaxCosting b.toCCostContext a.toCCostContext :=
  hab.asymm (hcoherent a ha) (hcoherent b hb) (h.spools a ha b hb) (h.spools b hb a ha)

theorem ahead_trans {a b c : AnyContext Poc} (ha : a ∈ contexts) (hb : b ∈ contexts)
    (hc : c ∈ contexts) (hab : Ahead useMaxCosting a.toCCostContext b.toCCostContext)
    (hbc : Ahead useMaxCosting b.toCCostContext c.toCCostContext) :
    Ahead useMaxCosting a.toCCostContext c.toCCostContext := by
  rcases hab with hless | ⟨hsame, hab⟩
  · left
    rcases hbc with hless' | ⟨hsame', -⟩
    · exact costsLess_iff.2 ((costsLess_iff.1 hless).trans (costsLess_iff.1 hless'))
    · exact costsLess_iff.2 ((costsLess_iff.1 hless).trans_eq (costsSame_iff.1 hsame'))
  · rcases hbc with hless' | ⟨hsame', hbc⟩
    · exact .inl (costsLess_iff.2 ((costsSame_iff.1 hsame).trans_lt (costsLess_iff.1 hless')))
    · refine .inr ⟨hsame.trans hsame', ?_⟩
      rcases hab with hdist | hstreams
      · rcases hbc with hdist' | hstreams'
        · exact .inl (hdist.trans (hcoherent a ha) (hcoherent b hb) hdist')
        · have hno := h.spools b hb c hc hsame' hstreams'
          rcases betterDistributed_streams (hcoherent a ha) hdist hno with hac | ⟨hh, hr, ho⟩
          · exact .inl hac
          · exact .inr (h.hashed a ha b hb c hc hsame hsame' hh hr ho hstreams')
      · rcases hbc with hdist' | hstreams'
        · have hno := h.spools a ha b hb hsame hstreams
          rcases streams_betterDistributed (hcoherent b hb) hdist' hno with hac | ⟨ho, hh, hr⟩
          · exact .inl hac
          · exact .inr (h.random a ha b hb c hc hsame hsame' ho hh hr hstreams)
        · have := hstreams.2.1.symm.trans hstreams'.1
          cases this

/-- The comparisons that the trace flag makes do not break the order either. -/
theorem strictOn_precedes : StrictOn
    (fun a b : AnyContext Poc => Precedes useMaxCosting forceThreeStageScalarDQA
      a.toCCostContext b.toCCostContext) contexts where
  asymm a ha b hb := by
    rintro ⟨hab, hba⟩
    rcases hab with hforced | ⟨hnot, hab⟩
    · rcases hba with hforced' | ⟨hnot', -⟩
      · rw [forced_asymm (hcoherent a ha) hforced] at hforced'
        cases hforced'
      · rw [hforced] at hnot'
        cases hnot'
    · rcases hba with hforced' | ⟨-, hba⟩
      · rw [hforced'] at hnot
        cases hnot
      · exact h.ahead_asymm hcoherent ha hb hab hba
  trans a ha b hb c hc hab hbc := by
    rcases hab with hforced | ⟨hnot, hab⟩
    · obtain ⟨hflag, hthree, htwo⟩ := forced_iff.1 hforced
      by_cases hc2 : TwoStage c.traits
      · exact .inl (forced_iff.2 ⟨hflag, hthree, hc2⟩)
      rcases hbc with hforced' | ⟨hnot', hbc⟩
      · exact absurd (forced_iff.1 hforced').2.2 hc2
      · have hc3 : ¬ThreeStage c.traits := fun hc3 =>
          Bool.false_ne_true (hnot'.symm.trans (forced_iff.2 ⟨hflag, hc3, htwo⟩))
        exact .inr ⟨forced_eq_false (.inl hc3),
          (h.stages hflag a ha b hb c hc hthree htwo hc3 hc2).1 hbc⟩
    · rcases hbc with hforced | ⟨hnot', hbc⟩
      · obtain ⟨hflag, hthree, htwo⟩ := forced_iff.1 hforced
        by_cases ha3 : ThreeStage a.traits
        · exact .inl (forced_iff.2 ⟨hflag, ha3, htwo⟩)
        · have ha2 : ¬TwoStage a.traits := fun ha2 =>
            Bool.false_ne_true (hnot.symm.trans (forced_iff.2 ⟨hflag, hthree, ha2⟩))
          exact .inr ⟨forced_eq_false (.inr ha2),
            (h.stages hflag b hb c hc a ha hthree htwo ha3 ha2).2 hab⟩
      · by_cases hca : forced forceThreeStageScalarDQA c.traits a.traits = true
        · -- the middle one would be between a three-stage and a two-stage aggregate
          obtain ⟨hflag, hc3, ha2⟩ := forced_iff.1 hca
          have hb3 : ¬ThreeStage b.traits := fun hb3 =>
            Bool.false_ne_true (hnot.symm.trans (forced_iff.2 ⟨hflag, hb3, ha2⟩))
          have hb2 : ¬TwoStage b.traits := fun hb2 =>
            Bool.false_ne_true (hnot'.symm.trans (forced_iff.2 ⟨hflag, hc3, hb2⟩))
          have hcb := (h.stages hflag c hc a ha b hb hc3 ha2 hb3 hb2).1 hab
          exact absurd hcb (h.ahead_asymm hcoherent hb hc hbc)
        · exact .inr ⟨Bool.eq_false_iff.2 hca, h.ahead_trans hcoherent ha hb hc hab hbc⟩

end NoConflict

theorem tied_comm (a b : AnyContext Poc) :
    tied useMaxCosting forceThreeStageScalarDQA a b =
      tied useMaxCosting forceThreeStageScalarDQA b a := by
  have hsame : CostsSame useMaxCosting a.cost b.cost ↔ CostsSame useMaxCosting b.cost a.cost :=
    ⟨CostsSame.symm, CostsSame.symm⟩
  rw [tied, tied, decide_eq_decide.2 hsame]
  congr 1
  exact Bool.and_comm _ _

theorem tied_iff {a b : AnyContext Poc} : tied useMaxCosting forceThreeStageScalarDQA a b = true ↔
    (forced forceThreeStageScalarDQA a.traits b.traits = false ∧
      forced forceThreeStageScalarDQA b.traits a.traits = false) ∧
      CostsSame useMaxCosting a.cost b.cost := by
  simp [tied]

theorem not_precedes_self {a : CCostContext Poc} (ha : a.traits.Coherent) :
    ¬Precedes useMaxCosting forceThreeStageScalarDQA a a := by
  rintro (hforced | ⟨-, hahead⟩)
  · exact Bool.false_ne_true ((forced_asymm ha hforced).symm.trans hforced)
  · exact not_ahead_self ha hahead

/-- An unpruned context on the left of a tie: the comparison is `Precedes`. -/
theorem fBetterThan_iff_precedes {a b : CCostContext Poc} (ha : a.traits.Coherent)
    (hjoin : CostsSame useMaxCosting a.cost b.cost → ¬ShallowInner a.traits ∨
      forced forceThreeStageScalarDQA a.traits b.traits = true ∨
        forced forceThreeStageScalarDQA b.traits a.traits = true) :
    fBetterThan useMaxCosting forceThreeStageScalarDQA a b = true ↔
      Precedes useMaxCosting forceThreeStageScalarDQA a b := by
  rw [fBetterThan_iff ha, Precedes, Ahead]
  cases hab : forced forceThreeStageScalarDQA a.traits b.traits with
  | true => simp
  | false =>
    cases hba : forced forceThreeStageScalarDQA b.traits a.traits with
    | true => simp
    | false =>
      simp only [Bool.false_eq_true, false_or, true_and]
      refine or_congr_right (and_congr_right fun hsame => breakTies_iff ha ?_)
      exact (hjoin hsame).resolve_right (by simp [hab, hba])

/-- If no tie with another context has a pruned one, a null pointer is read in comparing a context
    with itself only. -/
theorem eq_of_readsNull {a b : AnyContext Poc} (ha : a ∈ contexts) (hb : b ∈ contexts)
    (hpruned : ∀ a ∈ contexts, ∀ b ∈ contexts, a ≠ b → a.fPruned = true →
      tied useMaxCosting forceThreeStageScalarDQA a b = false)
    (hnull : (tied useMaxCosting forceThreeStageScalarDQA a b && readsNull a b) = true) : a = b := by
  obtain ⟨htied, hreads⟩ := Bool.and_eq_true_iff.1 hnull
  by_contra hne
  simp only [readsNull, Bool.or_eq_true, Bool.and_eq_true] at hreads
  rcases hreads with hprunedA | ⟨hprunedB, -⟩
  · exact Bool.false_ne_true ((hpruned a ha b hb hne hprunedA).symm.trans htied)
  · rw [tied_comm] at htied
    exact Bool.false_ne_true ((hpruned b hb a ha (Ne.symm hne) hprunedB).symm.trans htied)

/-- Unless a tie reads a null pointer or meets the join rule, the comparison is `Precedes`. -/
theorem fBetterThanOrNull_iff {a b : AnyContext Poc} (ha : a ∈ contexts) (hb : b ∈ contexts)
    (hcoherent : ∀ c ∈ contexts, c.traits.Coherent)
    (hpruned : ∀ a ∈ contexts, ∀ b ∈ contexts, a ≠ b → a.fPruned = true →
      tied useMaxCosting forceThreeStageScalarDQA a b = false)
    (hjoins : ∀ a ∈ contexts, a.fPruned = false → ¬ShallowInner a.traits) :
    fBetterThanOrNull useMaxCosting forceThreeStageScalarDQA a b = some true ↔
      Precedes useMaxCosting forceThreeStageScalarDQA a.toCCostContext b.toCCostContext := by
  unfold fBetterThanOrNull
  split
  · next hnull =>
    obtain rfl : a = b := eq_of_readsNull ha hb hpruned hnull
    exact iff_of_false (by simp) (not_precedes_self (hcoherent a ha))
  · next hnull =>
    rw [Option.some_inj]
    refine fBetterThan_iff_precedes (hcoherent a ha) fun hsame => ?_
    by_cases htied : tied useMaxCosting forceThreeStageScalarDQA a b = true
    · left
      refine hjoins a ha (Bool.eq_false_iff.2 fun hprunedA => hnull ?_)
      simp [htied, readsNull, hprunedA]
    · right
      by_contra hnot
      simp only [not_or, Bool.not_eq_true] at hnot
      exact htied (tied_iff.2 ⟨hnot, hsame⟩)

/-- A strict order leaves no conflict. -/
theorem noConflict_of_strictOn (hcoherent : ∀ c ∈ contexts, c.traits.Coherent)
    (hpruned : ∀ a ∈ contexts, ∀ b ∈ contexts, a ≠ b → a.fPruned = true →
      tied useMaxCosting forceThreeStageScalarDQA a b = false)
    (hjoins : ∀ a ∈ contexts, a.fPruned = false → ¬ShallowInner a.traits)
    (hstrict : StrictOn (fun a b : AnyContext Poc => Precedes useMaxCosting
      forceThreeStageScalarDQA a.toCCostContext b.toCCostContext) contexts) :
    NoConflict useMaxCosting forceThreeStageScalarDQA contexts where
  pruned := hpruned
  joins := hjoins
  spools a ha b hb hsame hstreams hdist := by
    have hspoolA := (hcoherent a ha).not_stage (by simp [hstreams.1])
    have hspoolB := (hcoherent b hb).not_stage (by simp [hstreams.2.1])
    refine hstrict.asymm a ha b hb ⟨.inr ⟨forced_eq_false (.inl hspoolB.1), ?_⟩,
      .inr ⟨forced_eq_false (.inl hspoolA.1), ?_⟩⟩
    · exact .inr ⟨hsame, .inr hstreams⟩
    · exact .inr ⟨hsame.symm, .inl hdist⟩
  hashed a ha b hb c hc hsame hsame' hhashed hrandom hother hstreams := by
    have hspoolB := (hcoherent b hb).not_stage (by simp [hstreams.1])
    have hspoolC := (hcoherent c hc).not_stage (by simp [hstreams.2.1])
    have hab : Precedes useMaxCosting forceThreeStageScalarDQA a.toCCostContext b.toCCostContext :=
      .inr ⟨forced_eq_false (.inl hspoolB.1), .inr ⟨hsame, .inl (.inr ⟨hhashed, hrandom⟩)⟩⟩
    have hbc : Precedes useMaxCosting forceThreeStageScalarDQA b.toCCostContext c.toCCostContext :=
      .inr ⟨forced_eq_false (.inl hspoolC.1), .inr ⟨hsame', .inr hstreams⟩⟩
    have hac := (hstrict.trans a ha b hb c hc hab hbc).resolve_left
      (Bool.eq_false_iff.1 (forced_eq_false (.inr hspoolC.2)))
    rcases hac.2 with hless | ⟨-, (⟨-, hpart⟩ | ⟨-, hrandom⟩) | hstreams⟩
    · exact absurd hless (hsame.trans hsame').not_less
    · exact absurd (hpart.symm.trans hother.1) Bool.false_ne_true
    · exact absurd (hother.2.2.symm.trans hrandom) Bool.false_ne_true
    · exact hstreams
  random a ha b hb c hc hsame hsame' hother hhashed hrandom hstreams := by
    have hspoolA := (hcoherent a ha).not_stage (by simp [hstreams.1])
    have hspoolB := (hcoherent b hb).not_stage (by simp [hstreams.2.1])
    have hab : Precedes useMaxCosting forceThreeStageScalarDQA a.toCCostContext b.toCCostContext :=
      .inr ⟨forced_eq_false (.inl hspoolB.1), .inr ⟨hsame, .inr hstreams⟩⟩
    have hbc : Precedes useMaxCosting forceThreeStageScalarDQA b.toCCostContext c.toCCostContext :=
      .inr ⟨forced_eq_false (.inr hspoolB.2), .inr ⟨hsame', .inl (.inr ⟨hhashed, hrandom⟩)⟩⟩
    have hac := (hstrict.trans a ha b hb c hc hab hbc).resolve_left
      (Bool.eq_false_iff.1 (forced_eq_false (.inl hspoolA.1)))
    rcases hac.2 with hless | ⟨-, (⟨-, hpart⟩ | ⟨hhashed', -⟩) | hstreams⟩
    · exact absurd hless (hsame.trans hsame').not_less
    · exact absurd (hpart.symm.trans ((hcoherent c hc).random hrandom)) Bool.false_ne_true
    · exact absurd (hother.2.1.symm.trans hhashed') Bool.false_ne_true
    · exact hstreams
  stages hflag a ha b hb c hc hthree htwo hc3 hc2 := by
    have hab : Precedes useMaxCosting forceThreeStageScalarDQA a.toCCostContext b.toCCostContext :=
      .inl (forced_iff.2 ⟨hflag, hthree, htwo⟩)
    constructor
    · intro hbc
      exact ((hstrict.trans a ha b hb c hc hab (.inr ⟨forced_eq_false (.inl hc3), hbc⟩)).resolve_left
        (Bool.eq_false_iff.1 (forced_eq_false (.inr hc2)))).2
    · intro hca
      exact ((hstrict.trans c hc a ha b hb (.inr ⟨forced_eq_false (.inr hc2), hca⟩) hab).resolve_left
        (Bool.eq_false_iff.1 (forced_eq_false (.inl hc3)))).2

end Contexts

end BossOptimizer

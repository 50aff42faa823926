import BossOptimizer.Search.CostContext
import BossOptimizer.Lib.Lists
import Mathlib.Data.List.Induction

/-!
# Optimal substructure

A plan of an optimization context is a cost context with a plan of each child context. Following
the best contexts gives the kept plan. In the sum mode it is a cheapest plan: costs are monotone
in the costs of the children. Under `useMaxCosting` they are not, since two children that are
compared by their largest entry may load different engines than their siblings and their parent do;
what remains is that the kept plan costs at most what the entries of another plan sum up to.
-/

namespace BossOptimizer

variable {Poc : Type}

/-! ## Plans -/

/-- A plan: an alternative of a context and plans of its children. -/
inductive Plan (Poc : Type) where
  | node (alt : Alternative Poc) (children : List (Plan Poc))

namespace Plan

/-- Induction over plans: the children are a list. -/
theorem induction {P : Plan Poc → Prop}
    (node : ∀ alt children, (∀ c ∈ children, P c) → P (.node alt children)) : ∀ plan, P plan
  | .node alt children => node alt children fun c _ => induction node c

section Cost

variable (useMaxCosting : Bool) (costs : OperatorCosts Poc)

mutual

/-- The cost of a plan, bottom up. -/
def cost : Poc → Plan Poc → CCost
  | poc, .node alt children =>
    operatorCost useMaxCosting costs poc alt (costAll alt.pdrgpoc children)

def costAll : List Poc → List (Plan Poc) → List CCost
  | poc :: pocs, c :: cs => cost poc c :: costAll pocs cs
  | _, _ => []

end

end Cost

mutual

/-- The plan is assembled from alternatives in `choice`. -/
def Assembled (choice : Poc → Alternative Poc → Prop) : Poc → Plan Poc → Prop
  | poc, .node alt children => choice poc alt ∧ AssembledAll choice alt.pdrgpoc children

def AssembledAll (choice : Poc → Alternative Poc → Prop) : List Poc → List (Plan Poc) → Prop
  | [], [] => True
  | poc :: pocs, c :: cs => Assembled choice poc c ∧ AssembledAll choice pocs cs
  | _, _ => False

end

attribute [local simp] Assembled AssembledAll in
theorem assembledAll_iff {choice : Poc → Alternative Poc → Prop} {pocs : List Poc}
    {cs : List (Plan Poc)} :
    AssembledAll choice pocs cs ↔ List.Forall₂ (Assembled choice) pocs cs := by
  induction pocs generalizing cs with
  | nil => cases cs <;> simp [AssembledAll]
  | cons poc pocs ih => cases cs <;> simp [AssembledAll, ih]

/-- A plan is assembled from whatever includes what it is assembled from. -/
theorem Assembled.mono {choice choice' : Poc → Alternative Poc → Prop}
    (h : ∀ poc alt, choice poc alt → choice' poc alt) (plan : Plan Poc) :
    ∀ poc, plan.Assembled choice poc → plan.Assembled choice' poc := by
  induction plan using Plan.induction with
  | node alt children ih =>
    rintro poc ⟨halt, hall⟩
    refine ⟨h poc alt halt, ?_⟩
    rw [assembledAll_iff] at hall ⊢
    generalize alt.pdrgpoc = pocs at hall
    induction hall with
    | nil => exact .nil
    | cons hc _ ihl =>
      exact .cons (ih _ (by simp) _ hc) (ihl fun c hc => ih c (by simp [hc]))

theorem AssembledAll.mono {choice choice' : Poc → Alternative Poc → Prop}
    (h : ∀ poc alt, choice poc alt → choice' poc alt) {pocs : List Poc} {plans : List (Plan Poc)}
    (hall : AssembledAll choice pocs plans) : AssembledAll choice' pocs plans := by
  rw [assembledAll_iff] at hall ⊢
  exact hall.imp fun poc plan => Assembled.mono h plan poc

theorem mem_costAll {useMaxCosting : Bool} {costs : OperatorCosts Poc} {pocs : List Poc}
    {cs : List (Plan Poc)} {c : CCost} (h : c ∈ costAll useMaxCosting costs pocs cs) :
    ∃ poc, ∃ plan ∈ cs, plan.cost useMaxCosting costs poc = c := by
  induction pocs generalizing cs with
  | nil => cases cs <;> simp [costAll] at h
  | cons poc pocs ih =>
    cases cs with
    | nil => simp [costAll] at h
    | cons plan cs =>
      rcases List.mem_cons.1 h with rfl | h
      · exact ⟨poc, plan, by simp, rfl⟩
      · obtain ⟨poc', plan', hplan', hc⟩ := ih h
        exact ⟨poc', plan', by simp [hplan'], hc⟩

end Plan

/-! ## Costs of operators -/

variable {useMaxCosting : Bool} {costs : OperatorCosts Poc}

/-- The own costs are costs as the cost functions build them. -/
def OperatorCosts.Proper (useMaxCosting : Bool) (costs : OperatorCosts Poc) : Prop :=
  ∀ pgexpr poc pdrgpoc, (costs.costLocal pgexpr poc pdrgpoc).Proper useMaxCosting

theorem costOver_proper {fParallelUnionAll : Bool} {costLocal : CCost} {pdCost : List CCost}
    (hlocal : costLocal.Proper useMaxCosting) (h : ∀ c ∈ pdCost, c.Proper useMaxCosting) :
    (costOver useMaxCosting fParallelUnionAll costLocal pdCost).Proper useMaxCosting := by
  unfold costOver
  split
  · exact BOSSCostModel.costMaxChild_proper h
  · split
    · exact hlocal
    · exact CCost.add_proper hlocal (BOSSCostModel.costChildren_proper h)

theorem costOver_plain {fParallelUnionAll : Bool} {costLocal : CCost} {pdCost : List CCost}
    (hlocal : costLocal.Plain useMaxCosting) (h : ∀ c ∈ pdCost, c.Plain useMaxCosting) :
    (costOver useMaxCosting fParallelUnionAll costLocal pdCost).Plain useMaxCosting := by
  unfold costOver
  split
  · exact (BOSSCostModel.costMaxChild_plain h).1
  · split
    · exact hlocal
    · exact CCost.add_plain hlocal (BOSSCostModel.costChildren_plain h).1

/-- Plain costs: a cheaper operator over cheaper children makes a cheaper plan. -/
theorem costOver_mono {fParallelUnionAll : Bool} {costLocal costLocal' : CCost}
    {pdCost pdCost' : List CCost} (hlocal : costLocal.Plain useMaxCosting)
    (hlocal' : costLocal'.Plain useMaxCosting) (hlocalLe : costLocal.dCost ≤ costLocal'.dCost)
    (h : ∀ c ∈ pdCost, c.Plain useMaxCosting) (h' : ∀ c ∈ pdCost', c.Plain useMaxCosting)
    (hle : List.Forall₂ (fun c c' => c.dCost ≤ c'.dCost) pdCost pdCost') :
    (costOver useMaxCosting fParallelUnionAll costLocal pdCost).dCost ≤
      (costOver useMaxCosting fParallelUnionAll costLocal' pdCost').dCost := by
  unfold costOver
  split
  · -- each child costs at most its counterpart, and that at most the largest
    obtain ⟨-, hmax⟩ := BOSSCostModel.costMaxChild_plain h
    obtain ⟨-, hmax'⟩ := BOSSCostModel.costMaxChild_plain h'
    obtain ⟨hnonneg, hbound⟩ := (hmax' _).1 le_rfl
    refine (hmax _).2 ⟨hnonneg, fun c hc => ?_⟩
    obtain ⟨c', hc', hcc⟩ := exists_of_forall₂_left hle hc
    exact hcc.trans (hbound c' hc')
  · have hempty : pdCost.isEmpty = pdCost'.isEmpty := by cases hle <;> rfl
    rw [hempty]
    split
    · exact hlocalLe
    · obtain ⟨hplain, hcost⟩ := BOSSCostModel.costChildren_plain h
      obtain ⟨hplain', hcost'⟩ := BOSSCostModel.costChildren_plain h'
      rw [CCost.dCost_add_plain hlocal hplain, CCost.dCost_add_plain hlocal' hplain', hcost, hcost']
      have hsum : (pdCost.map CCost.dCost).sum ≤ (pdCost'.map CCost.dCost).sum := by
        refine List.Forall₂.sum_le_sum ?_
        simpa using hle
      linarith

/-- In the maximum mode an operator costs at most the entries of its parts together. -/
theorem operatorCost_le_costSum (hcosts : costs.Proper true) {poc : Poc} {alt : Alternative Poc}
    (hsum : costs.fParallelUnionAll alt.pgexpr = false) {pdCost pdCost' : List CCost}
    (hle : List.Forall₂ (fun c c' => c.dCost ≤ c'.costSum) pdCost pdCost')
    (h : ∀ c ∈ pdCost, c.Proper true) :
    (operatorCost true costs poc alt pdCost).dCost ≤
      (operatorCost true costs poc alt pdCost').costSum := by
  unfold operatorCost costOver
  rw [hsum]
  simp only [Bool.false_eq_true, if_false]
  have hempty : pdCost.isEmpty = pdCost'.isEmpty := by cases hle <;> rfl
  rw [hempty]
  split
  · exact (hcosts _ _ _).dCost_le_costSum
  · have hchildren : (pdCost.map CCost.dCost).sum ≤ (pdCost'.map CCost.costSum).sum := by
      refine List.Forall₂.sum_le_sum ?_
      simpa using hle
    have hlocal := (hcosts alt.pgexpr poc alt.pdrgpoc).dCost_le_costSum
    have hadd := CCost.dCost_add_max (hcosts alt.pgexpr poc alt.pdrgpoc)
      (BOSSCostModel.costChildren_proper h)
    have hmax := BOSSCostModel.dCost_costChildren_max h
    rw [CCost.costSum_add, BOSSCostModel.costSum_costChildren]
    linarith

theorem Plan.cost_proper (hcosts : costs.Proper useMaxCosting) (poc : Poc) (plan : Plan Poc) :
    (plan.cost useMaxCosting costs poc).Proper useMaxCosting := by
  induction plan using Plan.induction generalizing poc with
  | node alt children ih =>
    rw [Plan.cost]
    refine costOver_proper (hcosts _ _ _) fun c hc => ?_
    obtain ⟨poc', plan, hplan, rfl⟩ := Plan.mem_costAll hc
    exact ih plan hplan poc'

/-! ## Runs -/

section Run

variable [DecidableEq Poc]

/-- Children are optimized before their parents are costed: once an alternative is costed, its
    child contexts do not change any more. -/
structure ChildrenFirst (run : List (Poc × Alternative Poc)) : Prop where
  later : run.Pairwise fun step later => later.1 ∉ step.2.pdrgpoc
  self : ∀ step ∈ run, step.1 ∉ step.2.pdrgpoc

/-- The alternative of the best context. -/
def bestOf (contexts : Contexts Poc) (poc : Poc) (alt : Alternative Poc) : Prop :=
  ∃ b ∈ (contexts poc).pccBest, b.toAlternative = alt

/-- A context in the tables or the best one. -/
def Known (poc : COptimizationContext Poc) (c : CCostContext Poc) : Prop :=
  c ∈ poc.sht ∨ c ∈ poc.pccBest

/-- What holds after any part of a run. -/
structure RunInv (useMaxCosting : Bool) (costs : OperatorCosts Poc)
    (run : List (Poc × Alternative Poc)) (contexts : Contexts Poc) : Prop where
  proper : ∀ poc c, Known (contexts poc) c → c.cost.Proper useMaxCosting
  offered : ∀ poc c, Known (contexts poc) c → (poc, c.toAlternative) ∈ run
  costed : ∀ poc c, Known (contexts poc) c → ∃ pdCost, childCosts contexts c.pdrgpoc = some pdCost ∧
    c.cost = operatorCost useMaxCosting costs poc c.toAlternative pdCost
  keeps : ∀ poc, KeepsBest (contexts poc)
  covers : ∀ step ∈ run, ∀ pdCost, childCosts contexts step.2.pdrgpoc = some pdCost →
    ∃ b ∈ (contexts step.1).pccBest,
      b.cost.dCost ≤ (operatorCost useMaxCosting costs step.1 step.2 pdCost).dCost
  plan : ∀ poc, (contexts poc).pccBest.isSome →
    ∃ plan : Plan Poc, plan.Assembled (bestOf contexts) poc

variable {contexts : Contexts Poc}

/-- The children of an alternative do not see the context that changes. -/
theorem childCosts_update {poc : Poc} {x : COptimizationContext Poc} {pdrgpoc : List Poc}
    (h : poc ∉ pdrgpoc) :
    childCosts (Function.update contexts poc x) pdrgpoc = childCosts contexts pdrgpoc := by
  unfold childCosts
  induction pdrgpoc with
  | nil => rfl
  | cons q qs ih =>
    simp only [List.mem_cons, not_or] at h
    simp only [List.mapM_cons, ih h.2, Function.update_of_ne (Ne.symm h.1)]

variable {pdCost : List CCost}

omit [DecidableEq Poc] in
theorem childCosts_cons {q : Poc} {qs : List Poc} :
    childCosts contexts (q :: qs) = some pdCost ↔
      ∃ b ∈ (contexts q).pccBest, ∃ rest, childCosts contexts qs = some rest ∧
        pdCost = b.cost :: rest := by
  simp only [childCosts, List.mapM_cons, Option.bind_eq_bind, Option.bind_eq_some_iff,
    Option.map_eq_some_iff, Option.pure_def, Option.some.injEq, Option.mem_def]
  constructor
  · rintro ⟨c, ⟨b, hb, rfl⟩, rest, hrest, rfl⟩
    exact ⟨b, hb, rest, hrest, rfl⟩
  · rintro ⟨b, hb, rest, hrest, rfl⟩
    exact ⟨b.cost, ⟨b, hb, rfl⟩, rest, hrest, rfl⟩

omit [DecidableEq Poc] in
theorem childCosts_some {pdrgpoc : List Poc} (h : childCosts contexts pdrgpoc = some pdCost) :
    (∀ q ∈ pdrgpoc, (contexts q).pccBest.isSome) ∧
      ∀ c ∈ pdCost, ∃ q, ∃ b ∈ (contexts q).pccBest, b.cost = c := by
  induction pdrgpoc generalizing pdCost with
  | nil =>
    cases h
    simp
  | cons q qs ih =>
    obtain ⟨b, hb, rest, hrest, rfl⟩ := childCosts_cons.1 h
    obtain ⟨hsome, hcosts⟩ := ih hrest
    refine ⟨fun q' hq' => ?_, fun c hc => ?_⟩
    · rcases List.mem_cons.1 hq' with rfl | hq'
      · exact Option.isSome_iff_exists.2 ⟨b, hb⟩
      · exact hsome q' hq'
    · rcases List.mem_cons.1 hc with rfl | hc
      · exact ⟨q, b, hb, rfl⟩
      · exact hcosts c hc

omit [DecidableEq Poc] in
theorem childCosts_forall₂ {pdrgpoc : List Poc} (h : childCosts contexts pdrgpoc = some pdCost) :
    List.Forall₂ (fun q c => ∃ b ∈ (contexts q).pccBest, b.cost = c) pdrgpoc pdCost := by
  induction pdrgpoc generalizing pdCost with
  | nil =>
    cases h
    exact .nil
  | cons q qs ih =>
    obtain ⟨b, hb, rest, hrest, rfl⟩ := childCosts_cons.1 h
    exact .cons ⟨b, hb, rfl⟩ (ih hrest)

/-- A kept plan survives a change of a context that it does not go through. -/
theorem assembled_update {poc : Poc} {x : COptimizationContext Poc}
    (hchild : ∀ q, ∀ b ∈ (contexts q).pccBest, poc ∉ b.pdrgpoc) (plan : Plan Poc) :
    ∀ q, q ≠ poc → plan.Assembled (bestOf contexts) q →
      plan.Assembled (bestOf (Function.update contexts poc x)) q := by
  induction plan using Plan.induction with
  | node alt children ih =>
    rintro q hq ⟨⟨b, hb, rfl⟩, hall⟩
    refine ⟨⟨b, by rwa [Function.update_of_ne hq], rfl⟩, ?_⟩
    have hnot := hchild q b hb
    rw [Plan.assembledAll_iff] at hall ⊢
    clear hb
    generalize b.pdrgpoc = pocs at hnot hall
    induction hall with
    | nil => exact .nil
    | cons hc _ ihl =>
      simp only [List.mem_cons, not_or] at hnot
      exact .cons (ih _ (by simp) _ (Ne.symm hnot.1) hc)
        (ihl (fun c hc => ih c (by simp [hc])) hnot.2)

omit [DecidableEq Poc] in
/-- Plans of the children make a plan. -/
theorem assembled_of_children {poc : Poc} {b : CCostContext Poc} (hb : b ∈ (contexts poc).pccBest)
    (h : ∀ q ∈ b.pdrgpoc, ∃ plan : Plan Poc, plan.Assembled (bestOf contexts) q) :
    ∃ plan : Plan Poc, plan.Assembled (bestOf contexts) poc := by
  obtain ⟨children, hall⟩ := forall₂_of_forall_exists h
  exact ⟨.node b.toAlternative children, ⟨b, hb, rfl⟩, Plan.assembledAll_iff.2 hall⟩

variable {run : List (Poc × Alternative Poc)}

/-- One step of a run keeps the invariant. -/
theorem optimizeStep_inv (hcosts : costs.Proper useMaxCosting) {step : Poc × Alternative Poc}
    (hinv : RunInv useMaxCosting costs run contexts) (hlater : ∀ s ∈ run, step.1 ∉ s.2.pdrgpoc)
    (hself : step.1 ∉ step.2.pdrgpoc) :
    RunInv useMaxCosting costs (run ++ [step])
      (optimizeStep useMaxCosting false costs contexts step) := by
  obtain ⟨poc, alt⟩ := step
  simp only at hlater hself
  unfold optimizeStep
  split
  · next hnone =>
    refine ⟨hinv.proper, fun q c hc => ?_, hinv.costed, hinv.keeps, fun s hs pdCost hpd => ?_,
      hinv.plan⟩
    · exact List.mem_append_left _ (hinv.offered q c hc)
    · rcases List.mem_append.1 hs with hs | hs
      · exact hinv.covers s hs pdCost hpd
      · obtain rfl := List.mem_singleton.1 hs
        simp only at hnone
        rw [hnone] at hpd
        cases hpd
  next pdCost hpd =>
  simp only at hpd
  obtain ⟨hchild, hfrom⟩ := childCosts_some hpd
  set pcc : CCostContext Poc := ⟨alt, operatorCost useMaxCosting costs poc alt pdCost⟩ with hpcc
  have hproper : pcc.cost.Proper useMaxCosting := by
    refine costOver_proper (hcosts _ _ _) fun c hc => ?_
    obtain ⟨q, b, hb, rfl⟩ := hfrom c hc
    exact hinv.proper q b (.inr hb)
  obtain ⟨hspec, hnew⟩ := computeCost_spec (hinv.keeps poc) hproper.eq_invalidCost
    fun c hc => (hinv.proper poc c (.inl hc)).eq_invalidCost
  generalize computeCost useMaxCosting false (contexts poc) pcc = poc' at hspec hnew
  -- nothing that is known has `poc` among its children
  have hnot : ∀ q c, Known (contexts q) c → poc ∉ c.pdrgpoc :=
    fun q c hc => hlater _ (hinv.offered q c hc)
  have hknown : ∀ q c, Known (Function.update contexts poc poc' q) c →
      (q = poc ∧ c = pcc) ∨ Known (contexts q) c := by
    intro q c hc
    by_cases hq : q = poc
    · subst hq
      rw [Function.update_self] at hc
      rcases hc with hc | hc
      · exact (hspec.sht c hc).imp (⟨rfl, ·⟩) .inl
      · rcases hspec.best c hc with rfl | hc | hc
        · exact .inl ⟨rfl, rfl⟩
        · exact .inr (.inr hc)
        · exact .inr (.inl hc)
    · rw [Function.update_of_ne hq] at hc
      exact .inr hc
  refine ⟨fun q c hc => ?_, fun q c hc => ?_, fun q c hc => ?_, fun q => ?_,
    fun s hs pdCost' hpd' => ?_, fun q hq => ?_⟩
  · rcases hknown q c hc with ⟨-, rfl⟩ | hc
    · exact hproper
    · exact hinv.proper q c hc
  · rcases hknown q c hc with ⟨rfl, rfl⟩ | hc
    · exact List.mem_append_right _ (List.mem_singleton_self _)
    · exact List.mem_append_left _ (hinv.offered q c hc)
  · rcases hknown q c hc with ⟨rfl, rfl⟩ | hc
    · exact ⟨pdCost, by rw [childCosts_update hself]; exact hpd, rfl⟩
    · obtain ⟨pdCost', hpd', hcost⟩ := hinv.costed q c hc
      exact ⟨pdCost', by rw [childCosts_update (hnot q c hc)]; exact hpd', hcost⟩
  · by_cases hq : q = poc
    · subst hq
      rw [Function.update_self]
      exact hspec.keeps
    · rw [Function.update_of_ne hq]
      exact hinv.keeps q
  · rcases List.mem_append.1 hs with hs | hs
    · rw [childCosts_update (hlater s hs)] at hpd'
      obtain ⟨b, hb, hle⟩ := hinv.covers s hs pdCost' hpd'
      by_cases hq : s.1 = poc
      · rw [hq] at hb ⊢
        obtain ⟨b', hb', hle'⟩ := hspec.better b hb
        rw [hq] at hle
        exact ⟨b', by rwa [Function.update_self], hle'.trans hle⟩
      · exact ⟨b, by rwa [Function.update_of_ne hq], hle⟩
    · obtain rfl := List.mem_singleton.1 hs
      rw [childCosts_update hself, hpd] at hpd'
      obtain rfl := Option.some.inj hpd'
      rw [Function.update_self]
      by_cases hexists : fCostContextExists alt (contexts poc) = true
      · -- a context over the same children has the same cost
        obtain ⟨c, hc, hsame⟩ := List.any_eq_true.1 hexists
        simp only [Bool.and_eq_true, decide_eq_true_eq] at hsame
        obtain ⟨pdCost', hpd', hcost⟩ := hinv.costed poc c (.inl hc)
        rw [hsame.2, hpd] at hpd'
        obtain rfl := Option.some.inj hpd'
        obtain ⟨b, hb, hle⟩ := hinv.keeps poc c hc
        obtain ⟨b', hb', hle'⟩ := hspec.better b hb
        refine ⟨b', hb', hle'.trans (hle.trans (le_of_eq ?_))⟩
        rw [hcost, operatorCost, operatorCost, hsame.1, hsame.2]
      · exact hnew (by simpa using hexists)
  · -- a kept plan of the changed context, from kept plans of its children
    have hkeep : ∀ q, q ≠ poc → (contexts q).pccBest.isSome →
        ∃ plan : Plan Poc, plan.Assembled (bestOf (Function.update contexts poc poc')) q := by
      intro q hq hsome
      obtain ⟨plan, hplan⟩ := hinv.plan q hsome
      exact ⟨plan, assembled_update (fun q b hb => hnot q b (.inr hb)) plan q hq hplan⟩
    by_cases hq' : q = poc
    · subst hq'
      obtain ⟨b, hb⟩ := Option.isSome_iff_exists.1 hq
      have hb' : Known (Function.update contexts q poc' q) b := .inr hb
      refine assembled_of_children hb fun r hr => ?_
      rcases hknown q b hb' with ⟨-, rfl⟩ | hold
      · exact hkeep r (fun h => hself (h ▸ hr)) (hchild r hr)
      · obtain ⟨pdCost', hpd', -⟩ := hinv.costed q b hold
        exact hkeep r (fun h => hnot q b hold (h ▸ hr)) ((childCosts_some hpd').1 r hr)
    · rw [Function.update_of_ne hq'] at hq
      exact hkeep q hq' hq

/-- The invariant holds after every run that goes bottom up. -/
theorem optimize_inv (hcosts : costs.Proper useMaxCosting) (hrun : ChildrenFirst run) :
    RunInv useMaxCosting costs run (optimize useMaxCosting false costs run) := by
  induction run using List.reverseRecOn with
  | nil =>
    refine ⟨?_, ?_, ?_, ?_, ?_, ?_⟩ <;> simp [optimize, Known, KeepsBest]
  | append_singleton run step ih =>
    obtain ⟨hlater, hself⟩ := hrun
    rw [List.pairwise_append] at hlater
    have hrun' : ChildrenFirst run := ⟨hlater.1, fun s hs => hself s (by simp [hs])⟩
    rw [optimize, List.foldl_append]
    exact optimizeStep_inv hcosts (ih hrun') (fun s hs => hlater.2.2 s hs step (by simp))
      (hself step (by simp))

omit [DecidableEq Poc] in
/-- Costs of the children of a plan, related to the best costs of their contexts. -/
theorem childCosts_of_assembled (useMaxCosting : Bool) (costs : OperatorCosts Poc)
    {choice : Poc → Alternative Poc → Prop} {Q : CCost → CCost → Prop} {pocs : List Poc}
    {children : List (Plan Poc)} (hall : Plan.AssembledAll choice pocs children)
    (h : ∀ plan ∈ children, ∀ q, plan.Assembled choice q →
      ∃ b ∈ (contexts q).pccBest, Q b.cost (plan.cost useMaxCosting costs q)) :
    ∃ pdCost, childCosts contexts pocs = some pdCost ∧
      List.Forall₂ Q pdCost (Plan.costAll useMaxCosting costs pocs children) := by
  rw [Plan.assembledAll_iff] at hall
  induction hall with
  | nil => exact ⟨[], rfl, .nil⟩
  | cons hc _ ih =>
    obtain ⟨b, hb, hQ⟩ := h _ (by simp) _ hc
    obtain ⟨rest, hrest, hQs⟩ := ih fun plan hplan => h plan (by simp [hplan])
    exact ⟨b.cost :: rest, childCosts_cons.2 ⟨b, hb, rest, hrest, rfl⟩, .cons hQ hQs⟩

omit [DecidableEq Poc] in
theorem proper_of_childCosts (hinv : RunInv useMaxCosting costs run contexts) {pocs : List Poc}
    (h : childCosts contexts pocs = some pdCost) : ∀ c ∈ pdCost, c.Proper useMaxCosting := by
  intro c hc
  obtain ⟨q, b, hb, rfl⟩ := (childCosts_some h).2 c hc
  exact hinv.proper q b (.inr hb)

omit [DecidableEq Poc] in
/-- The cost of the best context is the cost of the kept plan. -/
theorem cost_of_kept (hinv : RunInv useMaxCosting costs run contexts) (plan : Plan Poc) :
    ∀ poc, plan.Assembled (bestOf contexts) poc →
      ∃ b ∈ (contexts poc).pccBest, b.cost = plan.cost useMaxCosting costs poc := by
  induction plan using Plan.induction with
  | node alt children ih =>
    rintro poc ⟨⟨b, hb, rfl⟩, hall⟩
    obtain ⟨pdCost, hpd, hcost⟩ := hinv.costed poc b (.inr hb)
    obtain ⟨pdCost', hpd', heq⟩ := childCosts_of_assembled useMaxCosting costs
      (Q := (· = ·)) hall ih
    rw [hpd] at hpd'
    obtain rfl := Option.some.inj hpd'
    rw [List.forall₂_eq_eq_eq] at heq
    exact ⟨b, hb, by rw [hcost, Plan.cost, heq]⟩

omit [DecidableEq Poc] in
/-- In the sum mode no plan is cheaper than the best context. -/
theorem best_le_cost (hcosts : costs.Proper false) (hinv : RunInv false costs run contexts)
    (plan : Plan Poc) :
    ∀ poc, plan.Assembled (fun poc alt => (poc, alt) ∈ run) poc →
      ∃ b ∈ (contexts poc).pccBest, b.cost.dCost ≤ (plan.cost false costs poc).dCost := by
  induction plan using Plan.induction with
  | node alt children ih =>
    rintro poc ⟨hmem, hall⟩
    obtain ⟨pdCost, hpd, hle⟩ :=
      childCosts_of_assembled false costs (Q := fun c c' => c.dCost ≤ c'.dCost) hall ih
    obtain ⟨b, hb, hbest⟩ := hinv.covers _ hmem pdCost hpd
    refine ⟨b, hb, hbest.trans ?_⟩
    refine costOver_mono (hcosts _ _ _).plain (hcosts _ _ _).plain le_rfl
      (fun c hc => (proper_of_childCosts hinv hpd c hc).plain) (fun c hc => ?_) hle
    obtain ⟨q, child, -, rfl⟩ := Plan.mem_costAll hc
    exact (Plan.cost_proper hcosts q child).plain

omit [DecidableEq Poc] in
/-- In the maximum mode the best context costs at most the entries of any plan together. -/
theorem best_le_costSum (hcosts : costs.Proper true)
    (hsum : ∀ step ∈ run, costs.fParallelUnionAll step.2.pgexpr = false)
    (hinv : RunInv true costs run contexts) (plan : Plan Poc) :
    ∀ poc, plan.Assembled (fun poc alt => (poc, alt) ∈ run) poc →
      ∃ b ∈ (contexts poc).pccBest, b.cost.dCost ≤ (plan.cost true costs poc).costSum := by
  induction plan using Plan.induction with
  | node alt children ih =>
    rintro poc ⟨hmem, hall⟩
    obtain ⟨pdCost, hpd, hle⟩ :=
      childCosts_of_assembled true costs (Q := fun c c' => c.dCost ≤ c'.costSum) hall ih
    obtain ⟨b, hb, hbest⟩ := hinv.covers _ hmem pdCost hpd
    exact ⟨b, hb, hbest.trans (operatorCost_le_costSum hcosts (hsum _ hmem) hle
      (proper_of_childCosts hinv hpd))⟩

/-! ## The plan of a request -/

omit [DecidableEq Poc] in
/-- After some search stages the lookup holds a cheapest of their best contexts. -/
theorem lookupStep_spec (useMaxCosting : Bool) (contexts : Contexts Poc) (stages : List Poc) :
    let best := stages.foldl (lookupStep useMaxCosting false contexts) (none, none)
    (best.2 = none → ∀ q ∈ stages, (contexts q).pccBest = none) ∧
      ∀ b ∈ best.2, ∃ poc, best.1 = some poc ∧ (contexts poc).pccBest = some b ∧
        ∀ q ∈ stages, ∀ c ∈ (contexts q).pccBest, b.cost.dCost ≤ c.cost.dCost := by
  induction stages using List.reverseRecOn with
  | nil => simp
  | append_singleton stages q ih =>
    obtain ⟨hnone, hsome⟩ := ih
    simp only [List.foldl_append, List.foldl_cons, List.foldl_nil]
    generalize stages.foldl (lookupStep useMaxCosting false contexts) (none, none) = best
      at hnone hsome ⊢
    obtain ⟨pocBest, _ | pccBest⟩ := best
    · simp only [lookupStep, List.forall_mem_append, List.forall_mem_singleton]
      refine ⟨fun h => ⟨hnone rfl, h⟩, fun b hb => ⟨q, rfl, hb, fun r hr c hc => ?_, fun c hc => ?_⟩⟩
      · rw [hnone rfl r hr] at hc
        cases hc
      · rw [hb] at hc
        exact (Option.some.inj hc) ▸ le_rfl
    · obtain ⟨poc, hpoc, hbest, hle⟩ := hsome pccBest rfl
      simp only [lookupStep]
      cases hq : (contexts q).pccBest with
      | none =>
        refine ⟨fun h => (by cases h), fun b hb => ?_⟩
        obtain rfl := Option.some.inj hb
        refine ⟨poc, hpoc, hbest, ?_⟩
        simpa [hq, or_imp, forall_and] using hle
      | some pccCurrent =>
        simp only
        split
        · next hlt =>
          refine ⟨fun h => (by cases h), fun b hb => ?_⟩
          obtain rfl := Option.some.inj hb
          refine ⟨q, rfl, hq, fun r hr c hc => ?_⟩
          rcases List.mem_append.1 hr with hr | hr
          · exact (fBetterThan_dCost.1 hlt).trans (hle r hr c hc)
          · obtain rfl := List.mem_singleton.1 hr
            rw [hq] at hc
            exact (Option.some.inj hc) ▸ le_rfl
        · next hge =>
          refine ⟨fun h => (by cases h), fun b hb => ?_⟩
          obtain rfl := Option.some.inj hb
          refine ⟨poc, hpoc, hbest, fun r hr c hc => ?_⟩
          rcases List.mem_append.1 hr with hr | hr
          · exact hle r hr c hc
          · obtain rfl := List.mem_singleton.1 hr
            rw [hq] at hc
            obtain rfl := Option.some.inj hc
            exact fBetterThan_dCost.2 (by simpa using hge)

omit [DecidableEq Poc] in
/-- `PocLookupBest` finds a context whose best plan costs least among all search stages. -/
theorem pocLookupBest_spec (useMaxCosting : Bool) (contexts : Contexts Poc) {stages : List Poc} {poc : Poc}
    (hpoc : poc ∈ stages) (hsome : (contexts poc).pccBest.isSome) :
    ∃ best, pocLookupBest useMaxCosting false contexts stages = some best ∧
      ∃ b ∈ (contexts best).pccBest, ∀ q ∈ stages, ∀ c ∈ (contexts q).pccBest,
        b.cost.dCost ≤ c.cost.dCost := by
  obtain ⟨hnone, hbest⟩ := lookupStep_spec useMaxCosting contexts stages
  unfold pocLookupBest
  generalize stages.foldl (lookupStep useMaxCosting false contexts) (none, none) = best
    at hnone hbest ⊢
  obtain ⟨pocBest, _ | b⟩ := best
  · rw [hnone rfl poc hpoc] at hsome
    cases hsome
  · obtain ⟨best, rfl, hb, hle⟩ := hbest b rfl
    exact ⟨best, rfl, b, hb, hle⟩

omit [DecidableEq Poc] in
/-- A context that has a plan has a best one. -/
theorem best_exists (hinv : RunInv useMaxCosting costs run contexts) (plan : Plan Poc) :
    ∀ poc, plan.Assembled (fun poc alt => (poc, alt) ∈ run) poc →
      ∃ b ∈ (contexts poc).pccBest, True := by
  induction plan using Plan.induction with
  | node alt children ih =>
    rintro poc ⟨hmem, hall⟩
    obtain ⟨pdCost, hpd, -⟩ := childCosts_of_assembled useMaxCosting costs
      (Q := fun _ _ => True) hall ih
    obtain ⟨b, hb, -⟩ := hinv.covers _ hmem pdCost hpd
    exact ⟨b, hb, trivial⟩

end Run

section Examples

/-- A plan root without traits. -/
def plainAlternative (pgexpr : ℕ) (pdrgpoc : List ℕ) : Alternative ℕ :=
  ⟨pgexpr, 0, pdrgpoc, ⟨false, false, false, false, false, false, none, none, false⟩⟩

/-- Two scans on different engines, and a filter on the engine of the first. -/
def twoEngines : OperatorCosts ℕ where
  costLocal pgexpr _ _ := if pgexpr = 1 then .ofEngine 11 3 else .ofEngine 10 2
  fParallelUnionAll _ := false

/-- Both scans are costed in context 0, then the filter over it in context 1. -/
def filterOverScan : List (ℕ × Alternative ℕ) :=
  [(0, plainAlternative 0 []), (0, plainAlternative 1 []), (1, plainAlternative 2 [0])]

/-- The filter over one of the scans. -/
def filterPlan (scan : ℕ) : Plan ℕ :=
  .node (plainAlternative 2 [0]) [.node (plainAlternative scan []) []]

theorem twoEngines_proper (useMaxCosting : Bool) : twoEngines.Proper useMaxCosting := by
  intro pgexpr _ _
  simp only [twoEngines]
  split <;> exact CCost.ofEngine_proper (by norm_num) _

theorem filterOverScan_childrenFirst : ChildrenFirst filterOverScan :=
  ⟨by decide, by decide⟩

theorem filterPlan_assembled {scan : ℕ} (h : (0, plainAlternative scan []) ∈ filterOverScan) :
    (filterPlan scan).Assembled (fun poc alt => (poc, alt) ∈ filterOverScan) 1 :=
  ⟨by decide, ⟨h, trivial⟩, trivial⟩

/-- The cheaper scan is kept. -/
theorem filterPlan_kept (useMaxCosting : Bool) :
    (filterPlan 0).Assembled
      (bestOf (optimize useMaxCosting false twoEngines filterOverScan)) 1 := by
  refine ⟨⟨⟨plainAlternative 2 [0], operatorCost useMaxCosting twoEngines 1
    (plainAlternative 2 [0]) [.ofEngine 10 2]⟩, ?_, rfl⟩, ⟨⟨⟨plainAlternative 0 [],
      .ofEngine 10 2⟩, ?_, rfl⟩, trivial⟩, trivial⟩
  · cases useMaxCosting <;> decide +kernel
  · cases useMaxCosting <;> decide +kernel

end Examples

end BossOptimizer

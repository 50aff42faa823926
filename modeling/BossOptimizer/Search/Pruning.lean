import BossOptimizer.Search.CostBound
import Mathlib.Tactic.Positivity

/-!
# Pruning: `CEngine::FSafeToPrune` and optimization with and without it

The engines optimize an expression under a context in three steps. It may be pruned before any
child is optimized; it may be pruned again when a child is optimized (the recursive engine asks
after the first child, the scheduler after each child but the last); and once all children are
optimized it asks for its enforcers and, if it needs none, is costed. The steps of different
expressions and contexts come in any order.

A pruned expression is recorded with its bound, in a cost context that is never offered to
`UpdateBestCost`; the record is left out. One search stage is modelled: `PocLookupBest` looks up
the context itself.

The bound is a bound where costs behave like numbers. In the maximum mode costs that are tagged
with engines do not: `operator<` does not order them below the untagged infinite cost that
`CGroup::CostLowerBound` starts from.
-/

namespace BossOptimizer

variable {Poc : Type}

/-- `EopttraceEnableSpacePruning` and `EopttraceDeriveStatsForDPE`. -/
structure TraceFlags where
  fEnableSpacePruning : Bool
  fDeriveStatsForDPE : Bool

namespace SearchSpace

section Prune

variable [DecidableEq Poc] (space : SearchSpace Poc) (useMaxCosting : Bool)
  (costs : BoundingCosts Poc) (flags : TraceFlags)

/-- `UlNextOptimizedChildIndex` (CExpressionHandle.cpp:1636). -/
def ulNextOptimizedChildIndex (pgexpr ulChildIndex : ℕ) : Option ℕ :=
  if space.fRightToLeft pgexpr then
    if 0 < ulChildIndex then some (ulChildIndex - 1) else none
  else if (space.children pgexpr).length - 1 > ulChildIndex then some (ulChildIndex + 1)
  else none

/-- `FSafeToPruneWithDPEStats` (CEngine.cpp:575). -/
def fSafeToPruneWithDPEStats (poc : Poc) (pgexpr : ℕ) (child : Option (KnownChild Poc)) : Bool :=
  match child with
  | none => !decide (0 < space.ulConsumers (space.pgroup poc))
  | some known =>
    ((space.ulNextOptimizedChildIndex pgexpr known.ulChildIndex).bind
      ((space.children pgexpr)[·]?)).all fun pgroupNext => !decide (0 < space.ulConsumers pgroupNext)

/-- `FSafeToPrune` (CEngine.cpp:625), over the best cost context of the request. -/
def fSafeToPrune (caches : CostCaches Poc) (poc : Poc) (pgexpr : ℕ)
    (child : Option (KnownChild Poc)) (pccBest : Option (CCostContext Poc)) :
    Option (CostCaches Poc × Bool) :=
  if !flags.fEnableSpacePruning then some (caches, false)
  else if flags.fDeriveStatsForDPE && !space.fSafeToPruneWithDPEStats poc pgexpr child then
    some (caches, false)
  else
    match pccBest with
    | none => some (caches, false)
    | some pccBest =>
      (space.gexprCostLowerBound useMaxCosting costs
        (space.groupCostLowerBound useMaxCosting costs (space.rank (space.pgroup poc) + 1)) caches
        ⟨pgexpr, space.pcrsRequired poc, some (space.ped poc), child⟩).map fun r =>
          (r.1, CCost.gt useMaxCosting r.2 pccBest.cost)

end Prune

end SearchSpace

/-- An optimization under way. -/
structure SearchState (Poc : Type) where
  contexts : Contexts Poc
  caches : CostCaches Poc
  /-- The enforcers that are in the memo. -/
  present : List ℕ
  /-- What has been pruned, costed or given up. -/
  finished : List (Poc × Alternative Poc)
  /-- The contexts in the state `estOptimized`. -/
  completed : List Poc

namespace SearchState

/-- Nothing is optimized yet. -/
def init (present : List ℕ) : SearchState Poc :=
  ⟨fun _ => ⟨none, []⟩, .empty, present, [], []⟩

/-- The expression can be optimized under the context. -/
structure Open (space : SearchSpace Poc) (s : SearchState Poc) (poc : Poc)
    (alt : Alternative Poc) : Prop where
  alternative : alt ∈ space.alternatives poc
  present : space.fEnforcer alt.pgexpr = true → alt.pgexpr ∈ s.present
  completed : poc ∉ s.completed

/-- The child is optimized, and this is its best plan. -/
structure Optimized (s : SearchState Poc) (alt : Alternative Poc) (known : KnownChild Poc) :
    Prop where
  index : alt.pdrgpoc[known.ulChildIndex]? = some known.poc
  completed : known.poc ∈ s.completed
  best : (s.contexts known.poc).pccBest = some known.pccChild

variable [DecidableEq Poc]

/-- `FSafeToPrune` was asked: the caches may have changed. -/
def checked (s : SearchState Poc) (poc : Poc) (alt : Alternative Poc)
    (answer : CostCaches Poc × Bool) : SearchState Poc :=
  { s with
    caches := answer.1
    finished := if answer.2 then (poc, alt) :: s.finished else s.finished }

/-- `EevtAddEnforcers` and `EevtOptimizeSelf`. -/
def optimizeSelf (space : SearchSpace Poc) (useMaxCosting : Bool) (costs : BoundingCosts Poc)
    (s : SearchState Poc) (poc : Poc) (alt : Alternative Poc) : SearchState Poc :=
  { s with
    contexts :=
      if space.fCheckEnfdProps poc alt then
        optimizeStep useMaxCosting false costs.toOperatorCosts s.contexts (poc, alt)
      else s.contexts
    present := s.present ++ space.enforcers poc alt
    finished := (poc, alt) :: s.finished }

/-- One step of an engine. -/
inductive Step (space : SearchSpace Poc) (useMaxCosting : Bool) (costs : BoundingCosts Poc)
    (flags : TraceFlags) (s : SearchState Poc) : SearchState Poc → Prop
  | check (poc : Poc) (alt : Alternative Poc) (child : Option (KnownChild Poc))
      (answer : CostCaches Poc × Bool) (hopen : s.Open space poc alt)
      (hchild : ∀ known ∈ child, s.Optimized alt known)
      (h : space.fSafeToPrune useMaxCosting costs flags s.caches poc alt.pgexpr child
        (s.contexts poc).pccBest = some answer) :
      Step space useMaxCosting costs flags s (s.checked poc alt answer)
  | optimize (poc : Poc) (alt : Alternative Poc) (hopen : s.Open space poc alt)
      (hchildren : ∀ q ∈ alt.pdrgpoc, q ∈ s.completed ∧ (s.contexts q).pccBest.isSome) :
      Step space useMaxCosting costs flags s (s.optimizeSelf space useMaxCosting costs poc alt)
  /-- A child has no plan. -/
  | fail (poc : Poc) (alt : Alternative Poc) (q : Poc) (hopen : s.Open space poc alt)
      (hq : q ∈ alt.pdrgpoc) (hcompleted : q ∈ s.completed)
      (hnone : (s.contexts q).pccBest = none) :
      Step space useMaxCosting costs flags s { s with finished := (poc, alt) :: s.finished }
  | complete (poc : Poc)
      (h : ∀ alt, s.Open space poc alt → (poc, alt) ∈ s.finished) :
      Step space useMaxCosting costs flags s { s with completed := poc :: s.completed }

/-- What an optimization can reach. -/
inductive Reachable (space : SearchSpace Poc) (useMaxCosting : Bool) (costs : BoundingCosts Poc)
    (flags : TraceFlags) (present : List ℕ) : SearchState Poc → Prop
  | init : Reachable space useMaxCosting costs flags present (.init present)
  | step {s s' : SearchState Poc} (hs : Reachable space useMaxCosting costs flags present s)
      (h : Step space useMaxCosting costs flags s s') :
      Reachable space useMaxCosting costs flags present s'

/-! ## Plans of an optimization under way -/

section Plans

omit [DecidableEq Poc]

/-- What a plan of the memo may be assembled from: a context that is completed was offered certain
    expressions, any other context may still be offered all of them. -/
def Offers (space : SearchSpace Poc) (s : SearchState Poc) (poc : Poc) (alt : Alternative Poc) :
    Prop :=
  space.Admits poc alt ∧ (poc ∈ s.completed → (poc, alt) ∈ s.finished)

/-- What a plan of optimized contexts is assembled from. -/
def Considered (space : SearchSpace Poc) (s : SearchState Poc) (poc : Poc)
    (alt : Alternative Poc) : Prop :=
  space.Admits poc alt ∧ poc ∈ s.completed ∧ (poc, alt) ∈ s.finished

/-- Where a cost context comes from: it is a plan over optimized contexts. -/
structure Costed (space : SearchSpace Poc) (useMaxCosting : Bool) (costs : BoundingCosts Poc)
    (s : SearchState Poc) (poc : Poc) (c : CCostContext Poc) : Prop where
  admits : space.Admits poc c.toAlternative
  finished : (poc, c.toAlternative) ∈ s.finished
  completed : ∀ q ∈ c.pdrgpoc, q ∈ s.completed
  cost : ∃ pdCost, childCosts s.contexts c.pdrgpoc = some pdCost ∧
    c.cost = operatorCost useMaxCosting costs.toOperatorCosts poc c.toAlternative pdCost
  plan : ∃ children, Plan.AssembledAll (s.Considered space) c.pdrgpoc children ∧
    c.cost = (Plan.node c.toAlternative children).cost useMaxCosting costs.toOperatorCosts poc

/-- What holds at any time of an optimization. -/
structure Inv (space : SearchSpace Poc) (useMaxCosting : Bool) (costs : BoundingCosts Poc)
    (s : SearchState Poc) : Prop where
  caches : space.CachesBelow useMaxCosting costs s.caches
  costed : ∀ poc c, Known (s.contexts poc) c → s.Costed space useMaxCosting costs poc c
  keeps : ∀ poc, KeepsBest (s.contexts poc)
  covers : ∀ poc alt children, (poc, alt) ∈ s.finished →
    (Plan.node alt children).Assembled (s.Offers space) poc →
      ∃ b ∈ (s.contexts poc).pccBest, b.cost.dCost ≤
        ((Plan.node alt children).cost useMaxCosting costs.toOperatorCosts poc).dCost

variable {space : SearchSpace Poc} {useMaxCosting : Bool} {costs : BoundingCosts Poc}
  {s : SearchState Poc}

theorem Costed.plain (hcosts : space.Monotone useMaxCosting costs) {poc : Poc}
    {c : CCostContext Poc} (h : s.Costed space useMaxCosting costs poc c) :
    c.cost.Plain useMaxCosting := by
  obtain ⟨children, -, hcost⟩ := h.plan
  rw [hcost]
  exact hcosts.cost_plain _ poc

/-- The best plan of a completed context is the cheapest. -/
theorem Inv.best_le (hinv : s.Inv space useMaxCosting costs) {poc : Poc} (hpoc : poc ∈ s.completed)
    {plan : Plan Poc} (hplan : plan.Assembled (s.Offers space) poc) :
    ∃ b ∈ (s.contexts poc).pccBest,
      b.cost.dCost ≤ (plan.cost useMaxCosting costs.toOperatorCosts poc).dCost := by
  obtain ⟨alt, children⟩ := plan
  exact hinv.covers poc alt children (hplan.1.2 hpoc) hplan

end Plans

/-! ## What a step preserves -/

section Steps

variable {space : SearchSpace Poc} {useMaxCosting : Bool} {costs : BoundingCosts Poc}
  {s : SearchState Poc}

omit [DecidableEq Poc] in
theorem childCosts_congr {contexts contexts' : Contexts Poc} {pdrgpoc : List Poc}
    (h : ∀ q ∈ pdrgpoc, contexts' q = contexts q) :
    childCosts contexts' pdrgpoc = childCosts contexts pdrgpoc := by
  unfold childCosts
  induction pdrgpoc with
  | nil => rfl
  | cons q qs ih =>
    simp only [List.mem_cons, forall_eq_or_imp] at h
    simp only [List.mapM_cons, ih h.2, h.1]

variable {alt : Alternative Poc} {poc : Poc}

omit [DecidableEq Poc] in
/-- What `FSafeToPrune` does: the caches stay sound, and an expression is pruned only if no plan
    that is rooted in it, and goes on with a plan of the known child that is not cheaper than the
    known one, is cheaper than the best plan. -/
theorem fSafeToPrune_below [DecidableEq Poc] (hcosts : space.Monotone useMaxCosting costs)
    (flags : TraceFlags) (halt : alt ∈ space.alternatives poc) {child : Option (KnownChild Poc)}
    (hknown : ∀ known ∈ child, known.pccChild.cost.Plain useMaxCosting) {caches : CostCaches Poc}
    (hcaches : space.CachesBelow useMaxCosting costs caches) {pccBest : Option (CCostContext Poc)}
    (hbest : ∀ b ∈ pccBest, b.cost.Plain useMaxCosting) :
    Ensures (space.fSafeToPrune useMaxCosting costs flags caches poc alt.pgexpr child pccBest)
      fun answer => space.CachesBelow useMaxCosting costs answer.1 ∧
        (answer.2 = true → ∀ children,
          space.Completes useMaxCosting costs
            ⟨alt.pgexpr, space.pcrsRequired poc, some (space.ped poc), child⟩ poc alt children →
          ∃ b ∈ pccBest, b.cost.dCost ≤
            ((Plan.node alt children).cost useMaxCosting costs.toOperatorCosts poc).dCost) := by
  unfold SearchSpace.fSafeToPrune
  split
  · exact .some ⟨hcaches, fun h => by cases h⟩
  split
  · exact .some ⟨hcaches, fun h => by cases h⟩
  cases pccBest with
  | none => exact .some ⟨hcaches, fun h => by cases h⟩
  | some b =>
    have hmem := space.mem_gexprs poc alt halt
    have hlower : ∀ g ∈ space.children alt.pgexpr, space.BoundsGroup useMaxCosting costs
        (space.groupCostLowerBound useMaxCosting costs (space.rank (space.pgroup poc) + 1)) g := by
      intro g hg
      refine SearchSpace.groupCostLowerBound_below hcosts _ g ?_
      cases henf : space.fEnforcer alt.pgexpr with
      | false => exact (space.rank_children _ _ hmem henf g hg).trans (Nat.lt_succ_self _)
      | true =>
        rw [space.children_enforcer _ _ hmem henf, List.mem_singleton] at hg
        exact hg ▸ Nat.lt_succ_self _
    refine (SearchSpace.gexprCostLowerBound_below hcosts hknown hlower hcaches).map fun r hr => ?_
    obtain ⟨hcaches', hplain, hbelow⟩ := hr
    refine ⟨hcaches', fun hgt children hc => ⟨b, rfl, ?_⟩⟩
    have hlt := (CCost.lt_iff_plain (hbest b rfl) hplain).1 hgt
    exact hlt.le.trans (hbelow poc alt children hc)

variable {s' : SearchState Poc}

omit [DecidableEq Poc] in
/-- Costed contexts stay so while optimized contexts do not change. -/
theorem Costed.mono {c : CCostContext Poc} (h : s.Costed space useMaxCosting costs poc c)
    (hcontexts : ∀ q ∈ s.completed, s'.contexts q = s.contexts q)
    (hfinished : ∀ x ∈ s.finished, x ∈ s'.finished)
    (hcompleted : ∀ q ∈ s.completed, q ∈ s'.completed) :
    s'.Costed space useMaxCosting costs poc c := by
  obtain ⟨pdCost, hpd, hcost⟩ := h.cost
  obtain ⟨children, hall, hplan⟩ := h.plan
  refine ⟨h.admits, hfinished _ h.finished, fun q hq => hcompleted q (h.completed q hq),
    ⟨pdCost, ?_, hcost⟩, children, hall.mono fun q alt hq => ?_, hplan⟩
  · rw [childCosts_congr fun q hq => hcontexts q (h.completed q hq)]
    exact hpd
  · exact ⟨hq.1, hcompleted q hq.2.1, hfinished _ hq.2.2⟩

omit [DecidableEq Poc] in
/-- What is common to the steps that finish an expression: the caches stay sound, and the context
    of the expression, the only one that changes, keeps the best of the plans it has and of the
    plans of the expression. -/
theorem Inv.finish (hinv : s.Inv space useMaxCosting costs) (hopen : s.Open space poc alt)
    {contexts : Contexts Poc} {caches : CostCaches Poc} (present : List ℕ)
    (hcaches : space.CachesBelow useMaxCosting costs caches)
    (hother : ∀ q, q ≠ poc → contexts q = s.contexts q)
    (hknown : ∀ c, Known (contexts poc) c → Known (s.contexts poc) c ∨
      Costed space useMaxCosting costs { s with finished := (poc, alt) :: s.finished } poc c)
    (hkeeps : KeepsBest (contexts poc))
    (hbetter : ∀ b ∈ (s.contexts poc).pccBest, ∃ b' ∈ (contexts poc).pccBest,
      b'.cost.dCost ≤ b.cost.dCost)
    (hnew : ∀ children, (Plan.node alt children).Assembled (s.Offers space) poc →
      ∃ b ∈ (contexts poc).pccBest, b.cost.dCost ≤
        ((Plan.node alt children).cost useMaxCosting costs.toOperatorCosts poc).dCost) :
    Inv space useMaxCosting costs
      ⟨contexts, caches, present, (poc, alt) :: s.finished, s.completed⟩ := by
  set s' : SearchState Poc :=
    ⟨contexts, caches, present, (poc, alt) :: s.finished, s.completed⟩ with hs'
  have hsame : ∀ q ∈ s.completed, contexts q = s.contexts q :=
    fun q hq => hother q fun h => hopen.completed (h ▸ hq)
  have hkeep : ∀ q c, s.Costed space useMaxCosting costs q c →
      s'.Costed space useMaxCosting costs q c := by
    intro q c hc
    exact hc.mono hsame (fun x hx => List.mem_cons_of_mem _ hx) fun q hq => hq
  -- a plan of the new state is a plan of the old one: the context is not completed
  have hoffers : ∀ q a, s'.Offers space q a → s.Offers space q a := by
    rintro q a ⟨hadmits, hfinished⟩
    refine ⟨hadmits, fun hq => ?_⟩
    rcases List.mem_cons.1 (hfinished hq) with heq | hmem
    · cases heq
      exact absurd hq hopen.completed
    · exact hmem
  refine ⟨hcaches, fun q c hc => ?_, fun q => ?_, fun q a children hmem hplan => ?_⟩
  · by_cases hq : q = poc
    · subst hq
      rcases hknown c hc with hold | hnew
      · exact hkeep q c (hinv.costed q c hold)
      · exact hnew.mono hsame (fun x hx => hx) fun q hq => hq
    · refine hkeep q c (hinv.costed q c ?_)
      rw [← hother q hq]
      exact hc
  · by_cases hq : q = poc
    · exact hq ▸ hkeeps
    · have : s'.contexts q = s.contexts q := hother q hq
      rw [this]
      exact hinv.keeps q
  · have hplan := Plan.Assembled.mono hoffers _ q hplan
    rcases List.mem_cons.1 hmem with heq | hmem
    · cases heq
      exact hnew children hplan
    · obtain ⟨b, hb, hle⟩ := hinv.covers q a children hmem hplan
      by_cases hq : q = poc
      · subst hq
        obtain ⟨b', hb', hle'⟩ := hbetter b hb
        exact ⟨b', hb', hle'.trans hle⟩
      · have : s'.contexts q = s.contexts q := hother q hq
        rw [this]
        exact ⟨b, hb, hle⟩

/-- A pruned expression has no plan that is cheaper than the best. -/
theorem Inv.checked (hcosts : space.Monotone useMaxCosting costs) (flags : TraceFlags)
    (hinv : s.Inv space useMaxCosting costs) (hopen : s.Open space poc alt)
    {child : Option (KnownChild Poc)} (hchild : ∀ known ∈ child, s.Optimized alt known)
    {answer : CostCaches Poc × Bool}
    (h : space.fSafeToPrune useMaxCosting costs flags s.caches poc alt.pgexpr child
      (s.contexts poc).pccBest = some answer) :
    space.CachesBelow useMaxCosting costs answer.1 ∧
      (answer.2 = true → ∀ children, (Plan.node alt children).Assembled space.Admits poc →
        (∀ known ∈ child, ∀ plan, children[known.ulChildIndex]? = some plan →
          plan.Assembled (s.Offers space) known.poc) →
        ∃ b ∈ (s.contexts poc).pccBest, b.cost.dCost ≤
          ((Plan.node alt children).cost useMaxCosting costs.toOperatorCosts poc).dCost) := by
  have hplain : ∀ q, ∀ b ∈ (s.contexts q).pccBest, b.cost.Plain useMaxCosting :=
    fun q b hb => (hinv.costed q b (.inr hb)).plain hcosts
  obtain ⟨answer', hanswer, hcaches, hprune⟩ := fSafeToPrune_below hcosts flags hopen.alternative
    (fun known hknown => hplain _ _ (hchild known hknown).best) hinv.caches (hplain poc)
  obtain rfl : answer' = answer := Option.some.inj (hanswer.symm.trans h)
  refine ⟨hcaches, fun htrue children hplan hknown => hprune htrue children ?_⟩
  refine ⟨rfl, Finset.Subset.refl _, by simp, hplan, fun known hmem => ?_⟩
  obtain ⟨hindex, hcompleted, hbest⟩ := hchild known hmem
  refine ⟨hindex, fun plan hget => ?_⟩
  obtain ⟨b, hb, hle⟩ := hinv.best_le hcompleted (hknown known hmem plan hget)
  obtain rfl : known.pccChild = b := Option.some.inj (hbest.symm.trans hb)
  exact hle

omit [DecidableEq Poc] in
/-- Optimized children with plans have costs, and plans. -/
theorem Inv.children (hinv : s.Inv space useMaxCosting costs) {pdrgpoc : List Poc}
    (h : ∀ q ∈ pdrgpoc, q ∈ s.completed ∧ (s.contexts q).pccBest.isSome) :
    ∃ pdCost children, childCosts s.contexts pdrgpoc = some pdCost ∧
      Plan.AssembledAll (s.Considered space) pdrgpoc children ∧
      pdCost = Plan.costAll useMaxCosting costs.toOperatorCosts pdrgpoc children := by
  induction pdrgpoc with
  | nil => exact ⟨[], [], rfl, trivial, rfl⟩
  | cons q qs ih =>
    obtain ⟨pdCost, children, hpd, hall, hcosts⟩ := ih fun r hr => h r (by simp [hr])
    obtain ⟨hcompleted, hsome⟩ := h q (by simp)
    obtain ⟨b, hb⟩ := Option.isSome_iff_exists.1 hsome
    have hcosted := hinv.costed q b (.inr hb)
    obtain ⟨grandchildren, hgrand, hcost⟩ := hcosted.plan
    refine ⟨b.cost :: pdCost, .node b.toAlternative grandchildren :: children,
      childCosts_cons.2 ⟨b, hb, pdCost, hpd, rfl⟩, ⟨⟨?_, hgrand⟩, hall⟩, ?_⟩
    · exact ⟨hcosted.admits, hcompleted, hcosted.finished⟩
    · rw [Plan.costAll, hcost, hcosts]

/-- An expression that is costed keeps the invariant. -/
theorem Inv.optimizeSelf (hcosts : space.Monotone useMaxCosting costs)
    (hinv : s.Inv space useMaxCosting costs) (hopen : s.Open space poc alt)
    (hchildren : ∀ q ∈ alt.pdrgpoc, q ∈ s.completed ∧ (s.contexts q).pccBest.isSome) :
    (s.optimizeSelf space useMaxCosting costs poc alt).Inv space useMaxCosting costs := by
  unfold SearchState.optimizeSelf
  cases henfd : space.fCheckEnfdProps poc alt with
  | false =>
    -- the enforcers are added, and nothing is costed
    simp only [Bool.false_eq_true, if_false]
    refine hinv.finish hopen _ hinv.caches (fun _ _ => rfl) (fun _ => .inl) (hinv.keeps poc)
      (fun b hb => ⟨b, hb, le_rfl⟩) fun children hplan => ?_
    have hcheck := hplan.1.1.2
    rw [henfd] at hcheck
    cases hcheck
  | true =>
    have hadmits : space.Admits poc alt := ⟨hopen.alternative, henfd⟩
    obtain ⟨pdCost, plans, hpd, hall, hcostAll⟩ := hinv.children hchildren
    set pcc : CCostContext Poc :=
      ⟨alt, operatorCost useMaxCosting costs.toOperatorCosts poc alt pdCost⟩ with hpcc
    have hplan : pcc.cost =
        (Plan.node alt plans).cost useMaxCosting costs.toOperatorCosts poc := by
      rw [hpcc, Plan.cost, hcostAll]
    have hplain : pcc.cost.Plain useMaxCosting := hplan ▸ hcosts.cost_plain _ poc
    obtain ⟨hspec, hnew⟩ := computeCost_spec (hinv.keeps poc) hplain.toProper.eq_invalidCost
      fun c hc => ((hinv.costed poc c (.inl hc)).plain hcosts).toProper.eq_invalidCost
    simp only [if_true, optimizeStep, hpd, ← hpcc]
    generalize computeCost useMaxCosting false (s.contexts poc) pcc = poc' at hspec hnew
    -- the context offered is no better than the best one after the step
    have hbest : ∃ b ∈ poc'.pccBest, b.cost.dCost ≤ pcc.cost.dCost := by
      by_cases hexists : fCostContextExists alt (s.contexts poc) = true
      · obtain ⟨c, hc, hsame⟩ := List.any_eq_true.1 hexists
        simp only [Bool.and_eq_true, decide_eq_true_eq] at hsame
        obtain ⟨pdCost', hpd', hcost⟩ := (hinv.costed poc c (.inl hc)).cost
        rw [hsame.2, hpd] at hpd'
        obtain rfl := Option.some.inj hpd'
        obtain ⟨b, hb, hle⟩ := hinv.keeps poc c hc
        obtain ⟨b', hb', hle'⟩ := hspec.better b hb
        refine ⟨b', hb', hle'.trans (hle.trans (le_of_eq ?_))⟩
        rw [hcost, hpcc, operatorCost, operatorCost, hsame.1, hsame.2]
      · exact hnew (by simpa using hexists)
    refine hinv.finish hopen _ hinv.caches (fun q hq => Function.update_of_ne hq _ _)
      (fun c hc => ?_) ?_ (fun b hb => ?_) fun children hchild => ?_
    · rw [Function.update_self] at hc
      have hold : c = pcc ∨ Known (s.contexts poc) c := by
        rcases hc with hc | hc
        · exact (hspec.sht c hc).imp id .inl
        · rcases hspec.best c hc with hc | hc | hc
          · exact .inl hc
          · exact .inr (.inr hc)
          · exact .inr (.inl hc)
      rcases hold with rfl | hold
      · refine .inr ⟨hadmits, by simp [hpcc], fun q hq => (hchildren q hq).1, ⟨pdCost, hpd, rfl⟩,
          plans, hall.mono fun q a hq => ?_, hplan⟩
        exact ⟨hq.1, hq.2.1, List.mem_cons_of_mem _ hq.2.2⟩
      · exact .inl hold
    · rw [Function.update_self]
      exact hspec.keeps
    · rw [Function.update_self]
      exact hspec.better b hb
    · rw [Function.update_self]
      obtain ⟨b, hb, hle⟩ := hbest
      refine ⟨b, hb, hle.trans ?_⟩
      -- the best plans of the children are no more expensive than those of the plan
      have hle : List.Forall₂ (fun c c' : CCost => c.dCost ≤ c'.dCost) pdCost
          (Plan.costAll useMaxCosting costs.toOperatorCosts alt.pdrgpoc children) := by
        have hassembled := Plan.assembledAll_iff.1 hchild.2
        have hchildCosts := childCosts_forall₂ hpd
        rw [SearchSpace.costAll_eq_zipWith]
        refine forall₂_of_getElem? ?_ fun i c c' hc hc' => ?_
        · rw [List.length_zipWith, ← hassembled.length_eq, ← hchildCosts.length_eq, Nat.min_self]
        · obtain ⟨q, plan, hq, hplan, rfl⟩ := List.getElem?_zipWith_eq_some.1 hc'
          obtain ⟨b, hb, rfl⟩ := rel_of_getElem? hchildCosts hq hc
          obtain ⟨b', hb', hle'⟩ := hinv.best_le (hchildren q (List.mem_of_getElem? hq)).1
            (rel_of_getElem? hassembled hq hplan)
          obtain rfl : b = b' := Option.some.inj (hb.symm.trans hb')
          exact hle'
      rw [Plan.cost]
      refine costOver_mono (hcosts.costLocal _ _ _) (hcosts.costLocal _ _ _) le_rfl
        (fun c hc => ?_) (fun c hc => ?_) hle
      · rw [hcostAll] at hc
        obtain ⟨q, plan, -, rfl⟩ := Plan.mem_costAll hc
        exact hcosts.cost_plain plan q
      · obtain ⟨q, plan, -, rfl⟩ := Plan.mem_costAll hc
        exact hcosts.cost_plain plan q

/-- Every step keeps the invariant. -/
theorem Inv.step (hcosts : space.Monotone useMaxCosting costs) (flags : TraceFlags)
    (hinv : s.Inv space useMaxCosting costs)
    (h : Step space useMaxCosting costs flags s s') : s'.Inv space useMaxCosting costs := by
  cases h with
  | check poc alt child answer hopen hchild h =>
    obtain ⟨hcaches, hprune⟩ := hinv.checked hcosts flags hopen hchild h
    unfold SearchState.checked
    cases hanswer : answer.2 with
    | false =>
      exact ⟨hcaches, fun q c hc => (hinv.costed q c hc).mono (fun _ _ => rfl) (fun _ hx => hx)
        fun _ hq => hq, hinv.keeps, hinv.covers⟩
    | true =>
      refine hinv.finish hopen _ hcaches (fun _ _ => rfl) (fun _ => .inl) (hinv.keeps poc)
        (fun b hb => ⟨b, hb, le_rfl⟩) fun children hplan => ?_
      refine hprune hanswer children (Plan.Assembled.mono (fun _ _ h => h.1) _ _ hplan)
        fun known hknown plan hget => ?_
      exact rel_of_getElem? (Plan.assembledAll_iff.1 hplan.2) (hchild known hknown).index hget
  | optimize poc alt hopen hchildren => exact hinv.optimizeSelf hcosts hopen hchildren
  | fail poc alt q hopen hq hcompleted hnone =>
    refine hinv.finish hopen _ hinv.caches (fun _ _ => rfl) (fun _ => .inl) (hinv.keeps poc)
      (fun b hb => ⟨b, hb, le_rfl⟩) fun children hplan => ?_
    -- a plan of the expression has a plan of the child
    obtain ⟨plan, -, hchild⟩ := exists_of_forall₂_left (Plan.assembledAll_iff.1 hplan.2) hq
    obtain ⟨b, hb, -⟩ := hinv.best_le hcompleted hchild
    rw [hnone] at hb
    cases hb
  | complete poc h =>
    refine ⟨hinv.caches, fun q c hc => (hinv.costed q c hc).mono (fun _ _ => rfl) (fun _ hx => hx)
      fun _ hq => List.mem_cons_of_mem _ hq, hinv.keeps, fun q alt children hmem hplan => ?_⟩
    refine hinv.covers q alt children hmem (Plan.Assembled.mono ?_ _ _ hplan)
    exact fun r a hoffers => ⟨hoffers.1, fun hr => hoffers.2 (List.mem_cons_of_mem _ hr)⟩

theorem Reachable.inv (hcosts : space.Monotone useMaxCosting costs) {flags : TraceFlags}
    {present : List ℕ} (h : Reachable space useMaxCosting costs flags present s) :
    s.Inv space useMaxCosting costs := by
  induction h with
  | init => refine ⟨.empty, ?_, ?_, ?_⟩ <;> simp [SearchState.init, Known, KeepsBest]
  | step _ h ih => exact ih.step hcosts flags h

/-! ## With and without pruning -/

omit [DecidableEq Poc] in
/-- The two optimizations were offered the same expressions for the contexts that both completed:
    neither lacks an enforcer that the other had. -/
def OffersSame (space : SearchSpace Poc) (s s' : SearchState Poc) : Prop :=
  ∀ poc alt, poc ∈ s.completed → poc ∈ s'.completed → space.Admits poc alt →
    ((poc, alt) ∈ s.finished ↔ (poc, alt) ∈ s'.finished)

omit [DecidableEq Poc] in
theorem OffersSame.symm (h : OffersSame space s s') :
    OffersSame space s' s :=
  fun poc alt hpoc hpoc' hadmits => (h poc alt hpoc' hpoc hadmits).symm

/-- A completed context has seen all expressions but enforcers that were not there. -/
theorem Reachable.finished {flags : TraceFlags} {present : List ℕ}
    (h : Reachable space useMaxCosting costs flags present s) :
    (∀ e ∈ present, e ∈ s.present) ∧ ∀ poc ∈ s.completed, ∀ alt ∈ space.alternatives poc,
      (space.fEnforcer alt.pgexpr = true → alt.pgexpr ∈ present) → (poc, alt) ∈ s.finished := by
  induction h with
  | init => simp [SearchState.init]
  | @step s _ _ h ih =>
    obtain ⟨hpresent, hfinished⟩ := ih
    cases h with
    | check poc alt child answer hopen hchild h =>
      refine ⟨hpresent, fun q hq a ha he => ?_⟩
      have hmem := hfinished q hq a ha he
      simp only [SearchState.checked]
      split
      · exact List.mem_cons_of_mem _ hmem
      · exact hmem
    | optimize poc alt hopen hchildren =>
      exact ⟨fun e he => List.mem_append_left _ (hpresent e he),
        fun q hq a ha he => List.mem_cons_of_mem _ (hfinished q hq a ha he)⟩
    | fail poc alt q hopen hq hcompleted hnone =>
      exact ⟨hpresent, fun q hq a ha he => List.mem_cons_of_mem _ (hfinished q hq a ha he)⟩
    | complete poc h =>
      refine ⟨hpresent, fun q hq a ha he => ?_⟩
      by_cases hold : q ∈ s.completed
      · exact hfinished q hold a ha he
      · rcases List.mem_cons.1 hq with rfl | hq
        · exact h a ⟨ha, fun henf => hpresent _ (he henf), hold⟩
        · exact absurd hq hold

/-- Optimizations that start with all their enforcers in the memo are offered the same. -/
theorem offersSame_of_present {flags flags' : TraceFlags} {present : List ℕ}
    (hpresent : ∀ poc, ∀ alt ∈ space.alternatives poc,
      space.fEnforcer alt.pgexpr = true → alt.pgexpr ∈ present)
    (h : Reachable space useMaxCosting costs flags present s)
    (h' : Reachable space useMaxCosting costs flags' present s') : OffersSame space s s' := by
  intro poc alt hpoc hpoc' hadmits
  have he := hpresent poc alt hadmits.1
  exact ⟨fun _ => h'.finished.2 poc hpoc' alt hadmits.1 he,
    fun _ => h.finished.2 poc hpoc alt hadmits.1 he⟩

omit [DecidableEq Poc] in
/-- What one optimization keeps for a context is no cheaper than what the other keeps. -/
theorem Inv.best_le_best (hinv : s.Inv space useMaxCosting costs)
    (hinv' : s'.Inv space useMaxCosting costs) (hsame : OffersSame space s s')
    (hpoc : poc ∈ s.completed) (hpoc' : poc ∈ s'.completed) {b : CCostContext Poc}
    (hb : b ∈ (s.contexts poc).pccBest) :
    ∃ b' ∈ (s'.contexts poc).pccBest, b'.cost.dCost ≤ b.cost.dCost := by
  have hcosted := hinv.costed poc b (.inr hb)
  obtain ⟨children, hall, hcost⟩ := hcosted.plan
  have hplan : (Plan.node b.toAlternative children).Assembled (s.Considered space) poc :=
    ⟨⟨hcosted.admits, hpoc, hcosted.finished⟩, hall⟩
  rw [hcost]
  refine hinv'.best_le hpoc' (Plan.Assembled.mono (fun q alt hq => ?_) _ _ hplan)
  exact ⟨hq.1, fun hq' => (hsame q alt hq.2.1 hq' hq.1).1 hq.2.2⟩

end Steps

section Examples

def filterOrOtherAlternatives (poc : ℕ) : List (Alternative ℕ) :=
  if poc = 0 then [plainAlternative 0 [], plainAlternative 1 [1]]
  else if poc = 1 then [plainAlternative 2 []] else []

theorem mem_filterOrOtherAlternatives {poc : ℕ} {alt : Alternative ℕ}
    (h : alt ∈ filterOrOtherAlternatives poc) :
    poc = 0 ∧ alt = plainAlternative 0 [] ∨ poc = 0 ∧ alt = plainAlternative 1 [1] ∨
      poc = 1 ∧ alt = plainAlternative 2 [] := by
  unfold filterOrOtherAlternatives at h
  split_ifs at h with h0 h1
  · simp only [List.mem_cons, List.not_mem_nil, or_false] at h
    exact h.elim (fun h => .inl ⟨h0, h⟩) fun h => .inr (.inl ⟨h0, h⟩)
  · exact .inr (.inr ⟨h1, by simpa using h⟩)
  · cases h

/-- A group with an expression that is not tagged with an engine and a filter on engine 10, over a
    group with a scan on engine 10; one context each. -/
def filterOrOther : SearchSpace ℕ where
  pgroup poc := poc
  pcrsRequired _ := ∅
  ped _ := 0
  gexprs g := if g = 0 then [0, 1] else if g = 1 then [2] else []
  fEnforcer _ := false
  children pgexpr := if pgexpr = 1 then [1] else []
  fRightToLeft _ := false
  reqdCols _ _ _ := ∅
  ulConsumers _ := 0
  alternatives := filterOrOtherAlternatives
  enforcers _ _ := []
  fCheckEnfdProps _ _ := true
  rank g := 1 - g
  mem_gexprs poc alt h := by
    rcases mem_filterOrOtherAlternatives h with ⟨rfl, rfl⟩ | ⟨rfl, rfl⟩ | ⟨rfl, rfl⟩ <;> decide
  pgroup_pdrgpoc poc alt h := by
    rcases mem_filterOrOtherAlternatives h with ⟨rfl, rfl⟩ | ⟨rfl, rfl⟩ | ⟨rfl, rfl⟩ <;> rfl
  not_mem_pdrgpoc poc alt h := by
    rcases mem_filterOrOtherAlternatives h with ⟨rfl, rfl⟩ | ⟨rfl, rfl⟩ | ⟨rfl, rfl⟩ <;> decide
  reqdCols_subset _ _ _ _ _ _ _ _ := Finset.empty_subset _
  children_enforcer _ _ _ h := by cases h
  pcrs_enforcer _ _ _ h := by cases h
  rank_children g pgexpr h _ child hchild := by
    split_ifs at h hchild <;> simp_all

/-- The expression costs 10, the filter 2 and the scan 3. -/
def filterOrOtherCost (pgexpr : ℕ) : CCost :=
  if pgexpr = 0 then .ofDouble 10 else if pgexpr = 1 then .ofEngine 2 10 else .ofEngine 3 10

def filterOrOtherCosts : BoundingCosts ℕ where
  costLocal pgexpr _ _ := filterOrOtherCost pgexpr
  fParallelUnionAll _ := false
  costPartial pgexpr _ _ _ := filterOrOtherCost pgexpr

theorem filterOrOtherCost_proper (useMaxCosting : Bool) (pgexpr : ℕ) :
    (filterOrOtherCost pgexpr).Proper useMaxCosting := by
  unfold filterOrOtherCost
  split_ifs <;> exact CCost.ofEngine_proper (by norm_num) _

/-- In the sum mode the costs behave like numbers. -/
theorem filterOrOther_monotone : filterOrOther.Monotone false filterOrOtherCosts :=
  ⟨fun _ _ _ => (filterOrOtherCost_proper false _).plain,
    fun _ _ _ _ => (filterOrOtherCost_proper false _).plain, fun _ _ _ _ _ _ _ _ _ => le_rfl⟩

def withPruning : TraceFlags := ⟨true, false⟩

def withoutPruning : TraceFlags := ⟨false, false⟩

theorem filterOrOther_open {s : SearchState ℕ} {poc : ℕ} {alt : Alternative ℕ}
    (halt : alt ∈ filterOrOtherAlternatives poc) (h : poc ∉ s.completed) :
    s.Open filterOrOther poc alt :=
  ⟨halt, fun henf => (by cases henf), h⟩

/-- The scan is optimized, and the filter over it. -/
def filtered (useMaxCosting : Bool) : SearchState ℕ :=
  let scanned := (init []).optimizeSelf filterOrOther useMaxCosting filterOrOtherCosts 1
    (plainAlternative 2 [])
  { scanned with completed := [1] }.optimizeSelf filterOrOther useMaxCosting filterOrOtherCosts 0
    (plainAlternative 1 [1])

theorem filtered_reachable (useMaxCosting : Bool) (flags : TraceFlags) :
    Reachable filterOrOther useMaxCosting filterOrOtherCosts flags [] (filtered useMaxCosting) := by
  refine ((Reachable.init.step (.optimize 1 (plainAlternative 2 [])
    (filterOrOther_open (by decide) (by simp [init])) ?_)).step (.complete 1 ?_)).step
      (.optimize 0 (plainAlternative 1 [1])
        (filterOrOther_open (by decide) (by simp [SearchState.optimizeSelf, init])) ?_)
  · exact fun q hq => by cases hq
  · intro alt hopen
    have hmem : alt ∈ filterOrOtherAlternatives 1 := hopen.alternative
    rcases mem_filterOrOtherAlternatives hmem with ⟨h, -⟩ | ⟨h, -⟩ | ⟨-, rfl⟩
    · cases h
    · cases h
    · exact List.mem_cons_self
  · intro q hq
    obtain rfl : q = 1 := List.mem_singleton.1 hq
    refine ⟨by simp, ?_⟩
    cases useMaxCosting <;> decide +kernel

/-- An optimization of the root that has finished both expressions is complete. -/
theorem complete_root {flags : TraceFlags} {useMaxCosting : Bool} {s : SearchState ℕ}
    (h : Reachable filterOrOther useMaxCosting filterOrOtherCosts flags [] s)
    (h0 : (0, plainAlternative 0 []) ∈ s.finished)
    (h1 : (0, plainAlternative 1 [1]) ∈ s.finished) :
    Reachable filterOrOther useMaxCosting filterOrOtherCosts flags []
      { s with completed := 0 :: s.completed } := by
  refine h.step (.complete 0 fun alt hopen => ?_)
  have hmem : alt ∈ filterOrOtherAlternatives 0 := hopen.alternative
  rcases mem_filterOrOtherAlternatives hmem with ⟨-, rfl⟩ | ⟨-, rfl⟩ | ⟨h, -⟩
  · exact h0
  · exact h1
  · cases h

/-- Without pruning the other expression is costed as well. -/
def filteredAndOther (useMaxCosting : Bool) : SearchState ℕ :=
  let s := (filtered useMaxCosting).optimizeSelf filterOrOther useMaxCosting filterOrOtherCosts 0
    (plainAlternative 0 [])
  { s with completed := 0 :: s.completed }

theorem filteredAndOther_reachable (useMaxCosting : Bool) :
    Reachable filterOrOther useMaxCosting filterOrOtherCosts withoutPruning []
      (filteredAndOther useMaxCosting) := by
  refine complete_root ((filtered_reachable useMaxCosting withoutPruning).step
    (.optimize 0 (plainAlternative 0 []) (filterOrOther_open (by decide)
      (by simp [filtered, SearchState.optimizeSelf])) ?_)) ?_ ?_
  · exact fun q hq => by cases hq
  · simp [SearchState.optimizeSelf]
  · simp [SearchState.optimizeSelf, filtered]

/-- The other expression is costed first. -/
def otherFirst : SearchState ℕ :=
  (init []).optimizeSelf filterOrOther true filterOrOtherCosts 0 (plainAlternative 0 [])

end Examples

end SearchState

end BossOptimizer

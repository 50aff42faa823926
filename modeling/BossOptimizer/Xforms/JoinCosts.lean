import BossOptimizer.Xforms.GreedySolutions

/-!
# The costs that the join search records

`ComputeCost` sets the cost of an expression but adds to its adjustment. A greedy step evaluates its
best expression twice, so that the adjustment of the solution it extends is counted twice. The
exhaustive search evaluates an expression once. All costs of a search are right when no greedy step
extends a solution with an adjustment.
-/

namespace BossOptimizer.CJoinOrderDPv2

variable {Key : Type} {join : NAryJoin Key} {m : ℕ} {s s' : State}

/-! ## The condition -/

/-- A greedy step extends a solution without an adjustment, if it finds one. -/
def Step.unadjusted : Step → State → Bool
  | .greedySearchJoinOrders left_level algo, s =>
    (greedySolution s left_level algo).all fun left => (s.GetExprInfo left).m_cost_adj_PS == 0
  | _, _ => true

/-- All the steps of a run do. -/
def unadjusted (join : NAryJoin Key) : List Step → State → Bool
  | [], _ => true
  | step :: steps, s => step.unadjusted s && (step.run join s).all (unadjusted join steps)

theorem unadjusted_append {steps steps' : List Step}
    (h : unadjusted join (steps ++ steps') s = true) (hrun : run join steps s = some s') :
    unadjusted join steps' s' = true := by
  induction steps generalizing s with
  | nil =>
    cases hrun
    exact h
  | cons step steps ih =>
    rw [run_cons, Option.bind_eq_some_iff] at hrun
    obtain ⟨s₁, hs₁, hrun⟩ := hrun
    rw [List.cons_append, unadjusted, hs₁, Bool.and_eq_true] at h
    exact ih h.2 hrun

/-! ## The calls after the limits -/

/-- The calls that can follow once the atoms and the limits are there. -/
def Step.Late : Step → Prop
  | .addAtom _ | .setLimit _ _ => False
  | .searchJoinOrders left_level right_level => 1 ≤ left_level ∧ 1 ≤ right_level
  | .searchBushyJoinOrders _ => True
  | .finalizeDPLevel level => level ≠ 1
  | .greedySearchJoinOrders left_level algo => 1 ≤ left_level ∧ IsAlgo algo
  | .markLowestCard prop_type => IsAlgo prop_type
  | .setPenalty _ => True

/-- What holds of a search after each call: the invariant, and all costs are right. -/
structure Costed (join : NAryJoin Key) (s : State) : Prop where
  inv : Inv join join.m_ulComps.toNat s
  right : s.Right

attribute [local simp] Step.Late in
/-- **Each call keeps the costs right.** -/
theorem Costed.step (h : Costed join s) {step : Step} (hlate : step.Late)
    (hunadjusted : step.unadjusted s = true) (hrun : step.run join s = some s') :
    Costed join s' := by
  -- an outcome that is sure to come is the one that came
  have hensures : Ensures (step.run join s) (Costed join) → Costed join s' := by
    rintro ⟨s₁, hs₁, hcosted⟩
    rw [hrun] at hs₁
    cases hs₁
    exact hcosted
  cases step with
  | addAtom => exact hlate.elim
  | setLimit => exact hlate.elim
  | searchJoinOrders left_level right_level =>
    exact hensures ((h.inv.searchJoinOrders hlate.1 hlate.2).mono fun _ hs =>
      ⟨hs.1, hs.2.right h.right⟩)
  | searchBushyJoinOrders current_level =>
    exact hensures ((h.inv.searchBushyJoinOrders current_level).mono fun _ hs =>
      ⟨hs.1, hs.2.right h.right⟩)
  | finalizeDPLevel level =>
    exact hensures (.some ⟨h.inv.finalizeDPLevel hlate, right_finalizeDPLevel h.right⟩)
  | greedySearchJoinOrders left_level algo =>
    refine hensures ((h.inv.greedySearchJoinOrders hlate.2 hlate.1).mono fun _ hs =>
      ⟨hs.1, hs.2.1 (fun left hleft => ?_) h.right⟩)
    rw [Step.unadjusted, hleft] at hunadjusted
    exact eq_of_beq hunadjusted
  | markLowestCard algo =>
    rw [Step.run] at hrun hensures
    by_cases hne : s.GetGroupsForLevel 2 = []
    · rw [markLowestCard, hne, lowestCard] at hrun
      cases hrun
    · refine hensures ((h.inv.markLowestCard hlate hne).mono ?_)
      rintro s₁ ⟨hinv, _, _, hmarks⟩
      exact ⟨hinv, fun addition hmem => h.right addition (hmarks.additions ▸ hmem)⟩
  | setPenalty penalty =>
    refine hensures (.some ⟨⟨h.inv.le_length, h.inv.groups, h.inv.atomLevel, h.inv.atomGroups,
      h.inv.levels, h.inv.heaps, h.inv.map⟩, h.right⟩)

/-- **A run of such calls keeps the costs right.** -/
theorem Costed.run (h : Costed join s) {steps : List Step} (hlate : ∀ step ∈ steps, step.Late)
    (hunadjusted : unadjusted join steps s = true) (hrun : run join steps s = some s') :
    Costed join s' := by
  induction steps generalizing s with
  | nil =>
    cases hrun
    exact h
  | cons step steps ih =>
    rw [run_cons, Option.bind_eq_some_iff] at hrun
    obtain ⟨s₁, hs₁, hrun⟩ := hrun
    rw [unadjusted, hs₁, Bool.and_eq_true] at hunadjusted
    exact ih (h.step (hlate step List.mem_cons_self) hunadjusted.1 hs₁)
      (fun step' hstep' => hlate step' (List.mem_cons_of_mem step hstep')) hunadjusted.2 hrun

/-! ## The runs of `PexprExpand` -/

section PexprExpand

variable {flags : TraceFlags}

/-- The calls that give the levels their limits. -/
def limitSteps (join : NAryJoin Key) (flags : TraceFlags) : List Step :=
  if flags.EopttraceGreedyOnlyInDPv2 || flags.EopttraceMinCardOnlyInDPv2 ||
      flags.EopttraceQueryOnlyInDPv2 then []
  else
    (levelLimits join.join_order_exhaustive_limit join.m_ulComps).map fun l =>
      .setLimit l.1.toNat l.2

/-- All calls after them. -/
def lateSteps (join : NAryJoin Key) (flags : TraceFlags) : List Step :=
  (if flags.EopttraceGreedyOnlyInDPv2 || flags.EopttraceMinCardOnlyInDPv2 ||
      flags.EopttraceQueryOnlyInDPv2 then []
    else (levelsFrom join 2).flatMap levelSteps) ++ EnumerateQuery join flags ++
    EnumerateMinCard join flags ++ EnumerateGreedyAvoidXProd join flags

theorem pexprExpand_eq (join : NAryJoin Key) (flags : TraceFlags) : PexprExpand join flags =
    addAtoms join ++ (limitSteps join flags ++ lateSteps join flags) := by
  rw [PexprExpand, enumerateDP_eq, limitSteps, lateSteps]
  split_ifs <;> simp only [List.append_assoc, List.nil_append]

theorem late_enumerateFromTwoWayJoin {algo : SExpressionProperties} (halgo : IsAlgo algo) :
    ∀ step ∈ enumerateFromTwoWayJoin join flags algo, step.Late := by
  intro step hstep
  rw [enumerateFromTwoWayJoin, List.mem_append] at hstep
  rcases hstep with hstep | hstep
  · rw [FindLowestCardTwoWayJoin] at hstep
    split_ifs at hstep
    · cases hstep
    all_goals simp only [List.cons_append, List.nil_append, List.mem_cons, List.not_mem_nil,
      or_false] at hstep
    · rcases hstep with rfl | rfl
      exacts [⟨le_rfl, le_rfl⟩, halgo]
    · exact hstep ▸ halgo
  · obtain ⟨level, hlevel, rfl⟩ := List.mem_map.1 hstep
    have hrange := List.mem_range'_1.1 hlevel
    exact ⟨by omega, halgo⟩

theorem late_of_mem_lateSteps {step : Step} (h : step ∈ lateSteps join flags) : step.Late := by
  simp only [lateSteps, List.mem_append, or_assoc] at h
  rcases h with h | h | h | h
  · split_ifs at h
    · cases h
    · obtain ⟨level, hlevel, hstep⟩ := List.mem_flatMap.1 h
      have hrange := List.mem_range'_1.1 hlevel
      simp only [levelSteps, List.mem_cons, List.not_mem_nil, or_false] at hstep
      rcases hstep with rfl | rfl | rfl
      · exact ⟨by omega, le_rfl⟩
      · trivial
      · change level ≠ 1
        omega
  · rw [EnumerateQuery] at h
    split_ifs at h
    · cases h
    · obtain ⟨level, hlevel, rfl⟩ := List.mem_map.1 h
      have hrange := List.mem_range'_1.1 hlevel
      exact ⟨by omega, .inl rfl⟩
  · rw [EnumerateMinCard] at h
    split_ifs at h
    · cases h
    · exact late_enumerateFromTwoWayJoin (.inr (.inl rfl)) step h
  · rw [EnumerateGreedyAvoidXProd] at h
    split_ifs at h
    · cases h
    · rcases List.mem_append.1 h with h | h
      · rcases List.mem_cons.1 h with rfl | h
        · trivial
        · exact late_enumerateFromTwoWayJoin (.inr (.inr rfl)) step h
      · rw [List.mem_singleton.1 h]
        trivial

/-- Three tables in a row. The first one is partitioned, and the rows of the second one, a
    selection, select its partitions. -/
def partitionedJoinOfThree : NAryJoin ℕ where
  m_ulComps := 3
  m_rgpcomp
    | 0 => ⟨some [0], false, 100⟩
    | 1 => ⟨none, true, 100⟩
    | _ => ⟨none, false, 10⟩
  m_rgpedge := [⟨{0, 1}, 0⟩, ⟨{1, 2}, 0⟩]
  m_on_pred_conjuncts := 0
  m_child_pred_indexes _ := 0
  Rows
    | .atom 0 => 100
    | .atom 1 => 1
    | .atom _ => 10
    | .innerJoin _ (.atom 0) (.atom 1) => 10
    | .innerJoin _ (.atom 1) (.atom 0) => 10
    | _ => 50
  FOverlap _ _ := true
  distribution_cost_factor := 0
  join_order_exhaustive_limit := 10

end PexprExpand

end BossOptimizer.CJoinOrderDPv2

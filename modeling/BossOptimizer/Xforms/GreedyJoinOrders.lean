import BossOptimizer.Xforms.JoinEnumeration

/-!
# The greedy strategies of the join search

A greedy strategy keeps one solution per level and extends it by one atom. The smallest atom that is
missing can always be added: all atoms that its outer join refers to come before it, and an inner
join is made a cross product if need be.
-/

namespace BossOptimizer.CJoinOrderDPv2

variable {Key : Type} {join : NAryJoin Key} {m : ℕ} {s s' : State}

/-! ## The join with one atom -/

section Try

variable {left : SGroupAndExpression} {level right : ℕ} {algo : SExpressionProperties}

/-- Costs depend on the children's costs and nothing else in the state. -/
theorem computeCost_congr {penalty card : ℚ} {look look' : SGroupAndExpression → SExpressionInfo}
    {e : SExpressionInfo}
    (h : ∀ l r, e.m_children = some (l, r) → look l = look' l ∧ look r = look' r) :
    ComputeCost penalty look e card = ComputeCost penalty look' e card := by
  rw [ComputeCost.eq_def, ComputeCost.eq_def]
  cases hchildren : e.m_children with
  | none => rfl
  | some children =>
    obtain ⟨hl, hr⟩ := h children.1 children.2 hchildren
    dsimp only
    rw [hl, hr]

/-- A join of the solution with an atom, evaluated once, and the group it belongs to. -/
structure Candidate (s : State) (left : SGroupAndExpression) (level right : ℕ)
    (algo : SExpressionProperties) (candidate : ℕ × SExpressionInfo) : Prop where
  known : candidate.1 ∈ (s.m_join_levels level).all
  lt_length : candidate.1 < s.groups.length
  fresh : right ∉ (s.group left.m_group_info).m_atoms
  atoms : (s.group candidate.1).m_atoms = insert right (s.group left.m_group_info).m_atoms
  joins : candidate.2.m_expr.Joins (s.group candidate.1).m_atoms
  props : candidate.2.m_properties = algo
  costed : ∃ e right_ix, e.m_children = some (left, ⟨right, right_ix⟩) ∧ e.m_cost_adj_PS = 0 ∧
    (s.GetExprInfo ⟨right, right_ix⟩).m_cost_adj_PS = 0 ∧
    candidate.2 = ComputeCost s.m_cross_prod_penalty s.GetExprInfo e
      (s.group candidate.1).m_cardinality

theorem getExprInfo_congr {child : SGroupAndExpression}
    (h : s'.group child.m_group_info = s.group child.m_group_info) :
    s'.GetExprInfo child = s.GetExprInfo child := by
  rw [State.GetExprInfo, h, State.GetExprInfo]

/-- A candidate stays one while further groups are made. -/
theorem Candidate.mono {candidate : ℕ × SExpressionInfo}
    (h : Candidate s left level right algo candidate) (hcreated : Created level s s')
    (hleft : left.m_group_info < s.groups.length) (hright : right < s.groups.length) :
    Candidate s' left level right algo candidate := by
  have hgroup := hcreated.group _ h.lt_length
  have hl := hcreated.group _ hleft
  obtain ⟨e, right_ix, hchildren, hadj, hradj, hcost⟩ := h.costed
  have hr : s'.GetExprInfo ⟨right, right_ix⟩ = s.GetExprInfo ⟨right, right_ix⟩ :=
    getExprInfo_congr (hcreated.group right hright)
  refine ⟨hcreated.grows.known _ _ h.known, h.lt_length.trans_le hcreated.grows.length_le,
    hl ▸ h.fresh, ?_, hgroup ▸ h.joins, h.props, e, right_ix, hchildren, hadj, hr ▸ hradj, ?_⟩
  · rw [hgroup, hl]
    exact h.atoms
  · rw [hgroup, hcreated.penalty, hcost]
    refine computeCost_congr fun l r hlr => ?_
    rw [hchildren] at hlr
    cases hlr
    exact ⟨(getExprInfo_congr hl).symm, hr.symm⟩

/-- **The join of the solution with one atom**: it is found wherever the atom may be joined. -/
theorem Inv.greedyTry (h : Inv join m s) (halgo : IsAlgo algo)
    (hleft : left.m_group_info < s.groups.length)
    (hcard : (s.group left.m_group_info).m_atoms.card + 1 = level)
    (hlevel : 2 ≤ level)
    (hmem : s.GetExprInfo left ∈ (s.group left.m_group_info).m_best_expr_info_array)
    (hright : right < m) :
    Ensures (greedyTry join left level algo right s) fun result =>
      Inv join m result.2 ∧ Created level s result.2 ∧
        (∀ candidate ∈ result.1, Candidate result.2 left level right algo candidate) ∧
        (right ∉ (s.group left.m_group_info).m_atoms →
          (joinOperator join (s.group left.m_group_info).m_atoms {right}).isSome →
          result.1.isSome) := by
  have hlt : right < s.groups.length := hright.trans_le h.le_length
  have hatom := h.atomGroups right hright
  rw [CJoinOrderDPv2.greedyTry]
  dsimp only
  rw [hatom.atoms]
  by_cases hdisj : Disjoint (s.group left.m_group_info).m_atoms {right}
  · rw [if_neg (not_not.2 hdisj)]
    have hfresh := Finset.disjoint_singleton_right.1 hdisj
    obtain ⟨right_ix, hbest⟩ :=
      Option.isSome_iff_exists.1 (marked_iff_isSome.1 (h.marked_any hlt))
    rw [hbest, Option.bind_some]
    have hsome := isSome_getJoinExpr join s left ⟨right, right_ix⟩ algo
    rw [hatom.atoms] at hsome
    cases he : GetJoinExpr join s left ⟨right, right_ix⟩ algo with
    | none =>
      rw [he] at hsome
      exact .some ⟨h, .refl _ _, nofun, fun _ hop => hsome.trans hop⟩
    | some e =>
      rw [he] at hsome
      obtain ⟨-, hchildren, hprops, hadj⟩ := getJoinExpr_spec he
      have hjoins := h.joins_getJoinExpr hleft hlt hmem (getExprInfo_spec hbest).1
        (hatom.atoms.symm ▸ hdisj) he
      have hstats : Satisfies e.m_properties EJoinOrderStats = false := by
        rw [hprops]
        exact halgo.satisfies_stats
      have hlevels : (s.group left.m_group_info).m_atoms.card + (s.group right).m_atoms.card =
          level := by rw [hatom.atoms, Finset.card_singleton, hcard]
      obtain ⟨g, s₁, hlookup, h₁, hcreated, hknown, hatoms⟩ := h.lookupOrCreateGroupInfo
        hleft hlt (hatom.atoms.symm ▸ hdisj) hlevels hlevel
        (by rw [hatom.atoms]; exact hsome.symm) hchildren hstats
      rw [hatom.atoms] at hlookup hatoms hjoins
      dsimp only
      rw [hlookup]
      refine .some ⟨h₁, hcreated, fun candidate hcandidate => ?_, fun _ _ => rfl⟩
      cases hcandidate
      have hl := hcreated.group _ hleft
      refine ⟨hknown, (h₁.levels _ g hknown).1, hl ▸ hfresh, ?_, ?_, ?_, e, right_ix, hchildren,
        hadj, ?_, rfl⟩
      · rw [hatoms, hl, Finset.union_comm, ← Finset.insert_eq]
      · rw [hatoms, m_expr_computeCost]
        exact hjoins
      · rw [m_properties_computeCost, hprops]
      · rw [getExprInfo_congr (hcreated.group right hlt)]
        exact hatom.unadjusted _ (getExprInfo_spec hbest).1
  · rw [if_pos hdisj]
    exact .some ⟨h, .refl _ _, nofun, fun hfresh _ =>
      absurd (Finset.disjoint_singleton_right.2 hfresh) hdisj⟩

theorem bestInLevel_eq_or (best new : Option (ℕ × SExpressionInfo)) :
    (bestInLevel best new = best ∨ bestInLevel best new = new) ∧
      (bestInLevel best new).isSome = (best.isSome || new.isSome) := by
  rcases best with _ | best <;> rcases new with _ | new
  · exact ⟨.inl rfl, rfl⟩
  · exact ⟨.inr rfl, rfl⟩
  · exact ⟨.inl rfl, rfl⟩
  · rw [bestInLevel]
    split_ifs
    exacts [⟨.inr rfl, rfl⟩, ⟨.inl rfl, rfl⟩]

/-- **The loop over the atoms** ends with a candidate if one of the atoms may be joined. -/
theorem Inv.greedyLoop (h : Inv join m s) (halgo : IsAlgo algo)
    (hleft : left.m_group_info < s.groups.length)
    (hcard : (s.group left.m_group_info).m_atoms.card + 1 = level)
    (hlevel : 2 ≤ level)
    (hmem : s.GetExprInfo left ∈ (s.group left.m_group_info).m_best_expr_info_array)
    {rights : List ℕ} (hrights : ∀ right ∈ rights, right < m)
    (best : Option (ℕ × SExpressionInfo))
    (hbest : ∀ candidate ∈ best, ∃ right < m, Candidate s left level right algo candidate) :
    Ensures (greedyLoop join left level algo rights best s) fun result =>
      Inv join m result.2 ∧ Created level s result.2 ∧
        (∀ candidate ∈ result.1, ∃ right < m,
          Candidate result.2 left level right algo candidate) ∧
        ((best.isSome ∨ ∃ right ∈ rights, right ∉ (s.group left.m_group_info).m_atoms ∧
          (joinOperator join (s.group left.m_group_info).m_atoms {right}).isSome) →
          result.1.isSome) := by
  induction rights generalizing best s with
  | nil => exact .some ⟨h, .refl _ _, hbest, fun hsome => hsome.elim id nofun⟩
  | cons right rights ih =>
    obtain ⟨⟨new, s₁⟩, htry, h₁, hcreated, hnew, hfound⟩ := h.greedyTry halgo hleft hcard hlevel hmem
      (hrights right List.mem_cons_self)
    obtain ⟨hchoice, hisSome⟩ := bestInLevel_eq_or best new
    have hl := hcreated.group _ hleft
    have hbest₁ : ∀ candidate ∈ bestInLevel best new, ∃ right < m,
        Candidate s₁ left level right algo candidate := by
      intro candidate hcandidate
      rcases hchoice with heq | heq
      · obtain ⟨right', hright', hc⟩ := hbest candidate (heq ▸ hcandidate)
        exact ⟨right', hright', hc.mono hcreated hleft (hright'.trans_le h.le_length)⟩
      · exact ⟨right, hrights right List.mem_cons_self, hnew candidate (heq ▸ hcandidate)⟩
    rw [CJoinOrderDPv2.greedyLoop, htry, Option.bind_some]
    dsimp only
    split_ifs with hquery
    · refine .some ⟨h₁, hcreated, hbest₁, fun _ => ?_⟩
      rw [hisSome, hquery.2, Bool.or_true]
    · refine (ih h₁ (hleft.trans_le hcreated.grows.length_le) (hl ▸ hcard) ?_
        (fun r hr => hrights r (List.mem_cons_of_mem right hr)) _ hbest₁).mono fun result hresult =>
          ⟨hresult.1, hcreated.trans hresult.2.1, hresult.2.2.1, fun hsome => ?_⟩
      · rw [getExprInfo_congr hl, hl]
        exact hmem
      · refine hresult.2.2.2 ?_
        rw [hisSome, Bool.or_eq_true, hl]
        rcases hsome with hsome | ⟨r, hr, hfresh, hop⟩
        · exact .inl (.inl hsome)
        · rcases List.mem_cons.1 hr with rfl | hr
          · exact .inl (.inr (hfound hfresh hop))
          · exact .inr ⟨r, hr, hfresh, hop⟩

/-- The query order takes the first atom if it may be joined. -/
theorem Inv.greedyLoop_query (h : Inv join m s)
    (hleft : left.m_group_info < s.groups.length)
    (hcard : (s.group left.m_group_info).m_atoms.card + 1 = level)
    (hlevel : 2 ≤ level)
    (hmem : s.GetExprInfo left ∈ (s.group left.m_group_info).m_best_expr_info_array)
    (rights : List ℕ) (hright : right < m)
    (hfresh : right ∉ (s.group left.m_group_info).m_atoms)
    (hop : (joinOperator join (s.group left.m_group_info).m_atoms {right}).isSome) :
    Ensures (CJoinOrderDPv2.greedyLoop join left level EJoinOrderQuery (right :: rights) none s)
      fun result => ∀ candidate ∈ result.1,
        Candidate result.2 left level right EJoinOrderQuery candidate := by
  obtain ⟨⟨new, s₁⟩, htry, -, -, hnew, hfound⟩ :=
    h.greedyTry (.inl rfl) hleft hcard hlevel hmem hright
  obtain ⟨candidate, rfl⟩ := Option.isSome_iff_exists.1 (hfound hfresh hop)
  rw [CJoinOrderDPv2.greedyLoop, htry, Option.bind_some]
  dsimp only
  rw [if_pos ⟨rfl, rfl⟩]
  exact .some hnew

end Try

/-! ## One greedy step -/

section Step

variable {left_level : ℕ} {algo : SExpressionProperties} {left : SGroupAndExpression}

/-- The solution of a level is a marked group of the level. -/
theorem greedySolution_spec (h : greedySolution s left_level algo = some left) :
    left.m_group_info ∈ s.GetGroupsForLevel left_level ∧
      s.GetExprInfo left ∈ (s.group left.m_group_info).m_best_expr_info_array ∧
      s.Marked algo left.m_group_info := by
  obtain ⟨g, hg, hbest⟩ := List.exists_of_findSome?_eq_some h
  rw [Option.map_eq_some_iff] at hbest
  obtain ⟨ix, hix, rfl⟩ := hbest
  obtain ⟨hmem, hhas⟩ := getExprInfo_spec hix
  exact ⟨hg, hmem, _, hmem, hhas⟩

theorem exists_greedySolution {g : ℕ} (hg : g ∈ s.GetGroupsForLevel left_level)
    (hmark : s.Marked algo g) : ∃ left, greedySolution s left_level algo = some left := by
  obtain ⟨ix, hix⟩ := Option.isSome_iff_exists.1 (marked_iff_isSome.1 hmark)
  rw [← Option.isSome_iff_exists, greedySolution, List.findSome?_isSome_iff]
  exact ⟨g, hg, by rw [hix]; rfl⟩

/-- **Evaluating an expression again is right when its children have no adjustments.** -/
theorem Candidate.right_addExpr {level right : ℕ} {candidate : ℕ × SExpressionInfo}
    (h : Candidate s left level right algo candidate) (hright : s.Right)
    (hadj : (s.GetExprInfo left).m_cost_adj_PS = 0) :
    (s.AddExprToGroupIfNecessary candidate.1
      { candidate.2 with m_properties := candidate.2.m_properties ||| algo } 0
      (some candidate.2.GetCost)).Right := by
  obtain ⟨e, right_ix, hchildren, headj, hradj, hcost⟩ := h.costed
  have hexpr : ∀ props, ComputeCost s.m_cross_prod_penalty s.GetExprInfo
      { candidate.2 with m_properties := props } (s.group candidate.1).m_cardinality =
        { candidate.2 with m_properties := props } := by
    intro props
    rw [hcost]
    simp only [ComputeCost.eq_def, hchildren, headj, hadj, hradj, add_zero]
  intro addition hmem
  rcases List.mem_append.1 hmem with hold | hnew
  · exact hright addition hold
  · rw [List.mem_singleton.1 hnew]
    dsimp only
    rw [hexpr]
    refine ⟨?_, ?_, fun cost hcompared => ?_⟩
    · simp only [hcost, ComputeCost.eq_def, hchildren, Option.map_some]
    · simp only [hcost, ComputeCost.eq_def, hchildren, Option.map_some, headj]
    · cases hcompared
      rfl

/-- A greedy step has extended the solution of the level below by an atom. -/
structure Extended (s s' : State) (left_level : ℕ) (algo : SExpressionProperties)
    (left : SGroupAndExpression) (right g : ℕ) : Prop where
  known : g ∈ (s'.m_join_levels (left_level + 1)).all
  fresh : right ∉ (s.group left.m_group_info).m_atoms
  atoms : (s'.group g).m_atoms = insert right (s.group left.m_group_info).m_atoms
  linked : ¬s.Marked algo g → ∃ e ∈ (s'.group g).m_best_expr_info_array, e.Has algo ∧
    ∃ right_ix, e.m_children = some (left, ⟨right, right_ix⟩)
  marked : ∀ g', s'.Marked algo g' ↔ s.Marked algo g' ∨ g' = g
  marks : ∀ algo', IsAlgo algo' → algo' ≠ algo → ∀ g', s'.Marked algo' g' ↔ s.Marked algo' g'
  group : ∀ g' < s.groups.length, (s.group g').m_atoms.card ≠ left_level + 1 →
    s'.group g' = s.group g'
  allKnown : ∀ l, ∀ g' ∈ (s.m_join_levels l).all, g' ∈ (s'.m_join_levels l).all
  heapless : ∀ l, (s.m_join_levels l).m_top_k_groups = none →
    (s'.m_join_levels l).m_top_k_groups = none

/-- The atoms that a greedy step tries. -/
def rights (s : State) (left_level : ℕ) (algo : SExpressionProperties) : List ℕ :=
  (s.GetGroupsForLevel 1).drop (if algo = EJoinOrderQuery then left_level else 0)

/-- Adding the best candidate. -/
theorem Candidate.extended {s₁ : State} {right : ℕ} {candidate : ℕ × SExpressionInfo}
    (halgo : IsAlgo algo) (hleft : left.m_group_info < s.groups.length)
    (hcard : (s.group left.m_group_info).m_atoms.card = left_level)
    (hcreated : Created (left_level + 1) s s₁)
    (h : Candidate s₁ left (left_level + 1) right algo candidate) (compared : Option ℚ) :
    Extended s (s₁.AddExprToGroupIfNecessary candidate.1
      { candidate.2 with m_properties := candidate.2.m_properties ||| algo } 0 compared)
      left_level algo left right candidate.1 := by
  have hl := hcreated.group _ hleft
  have hfresh := h.fresh
  have hatoms := h.atoms
  rw [hl] at hfresh hatoms
  have hprops : candidate.2.m_properties ||| algo = algo := by
    rw [h.props, BitVec.or_self]
  obtain ⟨e, right_ix, hchildren, -, -, hcost⟩ := h.costed
  rw [hprops]
  refine ⟨h.known, hfresh, m_atoms_addExpr.trans hatoms, fun hnot => ?_, fun g' => ?_,
    fun algo' halgo' hne g' => ?_, fun g' hg' hcard' => ?_, hcreated.grows.known,
    hcreated.grows.heapless⟩
  · have hnone : ¬s₁.Marked algo candidate.1 := fun hmark =>
      hnot ((hcreated.grows.marks algo halgo _).1 hmark)
    rw [group_addExpr_self h.lt_length]
    refine ⟨_, mem_offer_new fun old hold hhas => hnone ⟨old, hold, ?_⟩, ?_, right_ix, ?_⟩
    · simpa using hhas
    · rw [has_computeCost]
      exact isASupersetOfProperties_refl algo
    · rw [m_children_computeCost]
      dsimp only
      rw [hcost, m_children_computeCost, hchildren]
  · rw [marked_addExpr_iff h.lt_length, hcreated.grows.marks algo halgo]
    have hhas : SExpressionInfo.Has { candidate.2 with m_properties := algo } algo :=
      isASupersetOfProperties_refl algo
    simp [hhas]
  · rw [marked_addExpr_iff h.lt_length, hcreated.grows.marks algo' halgo']
    have hhas : ¬SExpressionInfo.Has { candidate.2 with m_properties := algo } algo' := fun hhas =>
      hne ((halgo.superset_iff halgo').1 hhas).symm
    simp [hhas]
  · have hne : g' ≠ candidate.1 := by
      rintro rfl
      rw [← hcreated.group _ hg', h.atoms, hl, Finset.card_insert_of_notMem hfresh, hcard] at hcard'
      exact hcard' rfl
    rw [group_addExpr_of_ne hne, hcreated.group g' hg']

/-- **`GreedySearchJoinOrders`** keeps the invariant; it keeps the costs right where the solution of
the level below has no adjustment; and it extends that solution where some atom may be joined. -/
theorem Inv.greedySearchJoinOrders (h : Inv join m s) (halgo : IsAlgo algo)
    (hlevel : 1 ≤ left_level) :
    Ensures (GreedySearchJoinOrders join left_level algo s) fun s' =>
      Inv join m s' ∧
        ((∀ left, greedySolution s left_level algo = some left →
          (s.GetExprInfo left).m_cost_adj_PS = 0) → s.Right → s'.Right) ∧
        ∀ left, greedySolution s left_level algo = some left →
          (∃ right ∈ rights s left_level algo,
            right ∉ (s.group left.m_group_info).m_atoms ∧
              (joinOperator join (s.group left.m_group_info).m_atoms {right}).isSome) →
          ∃ right g, Extended s s' left_level algo left right g ∧
            (algo = EJoinOrderQuery → ∀ right' ∈ (rights s left_level algo).head?,
              right' ∉ (s.group left.m_group_info).m_atoms →
              (joinOperator join (s.group left.m_group_info).m_atoms {right'}).isSome →
              right = right') := by
  rw [GreedySearchJoinOrders]
  cases hsolution : greedySolution s left_level algo with
  | none => exact .some ⟨h, fun _ hright => hright, by simp⟩
  | some left =>
    obtain ⟨hgroup, hmem, -⟩ := greedySolution_spec hsolution
    obtain ⟨hleft, hcard⟩ := h.of_mem_groups hgroup
    have hrights : ∀ right ∈ rights s left_level algo, right < m := fun right hright => by
      have hmem := List.mem_of_mem_drop hright
      rwa [State.GetGroupsForLevel, h.atomLevel, List.mem_range] at hmem
    obtain ⟨⟨best, s₁⟩, hloop, h₁, hcreated, hbest, hfound⟩ := h.greedyLoop halgo hleft
      (congrArg (· + 1) hcard) (by omega) hmem hrights none (by simp)
    change Ensures ((CJoinOrderDPv2.greedyLoop join left (left_level + 1) algo (rights s left_level algo) none
      s).map _) _
    rw [hloop]
    refine ⟨_, rfl, ?_⟩
    dsimp only
    cases best with
    | none =>
      refine ⟨h₁, fun _ hright => hcreated.grows.right hright, fun left' hleft' hexists => ?_⟩
      cases hleft'
      exact absurd (hfound (.inr hexists)) Bool.false_ne_true
    | some candidate =>
      obtain ⟨right, hright, hcandidate⟩ := hbest candidate rfl
      obtain ⟨-, hcandidateCard⟩ := h₁.levels _ _ hcandidate.known
      refine ⟨h₁.addExpr (e := { candidate.2 with
          m_properties := candidate.2.m_properties ||| algo }) hcandidate.lt_length (by omega)
        hcandidate.joins _ _, fun hadj hr => ?_, fun left' hleft' _ => ?_⟩
      · refine hcandidate.right_addExpr (hcreated.grows.right hr) ?_
        rw [getExprInfo_congr (hcreated.group _ hleft)]
        exact hadj left rfl
      · cases hleft'
        refine ⟨right, candidate.1, hcandidate.extended halgo hleft hcard hcreated _,
          fun hquery right' hhead hfresh hop => ?_⟩
        obtain ⟨rest, hrest⟩ := List.head?_eq_some_iff.1 hhead
        obtain ⟨result, hresult, hall⟩ := h.greedyLoop_query hleft
          (congrArg (· + 1) hcard) (by omega) hmem rest
          (hrights right' (hrest ▸ List.mem_cons_self)) hfresh hop
        rw [← hrest, ← hquery, hloop] at hresult
        cases hresult
        -- both atoms make the same group out of the solution
        have hmem' : right ∈ insert right' (s₁.group left.m_group_info).m_atoms :=
          (hall candidate rfl).atoms ▸ hcandidate.atoms ▸ Finset.mem_insert_self right _
        exact (Finset.mem_insert.1 hmem').resolve_right hcandidate.fresh

end Step

/-! ## The first solution of `EnumerateMinCard` and `EnumerateGreedyAvoidXProd` -/

section Mark

variable {algo : SExpressionProperties}

/-- An expression of the group has got a strategy's property, and that is all. -/
structure Marks (s s' : State) (algo : SExpressionProperties) (g : ℕ) : Prop where
  length : s'.groups.length = s.groups.length
  atoms : ∀ g', (s'.group g').m_atoms = (s.group g').m_atoms
  group : ∀ g' ≠ g, s'.group g' = s.group g'
  marked : ∀ g', s'.Marked algo g' ↔ s.Marked algo g' ∨ g' = g
  marks : ∀ algo', IsAlgo algo' → algo' ≠ algo → ∀ g', s'.Marked algo' g' ↔ s.Marked algo' g'
  levels : s'.m_join_levels = s.m_join_levels
  map : s'.m_bitset_to_group_info_map = s.m_bitset_to_group_info_map
  additions : s'.additions = s.additions

/-- The expressions after one of them has got more properties. -/
theorem mem_modify_iff {l : List SExpressionInfo} {ix : ℕ} {y : SExpressionInfo} :
    y ∈ l.modify ix (fun e => { e with m_properties := e.m_properties ||| algo }) ↔
      ∃ i x, l[i]? = some x ∧
        y = if ix = i then { x with m_properties := x.m_properties ||| algo } else x := by
  simp only [List.mem_iff_getElem?, List.getElem?_modify]
  refine exists_congr fun i => ?_
  cases l[i]? <;> simp [eq_comm]

theorem group_addNewPropertyToExpr_self {g ix : ℕ} (hg : g < s.groups.length) :
    (s.AddNewPropertyToExpr ⟨g, ix⟩ algo).group g =
      { s.group g with
        m_best_expr_info_array := (s.group g).m_best_expr_info_array.modify ix fun e =>
          { e with m_properties := e.m_properties ||| algo } } := by
  simp [State.AddNewPropertyToExpr, State.group, hg]

theorem group_addNewPropertyToExpr_of_ne {g g' ix : ℕ} (hne : g' ≠ g) :
    (s.AddNewPropertyToExpr ⟨g, ix⟩ algo).group g' = s.group g' := by
  simp [State.AddNewPropertyToExpr, State.group, List.getElem?_set_ne (Ne.symm hne)]

/-- A group stays in order when one of its expressions gets more properties. -/
theorem GroupOk.addNewPropertyToExpr {g ix : ℕ} (hg : g < s.groups.length)
    (h : GroupOk join (s.group g)) :
    GroupOk join ((s.AddNewPropertyToExpr ⟨g, ix⟩ algo).group g) := by
  rw [group_addNewPropertyToExpr_self hg]
  refine ⟨h.atoms, ?_, fun y hy => ?_⟩
  · obtain ⟨x, hx, hhas⟩ := h.stats
    obtain ⟨i, hi⟩ := List.mem_iff_getElem?.1 hx
    refine ⟨_, mem_modify_iff.2 ⟨i, x, hi, rfl⟩, ?_⟩
    split_ifs
    exacts [isASupersetOfProperties_or_left hhas, hhas]
  · obtain ⟨i, x, hx, rfl⟩ := mem_modify_iff.1 hy
    split_ifs <;> exact h.joins x (List.mem_of_getElem? hx)

/-- **`AddNewPropertyToExpr` marks the group of the expression.** -/
theorem marks_addNewPropertyToExpr {g ix : ℕ} {e : SExpressionInfo} (halgo : IsAlgo algo)
    (hg : g < s.groups.length) (hix : (s.group g).m_best_expr_info_array[ix]? = some e) :
    Marks s (s.AddNewPropertyToExpr ⟨g, ix⟩ algo) algo g := by
  -- the marks of the group itself, for any strategy
  have hmarked : ∀ algo', IsAlgo algo' →
      ((s.AddNewPropertyToExpr ⟨g, ix⟩ algo).Marked algo' g ↔
        s.Marked algo' g ∨ algo = algo') := by
    intro algo' halgo'
    rw [State.Marked, group_addNewPropertyToExpr_self hg]
    simp only [mem_modify_iff]
    constructor
    · rintro ⟨y, ⟨i, x, hx, rfl⟩, hhas⟩
      split_ifs at hhas with hi
      · rcases halgo'.superset_or_iff.1 hhas with hold | hnew
        · exact .inl ⟨x, List.mem_of_getElem? hx, hold⟩
        · exact .inr ((halgo.superset_iff halgo').1 hnew)
      · exact .inl ⟨x, List.mem_of_getElem? hx, hhas⟩
    · rintro (⟨x, hx, hhas⟩ | rfl)
      · obtain ⟨i, hi⟩ := List.mem_iff_getElem?.1 hx
        refine ⟨_, ⟨i, x, hi, rfl⟩, ?_⟩
        split_ifs
        exacts [halgo'.superset_or_iff.2 (.inl hhas), hhas]
      · refine ⟨_, ⟨ix, e, hix, rfl⟩, ?_⟩
        rw [if_pos rfl]
        exact isASupersetOfProperties_or_right
  refine ⟨List.length_set, fun g' => ?_, fun g' => group_addNewPropertyToExpr_of_ne, fun g' => ?_,
    fun algo' halgo' hne g' => ?_, rfl, rfl, rfl⟩
  all_goals rcases eq_or_ne g' g with rfl | hne'
  · rw [group_addNewPropertyToExpr_self hg]
  · rw [group_addNewPropertyToExpr_of_ne hne']
  · rw [hmarked algo halgo]
    simp
  · simp [State.Marked, group_addNewPropertyToExpr_of_ne hne', hne']
  · rw [hmarked algo' halgo']
    simp [hne.symm]
  · simp [State.Marked, group_addNewPropertyToExpr_of_ne hne']

/-- The group of the lowest cardinality is one of the level's, if it has any. -/
theorem lowestCard_spec (s : State) (algo : SExpressionProperties) (l : List ℕ) (best : Option (ℕ × ℚ)) :
    (∀ g card, lowestCard s algo l best = some (g, card) → g ∈ l ∨ ∃ c, best = some (g, c)) ∧
      ((l ≠ [] ∨ best.isSome) → (lowestCard s algo l best).isSome) := by
  induction l generalizing best with
  | nil => exact ⟨fun g card h => .inr ⟨card, h⟩, fun h => h.resolve_left fun hne => hne rfl⟩
  | cons group_2 rest ih =>
    rw [lowestCard.eq_def]
    dsimp only
    refine ⟨fun g card h => ?_, fun _ => (ih _).2 (.inr ?_)⟩
    · rcases (ih _).1 g card h with hmem | ⟨c, hc⟩
      · exact .inl (List.mem_cons_of_mem _ hmem)
      · rcases best with _ | best
        · cases hc
          exact .inl List.mem_cons_self
        · dsimp only at hc
          split_ifs at hc
          all_goals first
            | exact .inr ⟨c, hc⟩
            | cases hc
              exact .inl List.mem_cons_self
    · rcases best with _ | best
      · rfl
      · dsimp only
        split_ifs <;> rfl

/-- **`FindLowestCardTwoWayJoin` marks a join of two atoms**, if there is one. -/
theorem Inv.markLowestCard (h : Inv join m s) (halgo : IsAlgo algo)
    (hne : s.GetGroupsForLevel 2 ≠ []) :
    Ensures (markLowestCard algo s) fun s' =>
      Inv join m s' ∧ ∃ g ∈ s.GetGroupsForLevel 2, Marks s s' algo g := by
  obtain ⟨hmem, hsome⟩ := lowestCard_spec s algo (s.GetGroupsForLevel 2) none
  obtain ⟨⟨g, card⟩, hlow⟩ := Option.isSome_iff_exists.1 (hsome (.inl hne))
  have hgroup := (hmem g card hlow).resolve_right nofun
  obtain ⟨hg, hcard⟩ := h.of_mem_groups hgroup
  have hspec := getBestExprForProperties_spec (s.group g) EJoinOrderAny
  obtain ⟨ix, hbest⟩ := Option.isSome_iff_exists.1 (marked_iff_isSome.1 (h.marked_any hg))
  rw [hbest] at hspec
  obtain ⟨e, hix, -⟩ := hspec
  have hmarks := marks_addNewPropertyToExpr halgo hg hix
  rw [CJoinOrderDPv2.markLowestCard, hlow, Option.bind_some]
  dsimp only
  rw [hbest]
  refine ⟨_, rfl, ⟨?_, fun g' hg' => ?_, h.atomLevel, fun a ha => ?_, fun l g' hg' => ?_, h.heaps,
    fun atoms g' hg' => ?_⟩, g, hgroup, hmarks⟩
  · exact h.le_length.trans_eq hmarks.length.symm
  · rcases eq_or_ne g' g with rfl | hne'
    · exact (h.groups g' hg).addNewPropertyToExpr hg
    · rw [hmarks.group g' hne']
      exact h.groups g' (hmarks.length ▸ hg')
  · have hatom := h.atomGroups a ha
    rw [hmarks.group a]
    · exact hatom
    · rintro rfl
      rw [hatom.atoms] at hcard
      cases hcard
  · rw [hmarks.atoms, hmarks.length]
    exact h.levels l g' hg'
  · rw [hmarks.atoms]
    exact h.map atoms g' hg'

end Mark

end BossOptimizer.CJoinOrderDPv2

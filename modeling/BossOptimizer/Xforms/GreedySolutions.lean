import BossOptimizer.Xforms.GreedyJoinOrders

/-!
# The greedy strategies find complete join trees

In a valid n-ary join the ON predicate of an outer join refers to its own child and to earlier
children. The smallest atom that a solution lacks can then always be joined to it, so that a greedy
strategy extends its solution level by level until it has all atoms.
-/

namespace BossOptimizer.CJoinOrderDPv2

variable {Key : Type} {join : NAryJoin Key} {s s' : State} {algo : SExpressionProperties}

/-! ## Valid joins -/

/-- A join that the preprocessing builds: two children or more, the first of them inner, and outer
    joins that depend on earlier children only. -/
structure NAryJoin.Valid (join : NAryJoin Key) : Prop where
  two_le : 2 ≤ join.m_ulComps.toNat
  first : join.m_child_pred_indexes 0 = 0
  earlier : ∀ pedge ∈ join.m_rgpedge, 0 < pedge.m_loj_num →
    ∀ a ∈ pedge.m_pbs, a ≤ FindLogicalChildByNijId join pedge.m_loj_num

section Valid

variable {a nij_num : ℕ} {atoms : Finset ℕ}

theorem findLogicalChildByNijId_le :
    FindLogicalChildByNijId join (join.m_child_pred_indexes a) ≤ a := by
  rw [FindLogicalChildByNijId]
  cases hfind : (List.range join.m_ulComps.toNat).find? fun c =>
      join.m_child_pred_indexes c == join.m_child_pred_indexes a with
  | none => exact Nat.zero_le a
  | some c =>
    obtain ⟨-, -, hmin⟩ := List.find?_range_eq_some.1 hfind
    by_contra hlt
    simpa using hmin a (not_le.1 hlt)

/-- An outer join depends on atoms of its ON predicate, but not on its own child. -/
theorem mem_non_inner_join_dependencies (h : a ∈ non_inner_join_dependencies join nij_num) :
    a ≠ FindLogicalChildByNijId join nij_num ∧
      ∃ pedge ∈ join.m_rgpedge, pedge.m_loj_num = nij_num ∧ a ∈ pedge.m_pbs := by
  rw [non_inner_join_dependencies] at h
  have hfold : ∀ (edges : List SEdge) (acc : Finset ℕ),
      a ∈ edges.foldl (fun nijBitSet pedge =>
        if pedge.m_loj_num = nij_num then
          (nijBitSet ∪ pedge.m_pbs).erase (FindLogicalChildByNijId join nij_num)
        else nijBitSet) acc →
      a ∈ acc ∨ a ≠ FindLogicalChildByNijId join nij_num ∧
        ∃ pedge ∈ edges, pedge.m_loj_num = nij_num ∧ a ∈ pedge.m_pbs := by
    intro edges
    induction edges with
    | nil => exact fun _ => .inl
    | cons pedge edges ih =>
      intro acc hmem
      rw [List.foldl_cons] at hmem
      rcases ih _ hmem with hacc | ⟨hne, pedge', hpedge', hrest⟩
      · split_ifs at hacc with hnum
        · obtain ⟨hne, hunion⟩ := Finset.mem_erase.1 hacc
          exact (Finset.mem_union.1 hunion).imp_right fun hpbs =>
            ⟨hne, pedge, List.mem_cons_self, hnum, hpbs⟩
        · exact .inl hacc
      · exact .inr ⟨hne, pedge', List.mem_cons_of_mem _ hpedge', hrest⟩
  exact (hfold _ _ h).resolve_left (Finset.notMem_empty a)

theorem isRightChildOfNIJ_singleton (ha : a < join.m_ulComps.toNat) :
    IsRightChildOfNIJ join {a} =
      if join.m_on_pred_conjuncts = 0 ∨ join.m_child_pred_indexes a = 0 then none
      else some (join.m_child_pred_indexes a) := by
  have hbits : (bits join {a}).head? = some a := by
    rw [bits, List.head?_filter, List.find?_range_eq_some]
    simp only [Finset.mem_singleton, decide_true, List.mem_range, Bool.not_eq_true',
      decide_eq_false_iff_not, true_and]
    exact ⟨ha, fun j hj => hj.ne⟩
  rw [IsRightChildOfNIJ, Finset.card_singleton, hbits, Option.bind_some]
  split_ifs <;> simp_all

/-- **An atom whose predecessors are all there can be joined.** -/
theorem NAryJoin.Valid.isSome_joinOperator (h : join.Valid) (ha : a < join.m_ulComps.toNat)
    (hpred : ∀ b < a, b ∈ atoms) (hatoms : atoms.card ≠ 1 ∨ atoms = {0}) :
    (joinOperator join atoms {a}).isSome := by
  have hnone : IsRightChildOfNIJ join atoms = none := by
    rcases hatoms with hcard | rfl
    · rw [IsRightChildOfNIJ, if_pos (.inl hcard)]
    · rw [isRightChildOfNIJ_singleton (by have := h.two_le; omega), if_pos (.inr h.first)]
  have hdeps : non_inner_join_dependencies join (join.m_child_pred_indexes a) ⊆ atoms ∨
      join.m_child_pred_indexes a = 0 := by
    rcases Nat.eq_zero_or_pos (join.m_child_pred_indexes a) with hzero | hpos
    · exact .inr hzero
    · refine .inl fun b hb => hpred b ?_
      obtain ⟨hne, pedge, hpedge, hnum, hpbs⟩ := mem_non_inner_join_dependencies hb
      have hle := h.earlier pedge hpedge (hnum ▸ hpos) b hpbs
      rw [hnum] at hle
      exact (lt_of_le_of_ne hle hne).trans_le findLogicalChildByNijId_le
  rw [joinOperator, hnone, isRightChildOfNIJ_singleton ha]
  split_ifs with hinner <;> simp_all

theorem NAryJoin.Valid.isSome_zero_one (h : join.Valid) : (joinOperator join {0} {1}).isSome :=
  h.isSome_joinOperator h.two_le (fun b hb => by simp; omega) (.inr rfl)

/-- Some atom that is missing can be joined. -/
theorem NAryJoin.Valid.exists_missing (h : join.Valid)
    (hcard : atoms.card < join.m_ulComps.toNat) (hatoms : atoms.card ≠ 1 ∨ atoms = {0}) :
    ∃ a < join.m_ulComps.toNat, a ∉ atoms ∧ (joinOperator join atoms {a}).isSome := by
  have hex : ∃ a, a ∉ atoms := ⟨_, Infinite.exists_notMem_finset atoms |>.choose_spec⟩
  have hmin : ∀ b < Nat.find hex, b ∈ atoms := fun b hb => not_not.1 (Nat.find_min hex hb)
  have hlt : Nat.find hex < join.m_ulComps.toNat := by
    by_contra hge
    have hsub : Finset.range join.m_ulComps.toNat ⊆ atoms := fun b hb =>
      hmin b ((Finset.mem_range.1 hb).trans_le (not_lt.1 hge))
    have hle := Finset.card_le_card hsub
    rw [Finset.card_range] at hle
    exact absurd hcard (not_lt.2 hle)
  exact ⟨_, hlt, Nat.find_spec hex, h.isSome_joinOperator hlt hmin hatoms⟩

end Valid

/-! ## The solutions of a strategy -/

section Solutions

variable {start l : ℕ} {solution : ℕ → ℕ}

/-- What the search keeps between its levels: no level has a heap. -/
structure Ready (join : NAryJoin Key) (s : State) : Prop where
  inv : Inv join join.m_ulComps.toNat s
  heapless : ∀ l, (s.m_join_levels l).m_top_k_groups = none

/-- The steps of one strategy leave the marks of the others alone. -/
structure Leaves (algo : SExpressionProperties) (s s' : State) : Prop where
  known : ∀ l, ∀ g ∈ (s.m_join_levels l).all, g ∈ (s'.m_join_levels l).all
  marks : ∀ algo', IsAlgo algo' → algo' ≠ algo → ∀ g, s'.Marked algo' g ↔ s.Marked algo' g

theorem Leaves.refl (algo : SExpressionProperties) (s : State) : Leaves algo s s :=
  ⟨fun _ _ h => h, fun _ _ _ _ => Iff.rfl⟩

theorem Leaves.trans {s'' : State} (h : Leaves algo s s') (h' : Leaves algo s' s'') :
    Leaves algo s s'' :=
  ⟨fun l g hg => h'.known l g (h.known l g hg),
    fun algo' halgo' hne g => (h'.marks algo' halgo' hne g).trans (h.marks algo' halgo' hne g)⟩

/-- The group `g'` has the strategy's expression that joins one more atom to the group `g`. -/
def Grown (s : State) (algo : SExpressionProperties) (g g' : ℕ) : Prop :=
  ∃ a ∉ (s.group g).m_atoms, (s.group g').m_atoms = insert a (s.group g).m_atoms ∧
    ∃ e ∈ (s.group g').m_best_expr_info_array, e.Has algo ∧
      ∃ ix right_ix, e.m_children = some (⟨g, ix⟩, ⟨a, right_ix⟩)

/-- **The solutions of a strategy** on the levels from `start` to `l`: one group a level, each of
    them the one before with one more atom, and no other group is marked. -/
structure Solutions (s : State) (algo : SExpressionProperties) (start l : ℕ)
    (solution : ℕ → ℕ) : Prop where
  known : ∀ i, start ≤ i → i ≤ l → solution i ∈ s.GetGroupsForLevel i
  marked : ∀ g, s.Marked algo g ↔ ∃ i, start ≤ i ∧ i ≤ l ∧ solution i = g
  grown : ∀ i, start ≤ i → i < l → Grown s algo (solution i) (solution (i + 1))
  query : algo = EJoinOrderQuery → ∀ i, start ≤ i → i ≤ l →
    (s.group (solution i)).m_atoms = Finset.range i

theorem Ready.mem_groups (h : Ready join s) {g : ℕ} (hg : g ∈ (s.m_join_levels l).all) :
    g ∈ s.GetGroupsForLevel l := by
  rw [SLevelInfo.all, h.heapless] at hg
  simpa [State.GetGroupsForLevel] using hg

/-- The solution of the last level is the one that the next step finds. -/
theorem Solutions.greedySolution (h : Solutions s algo start l solution) (hready : Ready join s)
    (hstart : start ≤ l) : ∃ left, greedySolution s l algo = some left ∧
      left.m_group_info = solution l := by
  obtain ⟨left, hleft⟩ := exists_greedySolution (h.known l hstart le_rfl)
    ((h.marked _).2 ⟨l, hstart, le_rfl, rfl⟩)
  obtain ⟨hgroup, -, hmark⟩ := greedySolution_spec hleft
  obtain ⟨i, hi, hil, heq⟩ := (h.marked _).1 hmark
  have hcard := (hready.inv.of_mem_groups (heq ▸ h.known i hi hil)).2
  have hcard' := (hready.inv.of_mem_groups hgroup).2
  obtain rfl : i = l := hcard.symm.trans hcard'
  exact ⟨left, hleft, heq.symm⟩

/-- **A greedy step adds the solution of one level more.** -/
theorem Solutions.extended (h : Solutions s algo start l solution) (hready : Ready join s)
    (hready' : Ready join s') (hstart : start ≤ l) {left : SGroupAndExpression} {right g : ℕ}
    (hleft : left.m_group_info = solution l) (hext : Extended s s' l algo left right g)
    (hquery : algo = EJoinOrderQuery → right = l) :
    Solutions s' algo start (l + 1) (Function.update solution (l + 1) g) := by
  have hcards : ∀ i, start ≤ i → i ≤ l → solution i < s.groups.length ∧
      (s.group (solution i)).m_atoms.card = i := fun i hi hil =>
    hready.inv.of_mem_groups (h.known i hi hil)
  have hold : ∀ i, start ≤ i → i ≤ l → s'.group (solution i) = s.group (solution i) :=
    fun i hi hil => hext.group _ (hcards i hi hil).1 (by rw [(hcards i hi hil).2]; omega)
  have hupdate : ∀ i ≤ l, Function.update solution (l + 1) g i = solution i := fun i hi =>
    Function.update_of_ne (by omega) ..
  have hunmarked : ¬s.Marked algo g := by
    intro hmark
    obtain ⟨i, hi, hil, rfl⟩ := (h.marked g).1 hmark
    have hcard := (hready'.inv.of_mem_groups (hready'.mem_groups hext.known)).2
    rw [hold i hi hil, (hcards i hi hil).2] at hcard
    omega
  have hfresh := hext.fresh
  have hatoms := hext.atoms
  rw [hleft] at hfresh hatoms
  refine ⟨fun i hi hil => ?_, fun g' => ?_, fun i hi hil => ?_, fun halgo i hi hil => ?_⟩
  · rcases Nat.le_succ_iff.1 hil with hil | rfl
    · rw [hupdate i hil]
      exact hready'.mem_groups (hext.allKnown i _ (List.mem_append_left _ (h.known i hi hil)))
    · rw [Function.update_self]
      exact hready'.mem_groups hext.known
  · rw [hext.marked, h.marked]
    constructor
    · rintro (⟨i, hi, hil, rfl⟩ | rfl)
      · exact ⟨i, hi, hil.trans (Nat.le_succ l), hupdate i hil⟩
      · exact ⟨l + 1, by omega, le_rfl, Function.update_self ..⟩
    · rintro ⟨i, hi, hil, rfl⟩
      rcases Nat.le_succ_iff.1 hil with hil | rfl
      · exact .inl ⟨i, hi, hil, (hupdate i hil).symm⟩
      · exact .inr (Function.update_self ..)
  · rcases Nat.lt_succ_iff_lt_or_eq.1 hil with hlt | rfl
    · rw [hupdate i hlt.le, hupdate (i + 1) hlt, Grown, hold i hi hlt.le,
        hold (i + 1) (by omega) hlt]
      exact h.grown i hi hlt
    · rw [hupdate i le_rfl, Function.update_self, Grown, hold i hi le_rfl]
      obtain ⟨e, he, hhas, right_ix, hchildren⟩ := hext.linked hunmarked
      exact ⟨right, hfresh, hatoms, e, he, hhas, left.m_expr_index, right_ix, hleft ▸ hchildren⟩
  · rcases Nat.le_succ_iff.1 hil with hil | rfl
    · rw [hupdate i hil, hold i hi hil]
      exact h.query halgo i hi hil
    · rw [Function.update_self, hatoms, h.query halgo l hstart le_rfl, hquery halgo,
        Finset.range_add_one]

/-- The atoms that a step tries; the query order starts with the one after the solution. -/
theorem Ready.rights_eq (h : Ready join s) : rights s l algo =
    (List.range join.m_ulComps.toNat).drop (if algo = EJoinOrderQuery then l else 0) := by
  rw [rights, State.GetGroupsForLevel, h.inv.atomLevel]

theorem Ready.head?_rights (h : Ready join s) (hl : l < join.m_ulComps.toNat) :
    (rights s l EJoinOrderQuery).head? = some l := by
  rw [h.rights_eq, if_pos rfl, List.head?_drop, List.getElem?_range hl]

/-- **In a valid join some atom can be joined to the last solution**; in the query order the next
one can. -/
theorem Solutions.exists_right (hvalid : join.Valid) (h : Solutions s algo start l solution)
    (hready : Ready join s) (hstart : start ≤ l) (hl : l < join.m_ulComps.toNat)
    (hfirst : 2 ≤ start ∨ algo = EJoinOrderQuery) :
    ∃ right ∈ rights s l algo, right ∉ (s.group (solution l)).m_atoms ∧
      (joinOperator join (s.group (solution l)).m_atoms {right}).isSome ∧
      (algo = EJoinOrderQuery → right = l) := by
  obtain ⟨-, hcard⟩ := hready.inv.of_mem_groups (h.known l hstart le_rfl)
  by_cases halgo : algo = EJoinOrderQuery
  · subst halgo
    rw [h.query rfl l hstart le_rfl]
    refine ⟨l, List.mem_of_mem_head? (hready.head?_rights hl), Finset.notMem_range_self,
      hvalid.isSome_joinOperator hl (fun b hb => Finset.mem_range.2 hb) ?_, fun _ => rfl⟩
    rw [Finset.card_range]
    rcases eq_or_ne l 1 with rfl | hne
    exacts [.inr Finset.range_one, .inl hne]
  · have htwo := hfirst.resolve_right halgo
    obtain ⟨a, ha, hmissing, hop⟩ :=
      hvalid.exists_missing (hcard.trans_lt hl) (.inl (by omega))
    refine ⟨a, ?_, hmissing, hop, fun hquery => absurd hquery halgo⟩
    rw [hready.rights_eq, if_neg halgo, List.drop_zero]
    exact List.mem_range.2 ha

/-- **One level of a greedy search.** -/
theorem Solutions.step (hvalid : join.Valid) (halgo : IsAlgo algo)
    (h : Solutions s algo start l solution) (hready : Ready join s) (hstart : start ≤ l)
    (hl : l < join.m_ulComps.toNat) (hfirst : 2 ≤ start ∨ algo = EJoinOrderQuery)
    (hpos : 1 ≤ start) :
    Ensures (GreedySearchJoinOrders join l algo s) fun s' =>
      Ready join s' ∧ Leaves algo s s' ∧ ∃ solution', Solutions s' algo start (l + 1) solution' := by
  obtain ⟨left, hsolution, hleft⟩ := h.greedySolution hready hstart
  obtain ⟨right, hright, hfresh, hop, hquery⟩ :=
    h.exists_right hvalid hready hstart hl hfirst
  rw [← hleft] at hfresh hop
  refine (hready.inv.greedySearchJoinOrders halgo (hpos.trans hstart)).mono
    fun s' ⟨hinv, _, hext⟩ => ?_
  obtain ⟨right', g, hextended, hhead⟩ := hext left hsolution ⟨right, hright, hfresh, hop⟩
  have hready' : Ready join s' := ⟨hinv, fun i => hextended.heapless i (hready.heapless i)⟩
  refine ⟨hready', ⟨hextended.allKnown, hextended.marks⟩, _,
    h.extended hready hready' hstart hleft hextended fun hq => ?_⟩
  subst hq
  have hl' := hquery rfl
  subst hl'
  exact hhead rfl right (hready.head?_rights hl) hfresh hop

/-- The calls for the levels after `l`. -/
def greedySteps (algo : SExpressionProperties) (l k : ℕ) : List Step :=
  (List.range' (l + 1) k).map fun level => .greedySearchJoinOrders (level - 1) algo

/-- **The levels of a greedy search, one after the other.** -/
theorem Solutions.run (hvalid : join.Valid) (halgo : IsAlgo algo)
    (h : Solutions s algo start start solution) (hready : Ready join s)
    (hfirst : 2 ≤ start ∨ algo = EJoinOrderQuery) (hpos : 1 ≤ start) {k : ℕ}
    (hk : start + k ≤ join.m_ulComps.toNat) :
    Ensures (run join (greedySteps algo start k) s) fun s' =>
      Ready join s' ∧ Leaves algo s s' ∧
        ∃ solution', Solutions s' algo start (start + k) solution' := by
  induction k with
  | zero => exact .some ⟨hready, .refl algo s, solution, h⟩
  | succ k ih =>
    rw [greedySteps, List.range'_concat, List.map_append, run_append]
    refine (ih (by omega)).bind fun s₁ ⟨hready₁, hleaves, solution₁, h₁⟩ => ?_
    obtain ⟨s₂, hs₂, hready₂, hleaves₂, hsolutions⟩ := h₁.step hvalid halgo hready₁
      (Nat.le_add_right start k) (by omega) hfirst hpos
    refine ⟨s₂, ?_, hready₂, hleaves.trans hleaves₂, hsolutions⟩
    have hlevel : start + 1 + 1 * k - 1 = start + k := by omega
    rw [List.map_singleton, hlevel, run_cons, Step.run, hs₂]
    rfl

end Solutions

/-! ## The searches of `PexprExpand` -/

section Searches

variable {flags : TraceFlags}

/-- A greedy search: its property, the level of its first solution, the calls before it and its own
    calls. -/
structure GreedySearch where
  algo : SExpressionProperties
  start : ℕ
  before : List Step
  steps : List Step

/-- The greedy searches in their order. -/
def greedySearches (join : NAryJoin Key) (flags : TraceFlags) : List GreedySearch :=
  [⟨EJoinOrderQuery, 1, addAtoms join ++ EnumerateDP join flags, EnumerateQuery join flags⟩,
    ⟨EJoinOrderMincard, 2, addAtoms join ++ EnumerateDP join flags ++ EnumerateQuery join flags,
      EnumerateMinCard join flags⟩,
    ⟨EJoinOrderGreedyAvoidXProd, 2,
      addAtoms join ++ EnumerateDP join flags ++ EnumerateQuery join flags ++
        EnumerateMinCard join flags,
      EnumerateGreedyAvoidXProd join flags⟩]

/-- What a greedy search has to come to: a solution on each level, the last of them with all atoms,
    on levels that hold groups of their own size. -/
structure Completes (join : NAryJoin Key) (algo : SExpressionProperties) (start : ℕ) (s : State) :
    Prop where
  solutions : ∃ solution, Solutions s algo start join.m_ulComps.toNat solution ∧
    ∃ e ∈ (s.group (solution join.m_ulComps.toNat)).m_best_expr_info_array,
      e.Has algo ∧ e.m_expr.Joins (Finset.range join.m_ulComps.toNat)
  levels : ∀ level, ∀ g ∈ s.GetGroupsForLevel level, (s.group g).m_atoms.card = level

/-- The solution of the last level has all atoms. -/
theorem Solutions.completes {start : ℕ} {solution : ℕ → ℕ} (hready : Ready join s)
    (h : Solutions s algo start join.m_ulComps.toNat solution)
    (hstart : start ≤ join.m_ulComps.toNat) : Completes join algo start s := by
  obtain ⟨e, he, hhas⟩ := (h.marked _).2 ⟨_, hstart, le_rfl, rfl⟩
  obtain ⟨hlt, hcard⟩ := hready.inv.of_mem_groups (h.known _ hstart le_rfl)
  have hgroup := hready.inv.groups _ hlt
  have hatoms := Finset.eq_of_subset_of_card_le hgroup.atoms
    (by rw [Finset.card_range, hcard])
  exact ⟨⟨solution, h, e, he, hhas, hatoms ▸ hgroup.joins e he⟩,
    fun level g hg => (hready.inv.of_mem_groups hg).2⟩

theorem Ready.setPenalty (h : Ready join s) (m_cross_prod_penalty : ℚ) :
    Ready join { s with m_cross_prod_penalty } :=
  ⟨⟨h.inv.le_length, h.inv.groups, h.inv.atomLevel, h.inv.atomGroups, h.inv.levels, h.inv.heaps,
    h.inv.map⟩, h.heapless⟩

/-- **`EnumerateQuery`** starts with the first atom. -/
theorem run_enumerateQuery (hvalid : join.Valid) (hready : Ready join s)
    (hmarked : ∀ g, s.Marked EJoinOrderQuery g ↔ g = 0)
    (hsteps : EnumerateQuery join flags ≠ []) :
    Ensures (run join (EnumerateQuery join flags) s) fun s' =>
      Ready join s' ∧ Leaves EJoinOrderQuery s s' ∧ Completes join EJoinOrderQuery 1 s' := by
  have hn := hvalid.two_le
  have hinit : Solutions s EJoinOrderQuery 1 1 fun _ => 0 := by
    refine ⟨fun i hi hil => ?_, fun g => ?_, fun i hi hil => absurd hil (not_lt.2 hi),
      fun _ i hi hil => ?_⟩
    · obtain rfl := le_antisymm hil hi
      rw [State.GetGroupsForLevel, hready.inv.atomLevel]
      exact List.mem_range.2 (by omega)
    · rw [hmarked]
      refine ⟨fun h => ⟨1, le_rfl, le_rfl, h.symm⟩, ?_⟩
      rintro ⟨_, _, _, h⟩
      exact h.symm
    · obtain rfl := le_antisymm hil hi
      rw [(hready.inv.atomGroups 0 (by omega)).atoms, Finset.range_one]
  have hrun := hinit.run hvalid (.inl rfl) hready (.inr rfl) le_rfl
    (k := join.m_ulComps.toNat + 1 - 2) (by omega)
  have hlast : 1 + (join.m_ulComps.toNat + 1 - 2) = join.m_ulComps.toNat := by omega
  rw [hlast] at hrun
  rw [EnumerateQuery] at hsteps ⊢
  split_ifs at hsteps ⊢
  · exact absurd rfl hsteps
  · refine hrun.mono ?_
    rintro s' ⟨hready', hleaves, solution, h⟩
    exact ⟨hready', hleaves, h.completes hready' (by omega)⟩

/-- **The searches from the join of two atoms of the lowest cardinality.** -/
theorem run_enumerateFromTwoWayJoin (hvalid : join.Valid) (halgo : IsAlgo algo)
    (hnotQuery : algo ≠ EJoinOrderQuery) (hready : Ready join s) (hmarked : ∀ g, ¬s.Marked algo g)
    (hquery : flags.EopttraceQueryOnlyInDPv2 = false)
    (htwo : (flags.EopttraceGreedyOnlyInDPv2 || flags.EopttraceMinCardOnlyInDPv2) = false →
      (s.m_join_levels 2).all ≠ []) :
    Ensures (run join (enumerateFromTwoWayJoin join flags algo) s) fun s' =>
      Ready join s' ∧ Leaves algo s s' ∧ Completes join algo 2 s' := by
  have hn := hvalid.two_le
  -- there is a join of two atoms, or it is searched for now
  have hsearch : Ensures (run join
      (if flags.EopttraceGreedyOnlyInDPv2 || flags.EopttraceMinCardOnlyInDPv2 then
        [.searchJoinOrders 1 1] else []) s) fun s₁ =>
      Ready join s₁ ∧ Leaves algo s s₁ ∧ (∀ g, ¬s₁.Marked algo g) ∧
        (s₁.m_join_levels 2).all ≠ [] := by
    split_ifs with hflags
    · obtain ⟨s₁, hs₁, hinv, hgrows, hne⟩ :=
        hready.inv.searchJoinOrders_one hn hvalid.isSome_zero_one
      refine ⟨s₁, ?_, ⟨hinv, fun l => hgrows.heapless l (hready.heapless l)⟩,
        ⟨hgrows.known, fun algo' halgo' _ => hgrows.marks algo' halgo'⟩,
        fun g => mt (hgrows.marks algo halgo g).1 (hmarked g), hne⟩
      rw [run_cons, Step.run, hs₁]
      rfl
    · exact .some ⟨hready, .refl algo s, hmarked, htwo (by simpa using hflags)⟩
  rw [enumerateFromTwoWayJoin, FindLowestCardTwoWayJoin, hquery, if_neg Bool.false_ne_true,
    List.append_assoc, run_append]
  refine hsearch.bind ?_
  rintro s₁ ⟨hready₁, hleaves₁, hmarked₁, hne₁⟩
  obtain ⟨g₁, hg₁⟩ := List.exists_mem_of_ne_nil _ hne₁
  obtain ⟨s₂, hs₂, hinv₂, g, hg, hmarks⟩ := hready₁.inv.markLowestCard halgo
    (List.ne_nil_of_mem (hready₁.mem_groups hg₁))
  have hready₂ : Ready join s₂ := ⟨hinv₂, hmarks.levels ▸ hready₁.heapless⟩
  have hinit : Solutions s₂ algo 2 2 fun _ => g := by
    refine ⟨fun i hi hil => ?_, fun g' => ?_, fun i hi hil => absurd hil (not_lt.2 hi),
      fun hq => absurd hq hnotQuery⟩
    · obtain rfl := le_antisymm hil hi
      rw [State.GetGroupsForLevel, hmarks.levels]
      exact hg
    · rw [hmarks.marked]
      refine ⟨fun h => ⟨2, le_rfl, le_rfl, (h.resolve_left (hmarked₁ g')).symm⟩, ?_⟩
      rintro ⟨_, _, _, h⟩
      exact .inr h.symm
  have hrun := hinit.run hvalid halgo hready₂ (.inl le_rfl) (by decide)
    (k := join.m_ulComps.toNat + 1 - 3) (by omega)
  have hlast : 2 + (join.m_ulComps.toNat + 1 - 3) = join.m_ulComps.toNat := by omega
  rw [hlast] at hrun
  rw [List.singleton_append, run_cons, Step.run, hs₂, Option.bind_some]
  refine hrun.mono ?_
  rintro s' ⟨hready', hleaves, solution, h⟩
  exact ⟨hready',
    (hleaves₁.trans ⟨fun l g' hg' => hmarks.levels ▸ hg', hmarks.marks⟩).trans hleaves,
    h.completes hready' hn⟩

theorem run_enumerateMinCard (hvalid : join.Valid) (hready : Ready join s)
    (hmarked : ∀ g, ¬s.Marked EJoinOrderMincard g)
    (htwo : (flags.EopttraceGreedyOnlyInDPv2 || flags.EopttraceMinCardOnlyInDPv2) = false →
      flags.EopttraceQueryOnlyInDPv2 = false → (s.m_join_levels 2).all ≠ [])
    (hsteps : EnumerateMinCard join flags ≠ []) :
    Ensures (run join (EnumerateMinCard join flags) s) fun s' =>
      Ready join s' ∧ Leaves EJoinOrderMincard s s' ∧ Completes join EJoinOrderMincard 2 s' := by
  rw [EnumerateMinCard] at hsteps ⊢
  split_ifs at hsteps ⊢ with hflags
  · exact absurd rfl hsteps
  · have hquery : flags.EopttraceQueryOnlyInDPv2 = false := by
      cases hq : flags.EopttraceQueryOnlyInDPv2 <;> simp_all
    exact run_enumerateFromTwoWayJoin hvalid (.inr (.inl rfl)) (by decide) hready hmarked hquery
      fun h => htwo h hquery

theorem run_enumerateGreedyAvoidXProd (hvalid : join.Valid) (hready : Ready join s)
    (hmarked : ∀ g, ¬s.Marked EJoinOrderGreedyAvoidXProd g)
    (htwo : (flags.EopttraceGreedyOnlyInDPv2 || flags.EopttraceMinCardOnlyInDPv2) = false →
      flags.EopttraceQueryOnlyInDPv2 = false → (s.m_join_levels 2).all ≠ [])
    (hsteps : EnumerateGreedyAvoidXProd join flags ≠ []) :
    Ensures (run join (EnumerateGreedyAvoidXProd join flags) s)
      (Completes join EJoinOrderGreedyAvoidXProd 2) := by
  rw [EnumerateGreedyAvoidXProd] at hsteps ⊢
  split_ifs at hsteps ⊢ with hflags
  · exact absurd rfl hsteps
  · have hquery : flags.EopttraceQueryOnlyInDPv2 = false := by
      cases hq : flags.EopttraceQueryOnlyInDPv2 <;> simp_all
    rw [List.cons_append, run_cons, Step.run, Option.bind_some, run_append]
    refine (run_enumerateFromTwoWayJoin hvalid (.inr (.inr rfl)) (by decide)
      (hready.setPenalty crossJoinGreedyPenalty) hmarked hquery fun h => htwo h hquery).bind
      fun s₁ ⟨_, _, ⟨solution, hsolutions, hlast⟩, hlevels⟩ => ?_
    -- setting the penalty back changes no group
    exact .some ⟨⟨solution, ⟨hsolutions.known, hsolutions.marked, hsolutions.grown,
      hsolutions.query⟩, hlast⟩, hlevels⟩

/-- The state that `EnumerateMinCard` and `EnumerateGreedyAvoidXProd` start from: no mark of their
    own, and a join of two atoms unless they have to look for one. -/
structure BeforeTwoWayJoin (join : NAryJoin Key) (flags : TraceFlags) (s : State) : Prop where
  ready : Ready join s
  greedy : ∀ g, ¬s.Marked EJoinOrderGreedyAvoidXProd g
  two : (flags.EopttraceGreedyOnlyInDPv2 || flags.EopttraceMinCardOnlyInDPv2) = false →
    flags.EopttraceQueryOnlyInDPv2 = false → (s.m_join_levels 2).all ≠ []

theorem BeforeTwoWayJoin.leaves (h : BeforeTwoWayJoin join flags s) (hready : Ready join s')
    (hne : EJoinOrderGreedyAvoidXProd ≠ algo) (hleaves : Leaves algo s s') :
    BeforeTwoWayJoin join flags s' where
  ready := hready
  greedy g := mt (hleaves.marks _ (.inr (.inr rfl)) hne g).1 (h.greedy g)
  two hflags hquery := by
    obtain ⟨g, hg⟩ := List.exists_mem_of_ne_nil _ (h.two hflags hquery)
    exact List.ne_nil_of_mem (hleaves.known 2 g hg)

/-- **The state before the greedy searches.** -/
theorem run_before (hvalid : join.Valid)
    (hrun : run join (addAtoms join ++ EnumerateDP join flags) State.new = some s) :
    BeforeTwoWayJoin join flags s ∧ (∀ g, s.Marked EJoinOrderQuery g ↔ g = 0) ∧
      ∀ g, ¬s.Marked EJoinOrderMincard g := by
  have hn := hvalid.two_le
  obtain ⟨s₀, hs₀, honly⟩ := run_addAtoms join le_rfl
  have hatoms : run join (addAtoms join) State.new = some s₀ := hs₀
  rw [run_append, hatoms, Option.bind_some] at hrun
  obtain ⟨hsettled, htwo⟩ := settled_enumerateDP honly hn hvalid.isSome_zero_one hrun
  have hmarks : ∀ algo, IsAlgo algo → ∀ g, s.Marked algo g ↔ algo = EJoinOrderQuery ∧ g = 0 := by
    intro algo halgo g
    rw [hsettled.marks algo halgo, honly.marked algo halgo]
    exact ⟨fun h => ⟨h.1, h.2.1⟩, fun h => ⟨h.1, h.2, by omega⟩⟩
  refine ⟨⟨⟨hsettled.inv, hsettled.heapless⟩, fun g h => ?_, fun hflags hquery hnil => ?_⟩,
    fun g => (hmarks _ (.inl rfl) g).trans ⟨And.right, fun h => ⟨rfl, h⟩⟩, fun g h => ?_⟩
  · exact absurd ((hmarks _ (.inr (.inr rfl)) g).1 h).1 (by decide)
  · refine htwo (by rw [hflags, hquery]; rfl) ?_
    exact (List.append_eq_nil_iff.1 hnil).1
  · exact absurd ((hmarks _ (.inr (.inl rfl)) g).1 h).1 (by decide)

/-- The state before `EnumerateMinCard`. -/
theorem run_before_minCard (hvalid : join.Valid)
    (hrun : run join (addAtoms join ++ EnumerateDP join flags ++ EnumerateQuery join flags)
      State.new = some s) :
    BeforeTwoWayJoin join flags s ∧ ∀ g, ¬s.Marked EJoinOrderMincard g := by
  rw [run_append, Option.bind_eq_some_iff] at hrun
  obtain ⟨s₀, hs₀, hquery⟩ := hrun
  obtain ⟨hbefore, hmarked, hminCard⟩ := run_before hvalid hs₀
  by_cases hsteps : EnumerateQuery join flags = []
  · rw [hsteps] at hquery
    cases hquery
    exact ⟨hbefore, hminCard⟩
  · obtain ⟨s', hs', hready, hleaves, -⟩ :=
      run_enumerateQuery hvalid hbefore.ready hmarked hsteps
    obtain rfl := Option.some.inj (hs'.symm.trans hquery)
    exact ⟨hbefore.leaves hready (by decide) hleaves,
      fun g => mt (hleaves.marks _ (.inr (.inl rfl)) (by decide) g).1 (hminCard g)⟩

/-- The state before `EnumerateGreedyAvoidXProd`. -/
theorem run_before_greedyAvoidXProd (hvalid : join.Valid)
    (hrun : run join (addAtoms join ++ EnumerateDP join flags ++ EnumerateQuery join flags ++
      EnumerateMinCard join flags) State.new = some s) :
    BeforeTwoWayJoin join flags s := by
  rw [run_append, Option.bind_eq_some_iff] at hrun
  obtain ⟨s₀, hs₀, hminCard⟩ := hrun
  obtain ⟨hbefore, hmarked⟩ := run_before_minCard hvalid hs₀
  by_cases hsteps : EnumerateMinCard join flags = []
  · rw [hsteps] at hminCard
    cases hminCard
    exact hbefore
  · obtain ⟨s', hs', hready, hleaves, -⟩ :=
      run_enumerateMinCard hvalid hbefore.ready hmarked hbefore.two hsteps
    obtain rfl := Option.some.inj (hs'.symm.trans hminCard)
    exact hbefore.leaves hready (by decide) hleaves

/-- **Each greedy search of a valid join that `PexprExpand` gets to finds a join tree of all
atoms**, adding one atom a level. -/
theorem greedySearches_complete (hvalid : join.Valid) (flags : TraceFlags) (search : GreedySearch)
    (hsearch : search ∈ greedySearches join flags) (hsteps : search.steps ≠ []) (s : State)
    (hbefore : run join search.before State.new = some s) :
    ∃ s', run join search.steps s = some s' ∧ Completes join search.algo search.start s' := by
  simp only [greedySearches, List.mem_cons, List.not_mem_nil, or_false] at hsearch
  rcases hsearch with rfl | rfl | rfl
  · obtain ⟨hstart, hmarked, -⟩ := run_before hvalid hbefore
    exact (run_enumerateQuery hvalid hstart.ready hmarked hsteps).mono fun _ h => h.2.2
  · obtain ⟨hstart, hmarked⟩ := run_before_minCard hvalid hbefore
    exact (run_enumerateMinCard hvalid hstart.ready hmarked hstart.two hsteps).mono
      fun _ h => h.2.2
  · have hstart := run_before_greedyAvoidXProd hvalid hbefore
    exact run_enumerateGreedyAvoidXProd hvalid hstart.ready hstart.greedy hstart.two hsteps

/-- Three tables: an inner join of the first two, and an outer join that depends on the second. -/
def outerJoinOfThree : NAryJoin ℕ where
  m_ulComps := 3
  m_rgpcomp _ := ⟨none, false, -1⟩
  m_rgpedge := [⟨{0, 1}, 0⟩, ⟨{1, 2}, 1⟩]
  m_on_pred_conjuncts := 1
  m_child_pred_indexes atom := if atom = 2 then 1 else 0
  Rows _ := 10
  FOverlap _ _ := false
  distribution_cost_factor := 0
  join_order_exhaustive_limit := 10

theorem greedySearches_complete_three : ∃ s s',
    run outerJoinOfThree (addAtoms outerJoinOfThree ++
      EnumerateDP outerJoinOfThree ⟨false, false, false⟩ ++
      EnumerateQuery outerJoinOfThree ⟨false, false, false⟩) State.new = some s ∧
      run outerJoinOfThree (EnumerateMinCard outerJoinOfThree ⟨false, false, false⟩) s = some s' ∧
      Completes outerJoinOfThree EJoinOrderMincard 2 s' := by
  have hvalid : outerJoinOfThree.Valid := ⟨by decide, rfl, by decide +kernel⟩
  have hsome : (run outerJoinOfThree (addAtoms outerJoinOfThree ++
      EnumerateDP outerJoinOfThree ⟨false, false, false⟩ ++
      EnumerateQuery outerJoinOfThree ⟨false, false, false⟩) State.new).isSome := by
    decide +kernel
  obtain ⟨s, hs⟩ := Option.isSome_iff_exists.1 hsome
  obtain ⟨s', hs'⟩ := greedySearches_complete hvalid ⟨false, false, false⟩
    ⟨EJoinOrderMincard, 2, _, _⟩ (List.mem_cons_of_mem _ List.mem_cons_self)
    (List.ne_nil_of_length_pos (by decide +kernel)) s hs
  exact ⟨s, s', hs, hs'⟩

end Searches

end BossOptimizer.CJoinOrderDPv2

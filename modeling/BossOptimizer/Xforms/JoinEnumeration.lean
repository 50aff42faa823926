import BossOptimizer.Xforms.JoinSearchInvariant
import BossOptimizer.Lib.Total

/-!
# The exhaustive part of the join search

No step of `EnumerateDP` crashes, unless a limit divides by zero, and each keeps the invariant. When
it is through, no level has a heap any more and there is a join of two atoms.
-/

namespace BossOptimizer.CJoinOrderDPv2

variable {Key : Type} {join : NAryJoin Key} {m : ℕ} {s s' : State}

/-! ## Pairs of groups -/

section Pairs

variable {left right g left_level right_level : ℕ}

/-- A partition selector changes costs only. -/
theorem populateDPEInfo_spec (join : NAryJoin Key) (s : State) (e : SExpressionInfo) (left right : ℕ) :
    (PopulateDPEInfo join s e left right).m_expr = e.m_expr ∧
      (PopulateDPEInfo join s e left right).m_properties = e.m_properties := by
  rw [PopulateDPEInfo]
  split
  · exact ⟨rfl, rfl⟩
  · split_ifs <;> exact ⟨rfl, rfl⟩

theorem not_has_of_eq_dp {e : SExpressionInfo} (h : e.m_properties = EJoinOrderDP) :
    ∀ algo, IsAlgo algo → ¬e.Has algo := by
  intro algo halgo
  rw [SExpressionInfo.Has, h, halgo.not_superset.1]
  exact Bool.false_ne_true

/-- Every group has an expression that is good for any properties. -/
theorem Inv.marked_any (h : Inv join m s) (hg : g < s.groups.length) :
    s.Marked EJoinOrderAny g := by
  obtain ⟨e, he, -⟩ := (h.groups g hg).stats
  exact ⟨e, he, isASupersetOfProperties_any _⟩

/-- The alternative with a partition selector keeps the invariant. -/
theorem Inv.searchSelector (h : Inv join m s) (left_level : ℕ) (hleft : left < s.groups.length)
    (hright : right < s.groups.length)
    (hdisj : Disjoint (s.group left).m_atoms (s.group right).m_atoms)
    (hop : (joinOperator join (s.group left).m_atoms (s.group right).m_atoms).isSome)
    (hg : g < s.groups.length)
    (hatoms : (s.group g).m_atoms = (s.group left).m_atoms ∪ (s.group right).m_atoms)
    (hcard : 2 ≤ (s.group g).m_atoms.card) :
    Ensures (searchSelector join left right left_level g s) fun s' =>
      Inv join m s' ∧ Grows s s' := by
  obtain ⟨e, he⟩ := exists_getJoinExprForProperties (h.marked_any hleft) (h.marked_any hright) hop
  obtain ⟨hjoins, hprops, -⟩ := h.getJoinExprForProperties_spec hleft hright hdisj he
  rw [CJoinOrderDPv2.searchSelector, he]
  refine ⟨_, rfl, ?_⟩
  obtain ⟨e', he'⟩ : ∃ e', (if left_level = 1 then
      PopulateDPEInfo join s (PopulateDPEInfo join s e left right) right left
    else PopulateDPEInfo join s e left right) = e' := ⟨_, rfl⟩
  have hspec : e'.m_expr = e.m_expr ∧ e'.m_properties = e.m_properties := by
    obtain ⟨hexpr, hprop⟩ := populateDPEInfo_spec join s e left right
    rw [← he']
    split_ifs
    · obtain ⟨hexpr', hprop'⟩ := populateDPEInfo_spec join s
        (PopulateDPEInfo join s e left right) right left
      exact ⟨hexpr'.trans hexpr, hprop'.trans hprop⟩
    · exact ⟨hexpr, hprop⟩
  dsimp only
  rw [he']
  split_ifs
  · have hnone : ∀ algo, IsAlgo algo →
        ¬SExpressionInfo.Has { e' with m_properties := e'.m_properties ||| EJoinOrderHasPS } algo := by
      intro algo halgo
      rw [SExpressionInfo.Has, halgo.superset_or_iff, hspec.2, hprops, halgo.not_superset.2.2.1,
        halgo.not_superset.2.2.2]
      exact not_or.2 ⟨Bool.false_ne_true, Bool.false_ne_true⟩
    refine ⟨h.addExpr hg hcard ?_ _ _, grows_addExpr hg hnone⟩
    rw [hatoms]
    exact hspec.1 ▸ hjoins
  · exact ⟨h, .refl s⟩

/-- **The body of the loops of `SearchJoinOrders` keeps the invariant**; two atoms that can be
joined get a group. -/
theorem Inv.searchPair (h : Inv join m s) {pair : ℕ × ℕ} (hleft : pair.1 < s.groups.length)
    (hright : pair.2 < s.groups.length) (hleftCard : (s.group pair.1).m_atoms.card = left_level)
    (hrightCard : (s.group pair.2).m_atoms.card = right_level) (hleftPos : 1 ≤ left_level)
    (hrightPos : 1 ≤ right_level) :
    Ensures (searchPair join left_level right_level s pair) fun s' =>
      Inv join m s' ∧ Grows s s' ∧
        (Disjoint (s.group pair.1).m_atoms (s.group pair.2).m_atoms →
          (joinOperator join (s.group pair.1).m_atoms (s.group pair.2).m_atoms).isSome →
          s.Marked EJoinOrderDP pair.1 → s.Marked EJoinOrderDP pair.2 →
          (s'.m_join_levels (left_level + right_level)).all ≠ []) := by
  rw [CJoinOrderDPv2.searchPair]
  dsimp only
  by_cases hdisj : Disjoint (s.group pair.1).m_atoms (s.group pair.2).m_atoms
  · rw [if_neg (not_not.2 hdisj)]
    cases he : GetJoinExprForProperties join s pair.1 pair.2 EJoinOrderDP with
    | none =>
      refine .some ⟨h, .refl s, fun _ hop hl hr => ?_⟩
      obtain ⟨e, he'⟩ := exists_getJoinExprForProperties hl hr hop
      rw [he] at he'
      cases he'
    | some e =>
      obtain ⟨hjoins, hprops, hadj, ⟨left_ix, right_ix, hchildren⟩, hop⟩ :=
        h.getJoinExprForProperties_spec hleft hright hdisj he
      have hstats : Satisfies e.m_properties EJoinOrderStats = false := by
        rw [hprops]
        rfl
      have hlevel : (s.group pair.1).m_atoms.card + (s.group pair.2).m_atoms.card =
          left_level + right_level := by omega
      obtain ⟨g, s₁, hlookup, h₁, hcreated, hmem, hatoms⟩ := h.lookupOrCreateGroupInfo hleft hright
        hdisj hlevel (by omega) hop hchildren hstats
      dsimp only
      rw [hlookup, Option.bind_some]
      obtain ⟨hg, hcard⟩ := h₁.levels _ g hmem
      have h₂ : Inv join m (s₁.AddExprToGroupIfNecessary g e 0 none) :=
        h₁.addExpr hg (by omega) (hatoms ▸ hjoins) 0 none
      have hgrows : Grows s₁ (s₁.AddExprToGroupIfNecessary g e 0 none) :=
        hadj ▸ grows_addExpr hg (not_has_of_eq_dp hprops)
      have hleft₁ := hcreated.group pair.1 hleft
      have hright₁ := hcreated.group pair.2 hright
      have hlen := hcreated.grows.length_le
      have hnonempty : ∀ s', Grows (s₁.AddExprToGroupIfNecessary g e 0 none) s' →
          (s'.m_join_levels (left_level + right_level)).all ≠ [] := fun s' hs' =>
        List.ne_nil_of_mem (hs'.known _ g (hgrows.known _ g hmem))
      dsimp only
      split_ifs
      · exact .some ⟨h₂, hcreated.grows.trans hgrows, fun _ _ _ _ => hnonempty _ (.refl _)⟩
      · refine (h₂.searchSelector left_level ?_ ?_ ?_ ?_ ?_ ?_ ?_).mono
          fun s' hs' => ⟨hs'.1, (hcreated.grows.trans hgrows).trans hs'.2,
            fun _ _ _ _ => hnonempty s' hs'.2⟩
        all_goals simp only [length_addExpr, m_atoms_addExpr, hleft₁, hright₁]
        · omega
        · omega
        · exact hdisj
        · exact hop
        · exact hg
        · exact hatoms
        · omega
  · rw [if_pos hdisj]
    exact .some ⟨h, .refl s, fun hpair => absurd hpair hdisj⟩

/-- The pairs are made of groups of the two levels. -/
theorem mem_of_mem_searchPairs {pair : ℕ × ℕ} (h : pair ∈ searchPairs s left_level right_level) :
    pair.1 ∈ s.GetGroupsForLevel left_level ∧ pair.2 ∈ s.GetGroupsForLevel right_level := by
  simp only [searchPairs, List.mem_flatMap, List.mem_map, Prod.exists] at h
  obtain ⟨left, left_ix, hleft, right, hright, rfl⟩ := h
  have hmem : left ∈ s.GetGroupsForLevel left_level := List.fst_mem_of_mem_zipIdx hleft
  exact ⟨hmem, List.mem_of_mem_drop hright⟩

/-- The groups of a level have as many atoms as the level's number. -/
theorem Inv.of_mem_groups (h : Inv join m s) {level : ℕ} (hg : g ∈ s.GetGroupsForLevel level) :
    g < s.groups.length ∧ (s.group g).m_atoms.card = level :=
  h.levels level g (List.mem_append_left _ hg)

/-- **`SearchJoinOrders` keeps the invariant.** -/
theorem Inv.searchJoinOrders (h : Inv join m s) (hleftPos : 1 ≤ left_level)
    (hrightPos : 1 ≤ right_level) :
    Ensures (SearchJoinOrders join left_level right_level s) fun s' =>
      Inv join m s' ∧ Grows s s' := by
  rw [SearchJoinOrders]
  refine (Ensures.foldlM (I := fun _ s' => Inv join m s' ∧ Grows s s') ?_ s ⟨h, .refl s⟩)
  rintro - pair hpair s₁ ⟨h₁, hgrows⟩
  obtain ⟨hleft, hright⟩ := mem_of_mem_searchPairs hpair
  obtain ⟨hleft, hleftCard⟩ := h.of_mem_groups hleft
  obtain ⟨hright, hrightCard⟩ := h.of_mem_groups hright
  refine (h₁.searchPair (hleft.trans_le hgrows.length_le) (hright.trans_le hgrows.length_le)
    (hgrows.atoms _ hleft ▸ hleftCard) (hgrows.atoms _ hright ▸ hrightCard) hleftPos
    hrightPos).mono fun s₂ hs₂ => ⟨hs₂.1, hgrows.trans hs₂.2.1⟩

theorem zero_one_mem_searchPairs (h : Inv join m s) (hm : 2 ≤ m) : (0, 1) ∈ searchPairs s 1 1 := by
  have hgroups : s.GetGroupsForLevel 1 = List.range m := by
    rw [State.GetGroupsForLevel, h.atomLevel]
  have h0 : (0, 0) ∈ (List.range m).zipIdx :=
    List.mk_mem_zipIdx_iff_getElem?.2 (List.getElem?_range (by omega))
  have h1 : 1 ∈ (List.range m).drop 1 :=
    List.mem_drop_iff_getElem.2 ⟨0, by simp; omega, by simp⟩
  simp only [searchPairs, hgroups, List.mem_flatMap, List.mem_map, Prod.exists]
  exact ⟨0, 0, h0, 1, h1, rfl⟩

/-- Two atoms that can be joined give a group of two atoms. -/
theorem Inv.searchJoinOrders_one (h : Inv join m s) (hm : 2 ≤ m)
    (hop : (joinOperator join {0} {1}).isSome) :
    Ensures (SearchJoinOrders join 1 1 s) fun s' =>
      Inv join m s' ∧ Grows s s' ∧ (s'.m_join_levels 2).all ≠ [] := by
  rw [SearchJoinOrders]
  have hloop := Ensures.foldlM (f := CJoinOrderDPv2.searchPair join 1 1) (l := searchPairs s 1 1)
    (I := fun done s' => Inv join m s' ∧ Grows s s' ∧
      ((0, 1) ∈ done → (s'.m_join_levels 2).all ≠ [])) ?_ s ⟨h, .refl s, nofun⟩
  · exact hloop.mono fun s' hs' => ⟨hs'.1, hs'.2.1, hs'.2.2 (zero_one_mem_searchPairs h hm)⟩
  · rintro done pair hpair s₁ ⟨h₁, hgrows, hdone⟩
    obtain ⟨hleft, hright⟩ := mem_of_mem_searchPairs hpair
    obtain ⟨hleft, hleftCard⟩ := h.of_mem_groups hleft
    obtain ⟨hright, hrightCard⟩ := h.of_mem_groups hright
    refine (h₁.searchPair (hleft.trans_le hgrows.length_le) (hright.trans_le hgrows.length_le)
      (hgrows.atoms _ hleft ▸ hleftCard) (hgrows.atoms _ hright ▸ hrightCard) le_rfl
      le_rfl).mono fun s₂ hs₂ => ⟨hs₂.1, hgrows.trans hs₂.2.1, fun hmem => ?_⟩
    rcases List.mem_append.1 hmem with hmem | hmem
    · obtain ⟨g, hg⟩ := List.exists_mem_of_ne_nil _ (hdone hmem)
      exact List.ne_nil_of_mem (hs₂.2.1.known 2 g hg)
    · obtain rfl := List.mem_singleton.1 hmem
      have h0 := h₁.atomGroups 0 (by omega)
      have h1 := h₁.atomGroups 1 (by omega)
      refine hs₂.2.2 ?_ ?_ h0.dp h1.dp
      · rw [h0.atoms, h1.atoms]
        decide
      · rw [h0.atoms, h1.atoms]
        exact hop

/-- **`SearchBushyJoinOrders` keeps the invariant.** -/
theorem Inv.searchBushyJoinOrders (h : Inv join m s) (current_level : ℕ) :
    Ensures (SearchBushyJoinOrders join current_level s) fun s' =>
      Inv join m s' ∧ Grows s s' := by
  rw [SearchBushyJoinOrders]
  split_ifs
  · exact .some ⟨h, .refl s⟩
  · refine Ensures.foldlM (I := fun _ s' => Inv join m s' ∧ Grows s s') ?_ s ⟨h, .refl s⟩
    rintro - right_level hmem s₁ ⟨h₁, hgrows⟩
    have hrange := List.mem_range'_1.1 hmem
    exact (h₁.searchJoinOrders (by omega) (by omega)).mono fun s₂ hs₂ =>
      ⟨hs₂.1, hgrows.trans hs₂.2⟩

end Pairs

/-! ## Finished levels -/

section Finalize

variable {level : ℕ}

/-- Deleting keys from a map leaves entries of other keys alone. -/
theorem foldl_setEntry_none {losers : List ℕ} {atomsOf : ℕ → Finset ℕ}
    {map : Finset ℕ → Option ℕ} {atoms : Finset ℕ} {g : ℕ}
    (h : losers.foldl (fun map loser => setEntry map (atomsOf loser) none) map atoms = some g) :
    map atoms = some g ∧ ∀ loser ∈ losers, atomsOf loser ≠ atoms := by
  induction losers generalizing map with
  | nil => exact ⟨h, nofun⟩
  | cons loser losers ih =>
    obtain ⟨hmap, hne⟩ := ih h
    dsimp only at hmap
    rcases eq_or_ne atoms (atomsOf loser) with rfl | hatoms
    · rw [setEntry_self] at hmap
      cases hmap
    · rw [setEntry_of_ne hatoms] at hmap
      refine ⟨hmap, fun loser' hloser' => ?_⟩
      rcases List.mem_cons.1 hloser' with rfl | hloser'
      · exact hatoms.symm
      · exact hne loser' hloser'

/-- The levels after one is finished. -/
theorem levels_finalizeDPLevel (level : ℕ) (s : State) :
    (∀ l ≠ level, (FinalizeDPLevel level s).m_join_levels l = s.m_join_levels l) ∧
      ((FinalizeDPLevel level s).m_join_levels level).m_top_k_groups = none ∧
      (∀ g ∈ ((FinalizeDPLevel level s).m_join_levels level).all,
        g ∈ (s.m_join_levels level).all) ∧
      ((s.m_join_levels level).all ≠ [] →
        (∀ heap, (s.m_join_levels level).m_top_k_groups = some heap →
          heap.m_num_returned < heap.m_k) →
        ((FinalizeDPLevel level s).m_join_levels level).all ≠ []) := by
  rw [FinalizeDPLevel]
  cases hheap : (s.m_join_levels level).m_top_k_groups with
  | none => exact ⟨fun _ _ => rfl, hheap, fun _ h => h, fun h _ => h⟩
  | some heap =>
    have hperm := KHeap.removeAll_perm (fun g => (s.group g).m_lowest_expr_cost) .best
      heap.m_topk.size heap
    refine ⟨fun l hl => Function.update_of_ne hl .., ?_, fun g hg => ?_, fun hne hlimit => ?_⟩
    · simp only [State.setLevel, Function.update_self]
    all_goals
      simp only [State.setLevel, Function.update_self, SLevelInfo.all, hheap, Option.elim,
        List.append_nil] at *
    · rcases List.mem_append.1 hg with hg | hg
      · exact List.mem_append_left _ hg
      · exact List.mem_append_right _ (hperm.mem_iff.1 (List.mem_append_left _ hg))
    · intro hnil
      obtain ⟨hgroups, hwinners⟩ := List.append_eq_nil_iff.1 hnil
      rw [hgroups, List.nil_append] at hne
      exact KHeap.removeWhile_best_ne_nil (hlimit heap rfl) hne hwinners

/-- **Finishing a level keeps the invariant**: what leaves the level leaves the map. -/
theorem Inv.finalizeDPLevel (h : Inv join m s) (hlevel : level ≠ 1) :
    Inv join m (FinalizeDPLevel level s) := by
  obtain ⟨hother, hnone, hsub, -⟩ := levels_finalizeDPLevel level s
  have hgroups : (FinalizeDPLevel level s).groups = s.groups := by
    rw [FinalizeDPLevel]
    split <;> rfl
  have hgroup : ∀ g, (FinalizeDPLevel level s).group g = s.group g := fun g => by
    rw [State.group, hgroups, State.group]
  refine ⟨hgroups ▸ h.le_length, fun g hg => ?_, ?_, fun a ha => ?_, fun l g hg => ?_,
    fun l heap hheap => ?_, fun atoms g hg => ?_⟩
  · rw [hgroup]
    exact h.groups g (hgroups ▸ hg)
  · rw [hother 1 hlevel.symm, h.atomLevel]
  · rw [hgroup]
    exact h.atomGroups a ha
  · rw [hgroup, hgroups]
    rcases eq_or_ne l level with rfl | hne
    · exact h.levels l g (hsub g hg)
    · exact h.levels l g (hother l hne ▸ hg)
  · rcases eq_or_ne l level with rfl | hne
    · rw [hnone] at hheap
      cases hheap
    · exact h.heaps l heap (hother l hne ▸ hheap)
  · rw [hgroup]
    have hentry : s.m_bitset_to_group_info_map atoms = some g ∧
        (g ∈ (s.m_join_levels atoms.card).all → (s.group g).m_atoms = atoms →
          g ∈ ((FinalizeDPLevel level s).m_join_levels atoms.card).all) := by
      rw [FinalizeDPLevel] at hg ⊢
      cases hheap : (s.m_join_levels level).m_top_k_groups with
      | none =>
        rw [hheap] at hg
        exact ⟨hg, fun hmem _ => hmem⟩
      | some heap =>
        rw [hheap] at hg
        obtain ⟨hmap, hne⟩ := foldl_setEntry_none hg
        refine ⟨hmap, fun hmem hatoms => ?_⟩
        have hperm := fun call heap => KHeap.removeAll_perm
          (fun g => (s.group g).m_lowest_expr_cost) call heap.m_topk.size heap
        dsimp only [State.setLevel]
        rcases eq_or_ne atoms.card level with hcard | hcard
        · rw [hcard] at hmem ⊢
          rw [SLevelInfo.all, hheap] at hmem
          rw [Function.update_self, SLevelInfo.all]
          rcases List.mem_append.1 hmem with hmem | hmem
          · exact List.mem_append_left _ (List.mem_append_left _ hmem)
          · -- an entry of the heap is a winner, or it has lost and is not in the map
            rcases List.mem_append.1 ((hperm .best heap).mem_iff.2 hmem) with
              hwinner | hrest
            · exact List.mem_append_left _ (List.mem_append_right _ hwinner)
            · rcases List.mem_append.1 ((hperm .next _).mem_iff.2 hrest) with
                hloser | hleft
              · exact absurd hatoms (hne g hloser)
              · rw [KHeap.removeAll_next_eq_nil le_rfl] at hleft
                cases hleft
        · rwa [Function.update_of_ne hcard]
    obtain ⟨hmem, hatoms, htwo⟩ := h.map atoms g hentry.1
    exact ⟨hentry.2 hmem hatoms, hatoms, htwo⟩

theorem marked_finalizeDPLevel {props : SExpressionProperties} {g : ℕ} :
    (FinalizeDPLevel level s).Marked props g ↔ s.Marked props g := by
  rw [FinalizeDPLevel]
  split <;> exact Iff.rfl

theorem right_finalizeDPLevel (h : s.Right) : (FinalizeDPLevel level s).Right := by
  rw [FinalizeDPLevel]
  split <;> exact h

end Finalize

/-! ## The atoms -/

section Atoms

theorem run_append (steps steps' : List Step) (s : State) :
    run join (steps ++ steps') s = (run join steps s).bind (run join steps') :=
  List.foldlM_append

theorem run_cons (step : Step) (steps : List Step) (s : State) :
    run join (step :: steps) s = (step.run join s).bind (run join steps) :=
  List.foldlM_cons

/-- The search once the first `m` atoms have their groups and nothing else has happened. -/
structure OnlyAtoms (join : NAryJoin Key) (m : ℕ) (s : State) : Prop where
  inv : Inv join m s
  length : s.groups.length = m
  heapless : ∀ level, (s.m_join_levels level).m_top_k_groups = none
  map : s.m_bitset_to_group_info_map = fun _ => none
  marked : ∀ algo, IsAlgo algo → ∀ g, s.Marked algo g ↔ algo = EJoinOrderQuery ∧ g = 0 ∧ 0 < m
  right : s.Right

theorem onlyAtoms_new (join : NAryJoin Key) : OnlyAtoms join 0 State.new := by
  have hinv : Inv join 0 State.new :=
    { le_length := Nat.zero_le _
      groups := fun g hg => absurd hg (Nat.not_lt_zero g)
      atomLevel := rfl
      atomGroups := fun a ha => absurd ha (Nat.not_lt_zero a)
      levels := fun _ g hg => absurd hg List.not_mem_nil
      heaps := fun _ heap hheap => absurd hheap (Option.some_ne_none heap).symm
      map := fun _ g hg => absurd hg (Option.some_ne_none g).symm }
  refine ⟨hinv, rfl, fun _ => rfl, rfl, fun algo _ g => ?_, fun _ h => absurd h List.not_mem_nil⟩
  exact iff_of_false (fun hmark => Nat.not_lt_zero g hmark.lt_length) fun h => lt_irrefl 0 h.2.2

/-- The properties that an atom starts with. -/
theorem addAtom_eq (join : NAryJoin Key) (atom_id : ℕ) (s : State) : ∃ e : SExpressionInfo,
    addAtom join atom_id s = s.newGroup join 1 {atom_id} e ∧ e.m_expr = .atom atom_id ∧
      e.m_children = none ∧ e.m_cost_adj_PS = 0 ∧ e.Has EJoinOrderStats ∧ e.Has EJoinOrderDP ∧
      ∀ algo, IsAlgo algo → (e.Has algo ↔ algo = EJoinOrderQuery ∧ atom_id = 0) := by
  refine ⟨_, rfl, rfl, rfl, rfl, ?_⟩
  have hquery : ∀ algo, IsAlgo algo →
      (IsASupersetOfProperties EJoinOrderQuery algo = true ↔ algo = EJoinOrderQuery) :=
    fun algo halgo => (IsAlgo.superset_iff (.inl rfl) halgo).trans eq_comm
  have hbase : ∀ algo, IsAlgo algo →
      IsASupersetOfProperties (EJoinOrderStats + EJoinOrderDP) algo = false := by
    rintro algo (rfl | rfl | rfl) <;> decide
  simp only [SExpressionInfo.Has]
  refine ⟨?_, ?_, fun algo halgo => ?_⟩
  · split_ifs <;> decide
  · split_ifs <;> decide
  · split_ifs with hps hzero hzero <;>
      simp [halgo.superset_or_iff, hquery algo halgo, hbase algo halgo, halgo.not_superset, *]

/-- **Adding the next atom.** -/
theorem OnlyAtoms.addAtom (h : OnlyAtoms join m s) (hm : m < join.m_ulComps.toNat) :
    OnlyAtoms join (m + 1) (addAtom join m s) := by
  obtain ⟨e, heq, hexpr, hchildren, hadj, hstats, hdp, halgos⟩ := addAtom_eq join m s
  obtain ⟨x, lowest, hself, hxexpr, hxprops, hxadj⟩ :=
    group_newGroup_self join s 1 {m} e
  obtain ⟨cost, hlevels⟩ :=
    levels_newGroup join s 1 {m} e
  have hlen := h.length
  have hlevel1 : (s.m_join_levels 1).add s.groups.length cost = ⟨List.range (m + 1), none⟩ := by
    rw [SLevelInfo.add, h.inv.atomLevel, hlen, List.range_succ]
  have hxhas : ∀ props, x.Has props ↔ e.Has props := fun props => by
    rw [SExpressionInfo.Has, hxprops, SExpressionInfo.Has]
  rw [hlen] at hself
  have hgroup : ∀ g < m + 1, g < m ∨ g = m := by omega
  rw [heq]
  refine ⟨⟨?_, fun g hg => ?_, ?_, fun a ha => ?_, fun level g hg => ?_, fun level heap hheap => ?_,
    fun atoms g hg => ?_⟩, ?_, fun level => ?_, ?_, fun algo halgo g => ?_, right_newGroup h.right⟩
  · rw [length_newGroup, hlen]
  · rw [length_newGroup, hlen] at hg
    rcases hgroup g hg with hlt | rfl
    · rw [group_newGroup_of_lt (hlen ▸ hlt)]
      exact h.inv.groups g (hlen ▸ hlt)
    · rw [hself]
      refine ⟨?_, ⟨x, List.mem_cons_self, (hxhas _).2 hstats⟩, fun y hy => ?_⟩
      · rw [Finset.singleton_subset_iff, Finset.mem_range]
        exact hm
      · rw [List.mem_singleton.1 hy, hxexpr, hexpr]
        exact ⟨List.nodup_singleton g, rfl⟩
  · rw [hlevels, Function.update_self, hlevel1]
  · rcases hgroup a ha with hlt | rfl
    · rw [group_newGroup_of_lt (hlen ▸ hlt)]
      exact h.inv.atomGroups a hlt
    · rw [hself]
      refine ⟨rfl, ⟨x, List.mem_cons_self, (hxhas _).2 hdp⟩, fun y hy => ?_⟩
      rw [List.mem_singleton.1 hy, hxadj hchildren, hadj]
  · rw [length_newGroup, hlen]
    rw [hlevels] at hg
    rcases eq_or_ne level 1 with rfl | hne
    · rw [Function.update_self, mem_all_add, hlen] at hg
      rcases hg with hg | rfl
      · obtain ⟨hlt, hcard⟩ := h.inv.levels 1 g hg
        rw [group_newGroup_of_lt hlt]
        exact ⟨(hlen ▸ hlt).trans (Nat.lt_succ_self m), hcard⟩
      · rw [hself]
        exact ⟨Nat.lt_succ_self g, Finset.card_singleton g⟩
    · rw [Function.update_of_ne hne] at hg
      obtain ⟨hlt, hcard⟩ := h.inv.levels level g hg
      rw [group_newGroup_of_lt hlt]
      exact ⟨(hlen ▸ hlt).trans (Nat.lt_succ_self m), hcard⟩
  · rw [hlevels] at hheap
    rcases eq_or_ne level 1 with rfl | hne
    · rw [Function.update_self, hlevel1] at hheap
      cases hheap
    · rw [Function.update_of_ne hne, h.heapless level] at hheap
      cases hheap
  · rw [map_newGroup_one, h.map] at hg
    cases hg
  · rw [length_newGroup, hlen]
  · rw [hlevels]
    rcases eq_or_ne level 1 with rfl | hne
    · rw [Function.update_self, hlevel1]
    · rw [Function.update_of_ne hne]
      exact h.heapless level
  · rw [map_newGroup_one, h.map]
  · rcases lt_trichotomy g m with hlt | rfl | hgt
    · rw [State.Marked, group_newGroup_of_lt (hlen ▸ hlt), ← State.Marked, h.marked algo halgo]
      simp [Nat.zero_lt_of_lt hlt]
    · rw [State.Marked, hself]
      simp [hxhas, halgos algo halgo]
    · refine iff_of_false (fun hmark => ?_) fun hmark => ?_
      · have hlt := hmark.lt_length
        rw [length_newGroup, hlen] at hlt
        omega
      · omega

/-- **The atoms have their groups.** -/
theorem run_addAtoms (join : NAryJoin Key) {k : ℕ} (hk : k ≤ join.m_ulComps.toNat) :
    Ensures (run join ((List.range k).map .addAtom) State.new) (OnlyAtoms join k) := by
  induction k with
  | zero => exact .some (onlyAtoms_new join)
  | succ k ih =>
    rw [List.range_succ, List.map_append, run_append]
    refine (ih (by omega)).bind fun s hs => ?_
    exact .some (hs.addAtom hk)

end Atoms

/-! ## The levels -/

section Levels

/-- The exhaustive search up to a level, from a state `s₀` with the atoms alone. -/
structure Searched (join : NAryJoin Key) (level : ℕ) (s₀ s : State) : Prop where
  inv : Inv join join.m_ulComps.toNat s
  heapless : ∀ l, l ≤ level ∨ join.m_ulComps.toNat < l →
    (s.m_join_levels l).m_top_k_groups = none
  limit : ∀ heap, (s.m_join_levels 2).m_top_k_groups = some heap → 1 ≤ heap.m_k
  two : 2 ≤ level → (s.m_join_levels 2).all ≠ []
  marks : ∀ algo, IsAlgo algo → ∀ g, s.Marked algo g ↔ s₀.Marked algo g
  right : s₀.Right → s.Right

theorem Searched.grows {level : ℕ} {s₀ : State} (h : Searched join level s₀ s)
    (hinv : Inv join join.m_ulComps.toNat s') (hgrows : Grows s s') :
    Searched join level s₀ s' where
  inv := hinv
  heapless l hl := hgrows.heapless l (h.heapless l hl)
  limit heap' hheap' := by
    obtain ⟨heap, hheap, hk⟩ := hgrows.limit 2 heap' hheap'
    exact hk ▸ h.limit heap hheap
  two hlevel := by
    obtain ⟨g, hg⟩ := List.exists_mem_of_ne_nil _ (h.two hlevel)
    exact List.ne_nil_of_mem (hgrows.known 2 g hg)
  marks algo halgo g := (hgrows.marks algo halgo g).trans (h.marks algo halgo g)
  right h₀ := hgrows.right (h.right h₀)

/-- Finishing the next level. -/
theorem Searched.finalize {level : ℕ} {s₀ : State} (h : Searched join level s₀ s)
    (hlevel : 1 ≤ level) (htwo : level = 1 → (s.m_join_levels 2).all ≠ []) :
    Searched join (level + 1) s₀ (FinalizeDPLevel (level + 1) s) := by
  obtain ⟨hother, hnone, -, hne⟩ := levels_finalizeDPLevel (level + 1) s
  refine ⟨h.inv.finalizeDPLevel (by omega), fun l hl => ?_, fun heap hheap => ?_, fun _ => ?_,
    fun algo halgo g => marked_finalizeDPLevel.trans (h.marks algo halgo g),
    fun h₀ => right_finalizeDPLevel (h.right h₀)⟩
  · rcases eq_or_ne l (level + 1) with rfl | hl'
    · exact hnone
    · rw [hother l hl']
      exact h.heapless l (by omega)
  · rcases eq_or_ne level 1 with rfl | hl
    · rw [hnone] at hheap
      cases hheap
    · exact h.limit heap (hother 2 (by omega) ▸ hheap)
  · rcases eq_or_ne level 1 with rfl | hl
    · refine hne (htwo rfl) fun heap hheap => ?_
      have hk := h.limit heap hheap
      rw [h.inv.heaps 2 heap hheap]
      exact hk
    · rw [hother 2 (by omega)]
      exact h.two (by omega)

/-- **One level of `EnumerateDP`.** -/
theorem Searched.level {level : ℕ} {s₀ : State} (h : Searched join level s₀ s)
    (hlevel : 1 ≤ level) (hcomps : 2 ≤ join.m_ulComps.toNat)
    (hop : (joinOperator join {0} {1}).isSome) :
    Ensures (run join [.searchJoinOrders level 1, .searchBushyJoinOrders (level + 1),
      .finalizeDPLevel (level + 1)] s) (Searched join (level + 1) s₀) := by
  have hsearch : Ensures (SearchJoinOrders join level 1 s) fun s' =>
      Inv join join.m_ulComps.toNat s' ∧ Grows s s' ∧
        (level = 1 → (s'.m_join_levels 2).all ≠ []) := by
    rcases eq_or_ne level 1 with rfl | hl
    · exact (h.inv.searchJoinOrders_one hcomps hop).mono fun s' hs' =>
        ⟨hs'.1, hs'.2.1, fun _ => hs'.2.2⟩
    · exact (h.inv.searchJoinOrders hlevel le_rfl).mono fun s' hs' =>
        ⟨hs'.1, hs'.2, fun h => absurd h hl⟩
  rw [run_cons]
  refine hsearch.bind fun s₁ hs₁ => ?_
  rw [run_cons]
  refine (hs₁.1.searchBushyJoinOrders (level + 1)).bind fun s₂ hs₂ => .some ?_
  refine ((h.grows hs₁.1 hs₁.2.1).grows hs₂.1 hs₂.2).finalize hlevel fun hl => ?_
  obtain ⟨g, hg⟩ := List.exists_mem_of_ne_nil _ (hs₁.2.2 hl)
  exact List.ne_nil_of_mem (hs₂.2.known 2 g hg)

/-- The search while the levels get their limits. -/
structure Limited (join : NAryJoin Key) (s₀ s : State) : Prop where
  inv : Inv join join.m_ulComps.toNat s
  map : s.m_bitset_to_group_info_map = fun _ => none
  heapless : ∀ l, l ≤ 1 ∨ join.m_ulComps.toNat < l →
    (s.m_join_levels l).m_top_k_groups = none
  heaps : ∀ l heap, (s.m_join_levels l).m_top_k_groups = some heap →
    heap.m_topk = #[] ∧ (l = 2 → 1 ≤ heap.m_k)
  marks : ∀ algo, IsAlgo algo → ∀ g, s.Marked algo g ↔ s₀.Marked algo g
  right : s₀.Right → s.Right

theorem OnlyAtoms.limited (h : OnlyAtoms join join.m_ulComps.toNat s) : Limited join s s :=
  ⟨h.inv, h.map, fun l _ => h.heapless l,
    fun l heap hheap => (Option.some_ne_none heap (hheap.symm.trans (h.heapless l))).elim,
    fun _ _ _ => Iff.rfl, fun h => h⟩

/-- A limit for one level. -/
theorem Limited.setLimit {s₀ : State} (h : Limited join s₀ s) {level : ℕ} {k : UInt32}
    (hlevel : 2 ≤ level) (hcomps : level ≤ join.m_ulComps.toNat)
    (hk : level = 2 → 1 ≤ k.toNat) :
    Limited join s₀ (s.setLevel level
      { s.m_join_levels level with m_top_k_groups := some (.new k.toNat) }) := by
  refine ⟨⟨h.inv.le_length, h.inv.groups, ?_, h.inv.atomGroups, fun l g hg => ?_,
    fun l heap hheap => ?_, fun atoms g hg => ?_⟩, h.map, fun l hl => ?_, fun l heap hheap => ?_,
    h.marks, h.right⟩
  · exact (Function.update_of_ne (by omega) ..).trans h.inv.atomLevel
  · refine h.inv.levels l g ?_
    rcases eq_or_ne l level with rfl | hne
    · simp only [State.setLevel, Function.update_self, SLevelInfo.all, Option.elim, KHeap.new,
        List.append_nil] at hg
      exact List.mem_append_left _ hg
    · simpa only [State.setLevel, Function.update_of_ne hne] using hg
  · rcases eq_or_ne l level with rfl | hne
    · simp only [State.setLevel, Function.update_self, Option.some.injEq] at hheap
      rw [← hheap]
      rfl
    · exact h.inv.heaps l heap (by simpa only [State.setLevel, Function.update_of_ne hne] using hheap)
  · have hnone : s.m_bitset_to_group_info_map atoms = some g := hg
    rw [h.map] at hnone
    cases hnone
  · exact (congrArg _ (Function.update_of_ne (by omega) ..)).trans (h.heapless l hl)
  · rcases eq_or_ne l level with rfl | hne
    · simp only [State.setLevel, Function.update_self, Option.some.injEq] at hheap
      rw [← hheap]
      exact ⟨rfl, hk⟩
    · exact h.heaps l heap (by simpa only [State.setLevel, Function.update_of_ne hne] using hheap)

/-- **The limits of the levels**, if none of them divides by zero. -/
theorem Limited.run {s₀ : State} {limits : List (UInt32 × Option UInt32)}
    (hlimits : ∀ l ∈ limits, l ∈ levelLimits join.join_order_exhaustive_limit join.m_ulComps)
    (h : Limited join s₀ s)
    (hrun : run join (limits.map fun l => .setLimit l.1.toNat l.2) s = some s') :
    Limited join s₀ s' := by
  induction limits generalizing s with
  | nil =>
    cases hrun
    exact h
  | cons l limits ih =>
    obtain ⟨level, k⟩ := l
    obtain ⟨-, h2, hcomps, hk⟩ := mem_levelLimits.1 (hlimits _ List.mem_cons_self)
    rw [List.map_cons, run_cons] at hrun
    cases k with
    | none => cases hrun
    | some k =>
      refine ih (fun l hl => hlimits l (List.mem_cons_of_mem _ hl)) (h.setLimit
        (UInt32.le_iff_toNat_le.1 h2) (UInt32.le_iff_toNat_le.1 hcomps) fun hlevel => ?_) hrun
      obtain rfl : level = 2 := UInt32.toNat_inj.1 hlevel
      exact one_le_number_of_allowed_groups_two hk.symm

theorem Limited.searched {s₀ : State} (h : Limited join s₀ s) : Searched join 1 s₀ s :=
  ⟨h.inv, h.heapless, fun heap hheap => (h.heaps 2 heap hheap).2 rfl, fun h => absurd h (by decide),
    h.marks, h.right⟩

/-- The three calls for one level. -/
def levelSteps (level : ℕ) : List Step :=
  [.searchJoinOrders (level - 1) 1, .searchBushyJoinOrders level, .finalizeDPLevel level]

/-- **The levels, one after the other.** -/
theorem Searched.levels {s₀ : State} (h : Searched join 1 s₀ s) (hcomps : 2 ≤ join.m_ulComps.toNat)
    (hop : (joinOperator join {0} {1}).isSome) (k : ℕ) :
    Ensures (run join ((List.range' 2 k).flatMap levelSteps) s) (Searched join (k + 1) s₀) := by
  induction k with
  | zero => exact .some h
  | succ k ih =>
    rw [List.range'_concat, List.flatMap_append, run_append]
    refine ih.bind fun s₁ hs₁ => ?_
    have hstep := hs₁.level (Nat.le_add_left 1 k) hcomps hop
    rw [List.flatMap_singleton, levelSteps, Nat.one_mul, Nat.add_comm 2 k]
    exact hstep

/-- The search before and between the greedy strategies. -/
structure Settled (join : NAryJoin Key) (s₀ s : State) : Prop where
  inv : Inv join join.m_ulComps.toNat s
  heapless : ∀ l, (s.m_join_levels l).m_top_k_groups = none
  marks : ∀ algo, IsAlgo algo → ∀ g, s.Marked algo g ↔ s₀.Marked algo g
  right : s₀.Right → s.Right

theorem Settled.refl (h : OnlyAtoms join join.m_ulComps.toNat s) : Settled join s s :=
  ⟨h.inv, h.heapless, fun _ _ _ => Iff.rfl, fun h => h⟩

theorem enumerateDP_eq (flags : TraceFlags) : EnumerateDP join flags =
    if flags.EopttraceGreedyOnlyInDPv2 || flags.EopttraceMinCardOnlyInDPv2 ||
        flags.EopttraceQueryOnlyInDPv2 then []
    else
      (levelLimits join.join_order_exhaustive_limit join.m_ulComps).map
          (fun l => .setLimit l.1.toNat l.2) ++ (levelsFrom join 2).flatMap levelSteps := rfl

/-- **`EnumerateDP` leaves a join of two atoms**, unless a trace flag skips it. -/
theorem settled_enumerateDP {flags : TraceFlags} (h : OnlyAtoms join join.m_ulComps.toNat s)
    (hcomps : 2 ≤ join.m_ulComps.toNat) (hop : (joinOperator join {0} {1}).isSome)
    (hrun : run join (EnumerateDP join flags) s = some s') :
    Settled join s s' ∧ ((flags.EopttraceGreedyOnlyInDPv2 || flags.EopttraceMinCardOnlyInDPv2 ||
      flags.EopttraceQueryOnlyInDPv2) = false → s'.GetGroupsForLevel 2 ≠ []) := by
  rw [enumerateDP_eq] at hrun
  split_ifs at hrun with hflags
  · cases hrun
    exact ⟨.refl h, fun hfalse => absurd hflags (ne_true_of_eq_false hfalse)⟩
  · rw [run_append, Option.bind_eq_some_iff] at hrun
    obtain ⟨s₁, hlimits, hlevels⟩ := hrun
    have hlimited := h.limited.run (fun l hl => hl) hlimits
    obtain ⟨s₂, hs₂, hsearched⟩ := hlimited.searched.levels hcomps hop (join.m_ulComps.toNat + 1 - 2)
    obtain rfl : s₂ = s' := Option.some.inj (hs₂.symm.trans hlevels)
    have hlast : join.m_ulComps.toNat + 1 - 2 + 1 = join.m_ulComps.toNat := by omega
    rw [hlast] at hsearched
    refine ⟨⟨hsearched.inv, fun l => hsearched.heapless l (by omega), hsearched.marks,
      hsearched.right⟩, fun _ hnil => hsearched.two hcomps ?_⟩
    rw [SLevelInfo.all, hsearched.heapless 2 (by omega)]
    simpa [State.GetGroupsForLevel] using hnil

end Levels

end BossOptimizer.CJoinOrderDPv2

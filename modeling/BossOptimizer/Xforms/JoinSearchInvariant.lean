import BossOptimizer.Xforms.CJoinOrderDPv2
import Mathlib.Data.Finset.Interval

/-!
# What every step of the join search preserves

Every group keeps at least one expression with statistics, and each of its expressions joins exactly
the atoms of the group. A level knows groups of its own size only, and so does the map. A group's
atoms never change; it is marked for a greedy strategy by the additions of that strategy alone.
-/

namespace BossOptimizer.CJoinOrderDPv2

/-- The atoms of a join tree, from left to right. -/
def JoinExpr.leaves : JoinExpr → List ℕ
  | .atom atom_id => [atom_id]
  | .innerJoin _ left right => left.leaves ++ right.leaves
  | .leftOuterJoin _ left right => left.leaves ++ right.leaves

/-- The expression has the properties. -/
def SExpressionInfo.Has (expr_info : SExpressionInfo) (props : SExpressionProperties) : Prop :=
  IsASupersetOfProperties expr_info.m_properties props = true

/-- The properties of the greedy strategies. -/
def IsAlgo (algo : SExpressionProperties) : Prop :=
  algo = EJoinOrderQuery ∨ algo = EJoinOrderMincard ∨ algo = EJoinOrderGreedyAvoidXProd

/-! ## Bits -/

section Bits

variable {algo p q : SExpressionProperties}

attribute [local simp] CJoinOrderDPv2.Step.run in
theorem isASupersetOfProperties_twoPow {i : ℕ} (hi : i < 32) :
    IsASupersetOfProperties p (BitVec.twoPow 32 i) = true ↔ p.getLsbD i = true := by
  rw [isASupersetOfProperties_iff]
  constructor
  · intro h
    exact h i hi (by simp [hi])
  · intro h j _ hj
    obtain ⟨-, rfl⟩ : i < 32 ∧ i = j := by simpa [BitVec.getLsbD_twoPow] using hj
    exact h

theorem IsAlgo.exists_bit (h : IsAlgo algo) : ∃ i < 32, algo = BitVec.twoPow 32 i := by
  rcases h with rfl | rfl | rfl
  exacts [⟨0, by decide, by decide⟩, ⟨1, by decide, by decide⟩, ⟨2, by decide, by decide⟩]

/-- A strategy's property is one bit, which a union has from one of its two sides. -/
theorem IsAlgo.superset_or_iff (h : IsAlgo algo) :
    IsASupersetOfProperties (p ||| q) algo = true ↔
      IsASupersetOfProperties p algo = true ∨ IsASupersetOfProperties q algo = true := by
  obtain ⟨i, hi, rfl⟩ := h.exists_bit
  simp only [isASupersetOfProperties_twoPow hi, BitVec.getLsbD_or, Bool.or_eq_true]

theorem isASupersetOfProperties_or_right : IsASupersetOfProperties (p ||| q) q = true := by
  rw [isASupersetOfProperties_iff]
  intro i _ h
  rw [BitVec.getLsbD_or, h, Bool.or_true]

theorem isASupersetOfProperties_or_left (h : IsASupersetOfProperties p algo = true) :
    IsASupersetOfProperties (p ||| q) algo = true := by
  rw [isASupersetOfProperties_iff] at *
  intro i hi hbit
  rw [BitVec.getLsbD_or, h i hi hbit, Bool.true_or]

/-- The properties of the exhaustive search have no strategy's bit. -/
theorem IsAlgo.not_superset (h : IsAlgo algo) :
    IsASupersetOfProperties EJoinOrderDP algo = false ∧
      IsASupersetOfProperties EJoinOrderStats algo = false ∧
      IsASupersetOfProperties EJoinOrderHasPS algo = false ∧
      IsASupersetOfProperties EJoinOrderAny algo = false := by
  rcases h with rfl | rfl | rfl <;> decide

theorem IsAlgo.superset_iff {algo' : SExpressionProperties} (h : IsAlgo algo) (h' : IsAlgo algo') :
    IsASupersetOfProperties algo algo' = true ↔ algo = algo' := by
  rcases h with rfl | rfl | rfl <;> rcases h' with rfl | rfl | rfl <;> decide

theorem IsAlgo.satisfies_stats (h : IsAlgo algo) : Satisfies algo EJoinOrderStats = false := by
  rcases h with rfl | rfl | rfl <;> decide

end Bits

/-! ## Costs leave the rest of an expression alone -/

section ComputeCost

variable (penalty : ℚ) (look : SGroupAndExpression → SExpressionInfo) (e : SExpressionInfo) (card : ℚ)

@[simp] theorem m_expr_computeCost : (ComputeCost penalty look e card).m_expr = e.m_expr := by
  rw [ComputeCost.eq_def]
  split <;> rfl

@[simp] theorem m_children_computeCost :
    (ComputeCost penalty look e card).m_children = e.m_children := by
  rw [ComputeCost.eq_def]
  split <;> rfl

@[simp] theorem m_properties_computeCost :
    (ComputeCost penalty look e card).m_properties = e.m_properties := by
  rw [ComputeCost.eq_def]
  split <;> rfl

@[simp] theorem has_computeCost {props : SExpressionProperties} :
    (ComputeCost penalty look e card).Has props ↔ e.Has props := by
  simp [SExpressionInfo.Has]

end ComputeCost

/-- A property that one of the offered expressions has is never lost. -/
theorem exists_has_offer_of {new : SExpressionInfo} {kept : List SExpressionInfo}
    {props : SExpressionProperties} (h : (∃ x ∈ kept, x.Has props) ∨ new.Has props) :
    ∃ x ∈ offer new kept, x.Has props := by
  rcases h with ⟨x, hx, hprops⟩ | hprops
  · obtain ⟨i, hi⟩ := List.mem_iff_getElem?.1 hx
    obtain ⟨y, hy, hdom⟩ := offer_getElem? new hi
    exact ⟨y, List.mem_of_getElem? hy, isASupersetOfProperties_trans hdom.1 hprops⟩
  · obtain ⟨y, hy, hdom⟩ := offer_new new kept
    exact ⟨y, hy, isASupersetOfProperties_trans hdom.1 hprops⟩

/-- **An offer gives the group the properties of the new expression, and no others.** -/
theorem exists_has_offer_iff {new : SExpressionInfo} {kept : List SExpressionInfo}
    {props : SExpressionProperties} :
    (∃ x ∈ offer new kept, x.Has props) ↔ (∃ x ∈ kept, x.Has props) ∨ new.Has props := by
  refine ⟨?_, exists_has_offer_of⟩
  rintro ⟨x, hx, hprops⟩
  rcases mem_of_mem_offer hx with hx | rfl
  · exact .inl ⟨x, hx, hprops⟩
  · exact .inr hprops

/-- A new expression that none of the kept ones can stand for is kept. -/
theorem mem_offer_new {new : SExpressionInfo} {kept : List SExpressionInfo}
    (h : ∀ old ∈ kept, ¬old.Has new.m_properties) : new ∈ offer new kept := by
  induction kept with
  | nil => exact List.mem_cons_self
  | cons old rest ih =>
    have hgo := List.mem_cons_of_mem old (ih fun x hx => h x (List.mem_cons_of_mem old hx))
    have hold : ¬IsASupersetOfProperties old.m_properties new.m_properties = true :=
      h old List.mem_cons_self
    rw [offer, if_neg hold]
    split_ifs
    exacts [List.mem_cons_self, hgo, hgo]

/-! ## Reading the state -/

section State

variable {Key : Type} {join : NAryJoin Key} {s : State} {g g' level : ℕ} {e : SExpressionInfo}
  {own : ℚ} {compared : Option ℚ} {atoms : Finset ℕ}

/-- Some expression of the group has the properties. -/
def State.Marked (s : State) (props : SExpressionProperties) (g : ℕ) : Prop :=
  ∃ e ∈ (s.group g).m_best_expr_info_array, e.Has props

/-- The groups that a level knows, in its array and in its heap. -/
def SLevelInfo.all (levelInfo : SLevelInfo) : List ℕ :=
  levelInfo.m_groups ++ levelInfo.m_top_k_groups.elim [] fun heap => heap.m_topk.toList

theorem group_of_length_le (h : s.groups.length ≤ g) : s.group g = SGroupInfo.new ∅ := by
  rw [State.group, List.getD_eq_getElem?_getD, List.getElem?_eq_none h]
  rfl

theorem State.Marked.lt_length {props : SExpressionProperties} (h : s.Marked props g) :
    g < s.groups.length := by
  obtain ⟨e, he, -⟩ := h
  by_contra hg
  rw [group_of_length_le (not_lt.1 hg)] at he
  cases he

@[simp] theorem length_addExpr :
    (s.AddExprToGroupIfNecessary g e own compared).groups.length = s.groups.length := by
  simp [State.AddExprToGroupIfNecessary]

theorem group_addExpr_self (hg : g < s.groups.length) :
    (s.AddExprToGroupIfNecessary g e own compared).group g =
      (s.group g).offer (ComputeCost s.m_cross_prod_penalty s.GetExprInfo e
        (s.group g).m_cardinality) := by
  simp [State.group, State.AddExprToGroupIfNecessary, hg, AddExprToGroupIfNecessary]

theorem group_addExpr_of_ne (h : g' ≠ g) :
    (s.AddExprToGroupIfNecessary g e own compared).group g' = s.group g' := by
  simp [State.group, State.AddExprToGroupIfNecessary, List.getElem?_set_ne (Ne.symm h)]

@[simp] theorem m_atoms_addExpr :
    ((s.AddExprToGroupIfNecessary g e own compared).group g').m_atoms = (s.group g').m_atoms := by
  rcases lt_or_ge g s.groups.length with hg | hg
  · rcases eq_or_ne g' g with rfl | hne
    · rw [group_addExpr_self hg]
      rfl
    · rw [group_addExpr_of_ne hne]
  · simp [State.group, State.AddExprToGroupIfNecessary, List.set_eq_of_length_le hg]

/-- **An addition marks its group with the properties of the expression, and nothing else.** -/
theorem marked_addExpr_iff (hg : g < s.groups.length) {props : SExpressionProperties} :
    (s.AddExprToGroupIfNecessary g e own compared).Marked props g' ↔
      s.Marked props g' ∨ g' = g ∧ e.Has props := by
  rcases eq_or_ne g' g with rfl | hne
  · rw [State.Marked, group_addExpr_self hg, SGroupInfo.offer]
    simp [exists_has_offer_iff, State.Marked]
  · simp [State.Marked, group_addExpr_of_ne hne, hne]

theorem groups_newGroup : (s.newGroup join level atoms e).groups =
    ((s.pushGroup atoms (join.Rows e.m_expr)).AddExprToGroupIfNecessary s.groups.length e
      e.m_cost_adj_PS none).groups := by
  rw [State.newGroup]
  split_ifs <;> rfl

theorem group_newGroup : (s.newGroup join level atoms e).group g =
    ((s.pushGroup atoms (join.Rows e.m_expr)).AddExprToGroupIfNecessary s.groups.length e
      e.m_cost_adj_PS none).group g := by
  rw [State.group, groups_newGroup, State.group]

theorem length_pushGroup {m_cardinality : ℚ} :
    (s.pushGroup atoms m_cardinality).groups.length = s.groups.length + 1 :=
  List.length_append

theorem group_pushGroup_of_lt {m_cardinality : ℚ} (h : g < s.groups.length) :
    (s.pushGroup atoms m_cardinality).group g = s.group g := by
  simp [State.group, State.pushGroup, List.getElem?_append_left h]

theorem group_pushGroup_self {m_cardinality : ℚ} :
    (s.pushGroup atoms m_cardinality).group s.groups.length =
      { SGroupInfo.new atoms with m_cardinality } := by
  simp [State.group, State.pushGroup]

theorem length_newGroup :
    (s.newGroup join level atoms e).groups.length = s.groups.length + 1 := by
  rw [groups_newGroup, length_addExpr, length_pushGroup]

theorem group_newGroup_of_lt (h : g < s.groups.length) :
    (s.newGroup join level atoms e).group g = s.group g := by
  rw [group_newGroup, group_addExpr_of_ne h.ne, group_pushGroup_of_lt h]

/-- The new group has the one expression. -/
theorem group_newGroup_self (join : NAryJoin Key) (s : State) (level : ℕ) (atoms : Finset ℕ)
    (e : SExpressionInfo) : ∃ x lowest,
    (s.newGroup join level atoms e).group s.groups.length =
        ⟨atoms, [x], join.Rows e.m_expr, lowest⟩ ∧
      x.m_expr = e.m_expr ∧ x.m_properties = e.m_properties ∧
      (e.m_children = none → x.m_cost_adj_PS = e.m_cost_adj_PS) := by
  have hlt : s.groups.length < (s.pushGroup atoms (join.Rows e.m_expr)).groups.length := by
    rw [length_pushGroup]
    exact Nat.lt_succ_self _
  rw [group_newGroup, group_addExpr_self hlt, group_pushGroup_self]
  refine ⟨_, _, rfl, m_expr_computeCost .., m_properties_computeCost .., fun hchildren => ?_⟩
  rw [ComputeCost.eq_def, hchildren]

theorem levels_newGroup (join : NAryJoin Key) (s : State) (level : ℕ) (atoms : Finset ℕ)
    (e : SExpressionInfo) : ∃ cost, (s.newGroup join level atoms e).m_join_levels =
    Function.update s.m_join_levels level ((s.m_join_levels level).add s.groups.length cost) := by
  rw [State.newGroup]
  split_ifs <;> exact ⟨_, rfl⟩

theorem setEntry_self {map : Finset ℕ → Option ℕ} {entry : Option ℕ} :
    setEntry map atoms entry atoms = entry := if_pos rfl

theorem setEntry_of_ne {map : Finset ℕ → Option ℕ} {entry : Option ℕ} {key : Finset ℕ}
    (h : key ≠ atoms) : setEntry map atoms entry key = map key := if_neg h

theorem map_newGroup (hlevel : 1 < level) :
    (s.newGroup join level atoms e).m_bitset_to_group_info_map =
      setEntry s.m_bitset_to_group_info_map atoms (some s.groups.length) := by
  rw [State.newGroup, if_pos hlevel]
  rfl

theorem map_newGroup_one : (s.newGroup join 1 atoms e).m_bitset_to_group_info_map =
    s.m_bitset_to_group_info_map := by
  rw [State.newGroup, if_neg (lt_irrefl 1)]
  rfl

theorem penalty_newGroup :
    (s.newGroup join level atoms e).m_cross_prod_penalty = s.m_cross_prod_penalty := by
  rw [State.newGroup]
  split_ifs <;> rfl

/-- A level knows one group more when one is added. -/
theorem mem_all_add {levelInfo : SLevelInfo} {cost : ℕ → ℚ} :
    g' ∈ (levelInfo.add g cost).all ↔ g' ∈ levelInfo.all ∨ g' = g := by
  obtain ⟨groups, _ | heap⟩ := levelInfo
  · simp [SLevelInfo.add, SLevelInfo.all]
  · simp only [SLevelInfo.add, SLevelInfo.all, Option.elim, List.mem_append,
      KHeap.mem_insert, or_assoc]

end State

/-! ## The invariant -/

section Invariant

variable {Key : Type} (join : NAryJoin Key)

/-- The tree joins exactly these atoms, each of them once. -/
def JoinExpr.Joins (expr : JoinExpr) (atoms : Finset ℕ) : Prop :=
  expr.leaves.Nodup ∧ expr.leaves.toFinset = atoms

/-- A group that expressions can be taken from. -/
structure GroupOk (group_info : SGroupInfo) : Prop where
  atoms : group_info.m_atoms ⊆ Finset.range join.m_ulComps.toNat
  stats : ∃ e ∈ group_info.m_best_expr_info_array, e.Has EJoinOrderStats
  joins : ∀ e ∈ group_info.m_best_expr_info_array, e.m_expr.Joins group_info.m_atoms

/-- The group of an atom, which only the atom is ever added to. -/
structure AtomOk (atom_id : ℕ) (group_info : SGroupInfo) : Prop where
  atoms : group_info.m_atoms = {atom_id}
  dp : ∃ e ∈ group_info.m_best_expr_info_array, e.Has EJoinOrderDP
  unadjusted : ∀ e ∈ group_info.m_best_expr_info_array, e.m_cost_adj_PS = 0

/-- **The invariant of the search** once the first `m` atoms have their groups. -/
structure Inv (m : ℕ) (s : State) : Prop where
  le_length : m ≤ s.groups.length
  groups : ∀ g < s.groups.length, GroupOk join (s.group g)
  atomLevel : s.m_join_levels 1 = ⟨List.range m, none⟩
  atomGroups : ∀ a < m, AtomOk a (s.group a)
  levels : ∀ level, ∀ g ∈ (s.m_join_levels level).all,
    g < s.groups.length ∧ (s.group g).m_atoms.card = level
  heaps : ∀ level heap, (s.m_join_levels level).m_top_k_groups = some heap →
    heap.m_num_returned = 0
  map : ∀ atoms g, s.m_bitset_to_group_info_map atoms = some g →
    g ∈ (s.m_join_levels atoms.card).all ∧ (s.group g).m_atoms = atoms ∧ 2 ≤ atoms.card

/-- **The costs of an added expression are right**: its cost is made of its cardinality and its
    children's costs, its adjustment of its own one and its children's, each counted once, and the
    sum is what the caller compared. -/
structure Addition.Right (addition : Addition) : Prop where
  cost : addition.recorded.m_cost =
    match addition.children with
    | none => addition.m_cardinality
    | some (left, right) =>
      let dCost := addition.m_cardinality + left.m_cost + right.m_cost
      if FCrossJoin addition.recorded.m_expr then dCost * addition.m_cross_prod_penalty else dCost
  adjustment : addition.recorded.m_cost_adj_PS =
    match addition.children with
    | none => addition.own_adj_PS
    | some (left, right) => addition.own_adj_PS + left.m_cost_adj_PS + right.m_cost_adj_PS
  compared : ∀ cost ∈ addition.compared, addition.recorded.GetCost = cost

/-- All additions so far are right. -/
def State.Right (s : State) : Prop := ∀ addition ∈ s.additions, addition.Right

/-- What the steps of the exhaustive search do to the state: nothing is forgotten, no heap comes up,
    no group is marked for a greedy strategy and no addition goes wrong. -/
structure Grows (s s' : State) : Prop where
  length_le : s.groups.length ≤ s'.groups.length
  atoms : ∀ g < s.groups.length, (s'.group g).m_atoms = (s.group g).m_atoms
  known : ∀ level, ∀ g ∈ (s.m_join_levels level).all, g ∈ (s'.m_join_levels level).all
  heapless : ∀ level, (s.m_join_levels level).m_top_k_groups = none →
    (s'.m_join_levels level).m_top_k_groups = none
  limit : ∀ level heap', (s'.m_join_levels level).m_top_k_groups = some heap' →
    ∃ heap, (s.m_join_levels level).m_top_k_groups = some heap ∧ heap'.m_k = heap.m_k
  marks : ∀ algo, IsAlgo algo → ∀ g, s'.Marked algo g ↔ s.Marked algo g
  right : s.Right → s'.Right

variable {join} {m : ℕ} {s s' s'' : State} {g level : ℕ} {atoms : Finset ℕ} {e : SExpressionInfo}

theorem Grows.refl (s : State) : Grows s s :=
  ⟨le_rfl, fun _ _ => rfl, fun _ _ h => h, fun _ h => h, fun _ heap h => ⟨heap, h, rfl⟩,
    fun _ _ _ => Iff.rfl, fun h => h⟩

theorem Grows.trans (h : Grows s s') (h' : Grows s' s'') : Grows s s'' where
  length_le := h.length_le.trans h'.length_le
  atoms g hg := (h'.atoms g (hg.trans_le h.length_le)).trans (h.atoms g hg)
  known level g hg := h'.known level g (h.known level g hg)
  heapless level hnone := h'.heapless level (h.heapless level hnone)
  limit level heap'' hheap := by
    obtain ⟨heap', hheap', hk'⟩ := h'.limit level heap'' hheap
    obtain ⟨heap, hheap, hk⟩ := h.limit level heap' hheap'
    exact ⟨heap, hheap, hk'.trans hk⟩
  marks algo halgo g := (h'.marks algo halgo g).trans (h.marks algo halgo g)
  right hright := h'.right (h.right hright)

/-! ### Additions -/

/-- An offer of a tree over the group's atoms keeps the group in order. -/
theorem GroupOk.offer {group_info : SGroupInfo} (h : GroupOk join group_info)
    (he : e.m_expr.Joins group_info.m_atoms) : GroupOk join (group_info.offer e) where
  atoms := h.atoms
  stats := exists_has_offer_of (.inl h.stats)
  joins x hx := by
    rcases mem_of_mem_offer hx with hx | rfl
    · exact h.joins x hx
    · exact he

/-- **An addition to a group of two atoms or more keeps the invariant.** -/
theorem Inv.addExpr (h : Inv join m s) (hg : g < s.groups.length)
    (hcard : 2 ≤ (s.group g).m_atoms.card) (he : e.m_expr.Joins (s.group g).m_atoms)
    (own : ℚ) (compared : Option ℚ) :
    Inv join m (s.AddExprToGroupIfNecessary g e own compared) where
  le_length := h.le_length.trans_eq length_addExpr.symm
  groups g' hg' := by
    rw [length_addExpr] at hg'
    rcases eq_or_ne g' g with rfl | hne
    · rw [group_addExpr_self hg]
      refine (h.groups g' hg).offer ?_
      rwa [m_expr_computeCost]
    · rw [group_addExpr_of_ne hne]
      exact h.groups g' hg'
  atomLevel := h.atomLevel
  atomGroups a ha := by
    have hne : a ≠ g := by
      rintro rfl
      rw [(h.atomGroups a ha).atoms, Finset.card_singleton] at hcard
      omega
    rw [group_addExpr_of_ne hne]
    exact h.atomGroups a ha
  levels level g' hg' := by
    rw [length_addExpr, m_atoms_addExpr]
    exact h.levels level g' hg'
  heaps := h.heaps
  map atoms g' hg' := by
    rw [m_atoms_addExpr]
    exact h.map atoms g' hg'

/-- **One evaluation makes the costs right.** -/
theorem right_addExpr (h : s.Right) :
    (s.AddExprToGroupIfNecessary g e e.m_cost_adj_PS none).Right := by
  intro addition hmem
  rcases List.mem_append.1 hmem with hold | hnew
  · exact h addition hold
  · rw [List.mem_singleton.1 hnew]
    refine ⟨?_, ?_, nofun⟩
    all_goals
      dsimp only
      rw [ComputeCost.eq_def]
      cases e.m_children <;> rfl

theorem grows_addExpr (hg : g < s.groups.length) (he : ∀ algo, IsAlgo algo → ¬e.Has algo) :
    Grows s (s.AddExprToGroupIfNecessary g e e.m_cost_adj_PS none) where
  length_le := length_addExpr.ge
  atoms _ _ := m_atoms_addExpr
  known _ _ h := h
  heapless _ h := h
  limit _ heap h := ⟨heap, h, rfl⟩
  marks algo halgo g' := by
    rw [marked_addExpr_iff hg]
    simp [he algo halgo]
  right := right_addExpr

/-! ### New groups -/

/-- **A new group of two atoms or more keeps the invariant.** -/
theorem Inv.newGroup (h : Inv join m s) (hlevel : atoms.card = level) (htwo : 2 ≤ level)
    (hatoms : atoms ⊆ Finset.range join.m_ulComps.toNat) (hjoins : e.m_expr.Joins atoms)
    (hstats : e.Has EJoinOrderStats) : Inv join m (s.newGroup join level atoms e) := by
  obtain ⟨x, lowest, hself, hexpr, hprops, -⟩ :=
    group_newGroup_self join s level atoms e
  obtain ⟨cost, hlevels⟩ :=
    levels_newGroup join s level atoms e
  have hnew : ∀ l g, g ∈ ((s.newGroup join level atoms e).m_join_levels l).all ↔
      g ∈ (s.m_join_levels l).all ∨ l = level ∧ g = s.groups.length := by
    intro l g
    rw [hlevels]
    rcases eq_or_ne l level with rfl | hne
    · simp [mem_all_add]
    · simp [hne]
  have hgroup : ∀ g < s.groups.length + 1, g < s.groups.length ∨ g = s.groups.length := by
    omega
  constructor
  · rw [length_newGroup]
    exact h.le_length.trans (Nat.le_succ _)
  · intro g hg
    rw [length_newGroup] at hg
    rcases hgroup g hg with hlt | rfl
    · rw [group_newGroup_of_lt hlt]
      exact h.groups g hlt
    · rw [hself]
      refine ⟨hatoms, ⟨x, List.mem_cons_self, ?_⟩, fun y hy => ?_⟩
      · rwa [SExpressionInfo.Has, hprops]
      · rw [List.mem_singleton.1 hy, hexpr]
        exact hjoins
  · rw [hlevels, Function.update_of_ne (by omega), h.atomLevel]
  · intro a ha
    rw [group_newGroup_of_lt (ha.trans_le h.le_length)]
    exact h.atomGroups a ha
  · intro l g hg
    rw [length_newGroup]
    rcases (hnew l g).1 hg with hold | ⟨rfl, rfl⟩
    · obtain ⟨hlt, hcard⟩ := h.levels l g hold
      rw [group_newGroup_of_lt hlt]
      exact ⟨hlt.trans (Nat.lt_succ_self _), hcard⟩
    · rw [hself]
      exact ⟨Nat.lt_succ_self _, hlevel⟩
  · intro l heap hheap
    rw [hlevels] at hheap
    rcases eq_or_ne l level with rfl | hne
    · rw [Function.update_self] at hheap
      rw [SLevelInfo.add] at hheap
      split at hheap
      · next hnone =>
        rw [hnone] at hheap
        cases hheap
      · next old hold =>
        cases hheap
        exact h.heaps l old hold
    · rw [Function.update_of_ne hne] at hheap
      exact h.heaps l heap hheap
  · intro atoms' g hg
    rw [map_newGroup (by omega)] at hg
    rcases eq_or_ne atoms' atoms with rfl | hne
    · rw [setEntry_self] at hg
      cases hg
      rw [hnew, hself]
      exact ⟨.inr ⟨hlevel, rfl⟩, rfl, hlevel ▸ htwo⟩
    · rw [setEntry_of_ne hne] at hg
      obtain ⟨hmem, hatoms', hcard⟩ := h.map atoms' g hg
      rw [group_newGroup_of_lt (h.levels _ g hmem).1]
      exact ⟨(hnew _ g).2 (.inl hmem), hatoms', hcard⟩

theorem right_newGroup (h : s.Right) : (s.newGroup join level atoms e).Right := by
  have hpush : (s.pushGroup atoms (join.Rows e.m_expr)).Right := h
  have hadd : (s.newGroup join level atoms e).additions =
      ((s.pushGroup atoms (join.Rows e.m_expr)).AddExprToGroupIfNecessary s.groups.length e
        e.m_cost_adj_PS none).additions := by
    rw [State.newGroup]
    split_ifs <;> rfl
  rw [State.Right, hadd]
  exact right_addExpr hpush

theorem grows_newGroup (he : ∀ algo, IsAlgo algo → ¬e.Has algo) :
    Grows s (s.newGroup join level atoms e) := by
  obtain ⟨x, lowest, hself, -, hprops, -⟩ :=
    group_newGroup_self join s level atoms e
  obtain ⟨cost, hlevels⟩ :=
    levels_newGroup join s level atoms e
  constructor
  · rw [length_newGroup]
    exact Nat.le_succ _
  · intro g hg
    rw [group_newGroup_of_lt hg]
  · intro l g hg
    rw [hlevels]
    rcases eq_or_ne l level with rfl | hne
    · rw [Function.update_self, mem_all_add]
      exact .inl hg
    · rwa [Function.update_of_ne hne]
  · intro l hnone
    rw [hlevels]
    rcases eq_or_ne l level with rfl | hne
    · rw [Function.update_self, SLevelInfo.add, hnone]
    · rwa [Function.update_of_ne hne]
  · intro l heap' hheap
    rw [hlevels] at hheap
    rcases eq_or_ne l level with rfl | hne
    · rw [Function.update_self, SLevelInfo.add] at hheap
      split at hheap
      · next hnone =>
        rw [hnone] at hheap
        cases hheap
      · next old hold =>
        cases hheap
        exact ⟨old, hold, rfl⟩
    · rw [Function.update_of_ne hne] at hheap
      exact ⟨heap', hheap, rfl⟩
  · intro algo halgo g
    rcases lt_trichotomy g s.groups.length with hlt | rfl | hgt
    · rw [State.Marked, group_newGroup_of_lt hlt, State.Marked]
    · have hold : ¬s.Marked algo s.groups.length := fun hmark => lt_irrefl _ hmark.lt_length
      have hnew : ¬(s.newGroup join level atoms e).Marked algo s.groups.length := by
        rintro ⟨y, hy, hhas⟩
        rw [hself] at hy
        rw [List.mem_singleton.1 hy, SExpressionInfo.Has, hprops] at hhas
        exact he algo halgo hhas
      exact iff_of_false hnew hold
    · refine iff_of_false (fun hmark => ?_) fun hmark => (hgt.trans hmark.lt_length).ne rfl
      have hlt := hmark.lt_length
      rw [length_newGroup] at hlt
      omega
  · exact right_newGroup

/-! ### Joins of two groups -/

variable {props : SExpressionProperties}

/-- A group is marked exactly when a best expression for the properties is found. -/
theorem marked_iff_isSome :
    s.Marked props g ↔ (GetBestExprForProperties (s.group g) props).isSome := by
  have hspec := getBestExprForProperties_spec (s.group g) props
  cases hbest : GetBestExprForProperties (s.group g) props with
  | none =>
    rw [hbest] at hspec
    exact iff_of_false (fun ⟨e, he, hhas⟩ => hspec e he hhas) Bool.false_ne_true
  | some ix =>
    rw [hbest] at hspec
    obtain ⟨x, hx, hhas, -⟩ := hspec
    exact iff_of_true ⟨x, List.mem_of_getElem? hx, hhas⟩ rfl

theorem getExprInfo_spec {ix : ℕ} (h : GetBestExprForProperties (s.group g) props = some ix) :
    s.GetExprInfo ⟨g, ix⟩ ∈ (s.group g).m_best_expr_info_array ∧
      (s.GetExprInfo ⟨g, ix⟩).Has props := by
  have hspec := getBestExprForProperties_spec (s.group g) props
  rw [h] at hspec
  obtain ⟨x, hx, hhas, -⟩ := hspec
  have hget : s.GetExprInfo ⟨g, ix⟩ = x := by
    rw [State.GetExprInfo, List.getD_eq_getElem?_getD, hx, Option.getD_some]
  rw [hget]
  exact ⟨List.mem_of_getElem? hx, hhas⟩

theorem leaves_joinOperator {left right : Finset ℕ} {op : JoinExpr → JoinExpr → JoinExpr}
    (h : joinOperator join left right = some op) (l r : JoinExpr) :
    (op l r).leaves = l.leaves ++ r.leaves := by
  rw [joinOperator] at h
  split at h
  · cases h
  · split at h
    · split at h
      · cases h
      · cases h
        rfl
    · split at h
      · cases h
        rfl
      · cases h

/-- What a join expression is made of. -/
theorem getJoinExpr_spec {left right : SGroupAndExpression}
    (h : GetJoinExpr join s left right props = some e) :
    e.m_expr.leaves = (s.GetExprInfo left).m_expr.leaves ++ (s.GetExprInfo right).m_expr.leaves ∧
      e.m_children = some (left, right) ∧ e.m_properties = props ∧ e.m_cost_adj_PS = 0 := by
  rw [GetJoinExpr, Option.map_eq_some_iff] at h
  obtain ⟨op, hop, rfl⟩ := h
  exact ⟨leaves_joinOperator hop _ _, rfl, rfl, rfl⟩

/-- Whether two groups can be joined depends on their atoms only. -/
theorem isSome_getJoinExpr (join : NAryJoin Key) (s : State) (left right : SGroupAndExpression)
    (props : SExpressionProperties) :
    (GetJoinExpr join s left right props).isSome =
      (joinOperator join (s.group left.m_group_info).m_atoms
        (s.group right.m_group_info).m_atoms).isSome := by
  rw [GetJoinExpr, Option.isSome_map]

theorem JoinExpr.Joins.of_leaves {l r expr : JoinExpr} {left right : Finset ℕ}
    (hl : l.Joins left) (hr : r.Joins right) (hdisj : Disjoint left right)
    (h : expr.leaves = l.leaves ++ r.leaves) : expr.Joins (left ∪ right) := by
  obtain ⟨hlnodup, rfl⟩ := hl
  obtain ⟨hrnodup, rfl⟩ := hr
  rw [Finset.disjoint_left] at hdisj
  constructor
  · rw [h, List.nodup_append]
    refine ⟨hlnodup, hrnodup, fun a ha b hb hab => ?_⟩
    subst hab
    exact hdisj (List.mem_toFinset.2 ha) (List.mem_toFinset.2 hb)
  · rw [h, List.toFinset_append]

/-- A join of two disjoint groups joins their atoms. -/
theorem Inv.joins_getJoinExpr (h : Inv join m s) {left right : SGroupAndExpression}
    (hleft : left.m_group_info < s.groups.length) (hright : right.m_group_info < s.groups.length)
    (hl : s.GetExprInfo left ∈ (s.group left.m_group_info).m_best_expr_info_array)
    (hr : s.GetExprInfo right ∈ (s.group right.m_group_info).m_best_expr_info_array)
    (hdisj : Disjoint (s.group left.m_group_info).m_atoms (s.group right.m_group_info).m_atoms)
    (he : GetJoinExpr join s left right props = some e) :
    e.m_expr.Joins
      ((s.group left.m_group_info).m_atoms ∪ (s.group right.m_group_info).m_atoms) :=
  ((h.groups _ hleft).joins _ hl).of_leaves ((h.groups _ hright).joins _ hr) hdisj
    (getJoinExpr_spec he).1

/-- The join of two groups for some properties. -/
theorem Inv.getJoinExprForProperties_spec (h : Inv join m s) {left right : ℕ}
    (hleft : left < s.groups.length) (hright : right < s.groups.length)
    (hdisj : Disjoint (s.group left).m_atoms (s.group right).m_atoms)
    (he : GetJoinExprForProperties join s left right props = some e) :
    e.m_expr.Joins ((s.group left).m_atoms ∪ (s.group right).m_atoms) ∧
      e.m_properties = props ∧ e.m_cost_adj_PS = 0 ∧
      (∃ left_ix right_ix, e.m_children = some (⟨left, left_ix⟩, ⟨right, right_ix⟩)) ∧
      (joinOperator join (s.group left).m_atoms (s.group right).m_atoms).isSome := by
  rw [GetJoinExprForProperties, Option.bind_eq_some_iff] at he
  obtain ⟨left_ix, hl, he⟩ := he
  rw [Option.bind_eq_some_iff] at he
  obtain ⟨right_ix, hr, he⟩ := he
  obtain ⟨-, hchildren, hprops, hadj⟩ := getJoinExpr_spec he
  refine ⟨h.joins_getJoinExpr hleft hright (getExprInfo_spec hl).1 (getExprInfo_spec hr).1 hdisj he,
    hprops, hadj, ⟨left_ix, right_ix, hchildren⟩, ?_⟩
  rw [← isSome_getJoinExpr join s ⟨left, left_ix⟩ ⟨right, right_ix⟩ props, he]
  rfl

/-- Two groups that have expressions with the properties and can be joined are joined. -/
theorem exists_getJoinExprForProperties {left right : ℕ} (hl : s.Marked props left)
    (hr : s.Marked props right)
    (hop : (joinOperator join (s.group left).m_atoms (s.group right).m_atoms).isSome) :
    ∃ e, GetJoinExprForProperties join s left right props = some e := by
  obtain ⟨left_ix, hleft⟩ := Option.isSome_iff_exists.1 (marked_iff_isSome.1 hl)
  obtain ⟨right_ix, hright⟩ := Option.isSome_iff_exists.1 (marked_iff_isSome.1 hr)
  rw [GetJoinExprForProperties, hleft, Option.bind_some, hright, Option.bind_some,
    ← Option.isSome_iff_exists, isSome_getJoinExpr]
  exact hop

/-- The effect of looking a group up: it is there already, or there is one group more. -/
structure Created (level : ℕ) (s s' : State) : Prop where
  grows : Grows s s'
  group : ∀ g < s.groups.length, s'.group g = s.group g
  levels : ∀ l ≠ level, s'.m_join_levels l = s.m_join_levels l
  penalty : s'.m_cross_prod_penalty = s.m_cross_prod_penalty

theorem Created.refl (level : ℕ) (s : State) : Created level s s :=
  ⟨.refl s, fun _ _ => rfl, fun _ _ => rfl, rfl⟩

theorem Created.trans (h : Created level s s') (h' : Created level s' s'') :
    Created level s s'' :=
  ⟨h.grows.trans h'.grows,
    fun g hg => (h'.group g (hg.trans_le h.grows.length_le)).trans (h.group g hg),
    fun l hl => (h'.levels l hl).trans (h.levels l hl), h'.penalty.trans h.penalty⟩

/-- **`LookupOrCreateGroupInfo` finds or makes a group of the level with these atoms**: an
expression with statistics can be built wherever the join can be. -/
theorem Inv.lookupOrCreateGroupInfo (h : Inv join m s) {left right left_ix right_ix : ℕ}
    (hleft : left < s.groups.length) (hright : right < s.groups.length)
    (hdisj : Disjoint (s.group left).m_atoms (s.group right).m_atoms)
    (hlevel : (s.group left).m_atoms.card + (s.group right).m_atoms.card = level)
    (htwo : 2 ≤ level)
    (hop : (joinOperator join (s.group left).m_atoms (s.group right).m_atoms).isSome)
    (hchildren : e.m_children = some (⟨left, left_ix⟩, ⟨right, right_ix⟩))
    (hstats : Satisfies e.m_properties EJoinOrderStats = false) :
    ∃ g s', LookupOrCreateGroupInfo join level
        ((s.group left).m_atoms ∪ (s.group right).m_atoms) e s = some (g, s') ∧
      Inv join m s' ∧ Created level s s' ∧ g ∈ (s'.m_join_levels level).all ∧
      (s'.group g).m_atoms = (s.group left).m_atoms ∪ (s.group right).m_atoms := by
  have hcard : ((s.group left).m_atoms ∪ (s.group right).m_atoms).card = level := by
    rw [Finset.card_union_of_disjoint hdisj, hlevel]
  rw [LookupOrCreateGroupInfo]
  cases hmap : s.m_bitset_to_group_info_map
      ((s.group left).m_atoms ∪ (s.group right).m_atoms) with
  | some g =>
    obtain ⟨hmem, hatoms, -⟩ := h.map _ g hmap
    rw [hcard] at hmem
    exact ⟨g, s, rfl, h, .refl level s, hmem, hatoms⟩
  | none =>
    have hleftStats : s.Marked EJoinOrderStats left := (h.groups left hleft).stats
    obtain ⟨real, hreal⟩ := exists_getJoinExprForProperties hleftStats
      (h.groups right hright).stats hop
    obtain ⟨hjoins, hprops, -⟩ := h.getJoinExprForProperties_spec hleft hright hdisj hreal
    have hhas : real.Has EJoinOrderStats := by
      rw [SExpressionInfo.Has, hprops]
      exact isASupersetOfProperties_refl _
    have hsub : (s.group left).m_atoms ∪ (s.group right).m_atoms ⊆
        Finset.range join.m_ulComps.toNat :=
      Finset.union_subset (h.groups left hleft).atoms (h.groups right hright).atoms
    have hnone : ∀ algo, IsAlgo algo → ¬real.Has algo := by
      intro algo halgo
      rw [SExpressionInfo.Has, hprops, halgo.not_superset.2.1]
      exact Bool.false_ne_true
    obtain ⟨x, lowest, hself, -⟩ := group_newGroup_self join s level
      ((s.group left).m_atoms ∪ (s.group right).m_atoms) real
    obtain ⟨cost, hlevels⟩ := levels_newGroup join s level
      ((s.group left).m_atoms ∪ (s.group right).m_atoms) real
    refine ⟨s.groups.length, s.newGroup join level _ real, ?_,
      h.newGroup hcard htwo hsub hjoins hhas, ⟨grows_newGroup hnone,
        fun g hg => group_newGroup_of_lt hg, fun l hl => ?_, penalty_newGroup⟩, ?_, ?_⟩
    · simp [hstats, hchildren, hreal]
    · rw [hlevels, Function.update_of_ne hl]
    · rw [hlevels, Function.update_self, mem_all_add]
      exact .inr rfl
    · rw [hself]

end Invariant

end BossOptimizer.CJoinOrderDPv2

import BossOptimizer.Xforms.GroupLimits
import BossOptimizer.Xforms.JoinGroups
import BossOptimizer.Xforms.KHeap

/-!
# The join search: `CJoinOrderDPv2`

The search enumerates join trees level by level. A group has a number, which stands for the pointer
to it; a result `none` of a step is a crash (a NULL pointer or a division by zero). The strategies
`EnumerateDP`, `EnumerateQuery`, `EnumerateMinCard` and `EnumerateGreedyAvoidXProd` do not branch on
what they find, so that each is the list of the calls it makes. Statistics and the columns that a
partition key shares with a join predicate are parameters; the heaps of complete join trees are left
out.
-/

namespace BossOptimizer.CJoinOrderDPv2

/-! ## The join -/

/-- `SEdge` (CJoinOrder.h): the atoms that a conjunct refers to and its outer join, 0 for none. -/
structure SEdge where
  m_pbs : Finset ℕ
  m_loj_num : ℕ

/-- What the search reads of an atom: the partition keys of a partitioned table, whether it is a
    selection, and the rows of its base table or -1. -/
structure SAtom (Key : Type) where
  m_atom_part_keys_array : Option (List Key)
  isSelect : Bool
  m_atom_base_table_rows : ℚ

/-- An n-ary join with the parameters of the search. -/
structure NAryJoin (Key : Type) where
  m_ulComps : UInt32
  m_rgpcomp : ℕ → SAtom Key
  m_rgpedge : List SEdge
  /-- The number of ON predicates. -/
  m_on_pred_conjuncts : ℕ
  m_child_pred_indexes : ℕ → ℕ
  /-- `Pstats()->Rows()` of a tree whose statistics have been derived. -/
  Rows : JoinExpr → ℚ
  /-- `FOverlap` of a partition key with the columns of the join's predicate. -/
  FOverlap : Key → JoinExpr → Bool
  distribution_cost_factor : ℚ
  join_order_exhaustive_limit : UInt32

/-- The trace flags that restrict the search to one strategy. -/
structure TraceFlags where
  EopttraceGreedyOnlyInDPv2 : Bool
  EopttraceMinCardOnlyInDPv2 : Bool
  EopttraceQueryOnlyInDPv2 : Bool

/-! ## The state -/

/-- `SLevelInfo` (CJoinOrderDPv2.h:556). -/
structure SLevelInfo where
  m_groups : List ℕ
  m_top_k_groups : Option (KHeap ℕ)

/-- The history of `AddExprToGroupIfNecessary`, which no function reads: the expression's own
    adjustment, the cost that the caller compared, and what went into the costs. -/
structure Addition where
  own_adj_PS : ℚ
  compared : Option ℚ
  m_cardinality : ℚ
  m_cross_prod_penalty : ℚ
  children : Option (SExpressionInfo × SExpressionInfo)
  recorded : SExpressionInfo

/-- The fields of `CJoinOrderDPv2` that the search changes, with the groups behind the pointers. -/
structure State where
  groups : List SGroupInfo
  m_join_levels : ℕ → SLevelInfo
  m_bitset_to_group_info_map : Finset ℕ → Option ℕ
  m_cross_prod_penalty : ℚ
  additions : List Addition

namespace State

/-- The group behind a pointer. -/
def group (s : State) (g : ℕ) : SGroupInfo := s.groups.getD g (SGroupInfo.new ∅)

/-- `GetExprInfo` (CJoinOrderDPv2.h:383). -/
def GetExprInfo (s : State) (child : SGroupAndExpression) : SExpressionInfo :=
  (s.group child.m_group_info).m_best_expr_info_array.getD child.m_expr_index
    ⟨.atom 0, none, EJoinOrderAny, 0, 0, ∅⟩

/-- `GetGroupsForLevel`. -/
def GetGroupsForLevel (s : State) (level : ℕ) : List ℕ := (s.m_join_levels level).m_groups

def setLevel (s : State) (level : ℕ) (levelInfo : SLevelInfo) : State :=
  { s with m_join_levels := Function.update s.m_join_levels level levelInfo }

/-- `AddExprToGroupIfNecessary` (CJoinOrderDPv2.cpp:504) on the group behind a pointer. -/
def AddExprToGroupIfNecessary (s : State) (group_info : ℕ) (new_expr_info : SExpressionInfo)
    (own_adj_PS : ℚ) (compared : Option ℚ) : State :=
  { s with
    groups := s.groups.set group_info
      (CJoinOrderDPv2.AddExprToGroupIfNecessary s.m_cross_prod_penalty s.GetExprInfo
        (s.group group_info) new_expr_info)
    additions := s.additions ++ [{
      own_adj_PS
      compared
      m_cardinality := (s.group group_info).m_cardinality
      m_cross_prod_penalty := s.m_cross_prod_penalty
      children := new_expr_info.m_children.map fun c => (s.GetExprInfo c.1, s.GetExprInfo c.2)
      recorded := ComputeCost s.m_cross_prod_penalty s.GetExprInfo new_expr_info
        (s.group group_info).m_cardinality }] }

/-- `AddNewPropertyToExpr` (CJoinOrderDPv2.cpp:487) on the expression at a place of a group. -/
def AddNewPropertyToExpr (s : State) (expr_info : SGroupAndExpression)
    (props : SExpressionProperties) : State :=
  let group_info := s.group expr_info.m_group_info
  { s with
    groups := s.groups.set expr_info.m_group_info
      { group_info with
        m_best_expr_info_array := group_info.m_best_expr_info_array.modify expr_info.m_expr_index
          fun e => { e with m_properties := e.m_properties ||| props } } }

end State

variable {Key : Type} (join : NAryJoin Key)

/-! ## Joining two groups -/

/-- `FindLogicalChildByNijId` (CJoinOrderDPv2.cpp:1744). -/
def FindLogicalChildByNijId (nij_num : ℕ) : ℕ :=
  ((List.range join.m_ulComps.toNat).find? fun c => join.m_child_pred_indexes c == nij_num).getD 0

/-- `m_non_inner_join_dependencies` (CJoinOrderDPv2.cpp:95-130): the atoms that an outer join needs
    on its left side. -/
def non_inner_join_dependencies (nij_num : ℕ) : Finset ℕ :=
  join.m_rgpedge.foldl (fun nijBitSet pedge =>
    if pedge.m_loj_num = nij_num then
      (nijBitSet ∪ pedge.m_pbs).erase (FindLogicalChildByNijId join nij_num)
    else nijBitSet) ∅

/-- The bits of a set of atoms, in the order of the iterator. -/
def bits (atoms : Finset ℕ) : List ℕ :=
  (List.range join.m_ulComps.toNat).filter (· ∈ atoms)

/-- `IsRightChildOfNIJ` (CJoinOrderDPv2.cpp:1690) of a group with these atoms: the number of the
    outer join, which stands for its predicate and for the atoms required on the left. -/
def IsRightChildOfNIJ (atoms : Finset ℕ) : Option ℕ :=
  if atoms.card ≠ 1 ∨ join.m_on_pred_conjuncts = 0 then none
  else
    (bits join atoms).head?.bind fun atom =>
      if join.m_child_pred_indexes atom ≠ 0 then some (join.m_child_pred_indexes atom) else none

/-- `PexprBuildInnerJoinPred` (CJoinOrderDPv2.cpp:219): the edges that connect two sets of atoms;
    no edge stands for NULL. -/
def PexprBuildInnerJoinPred (pbsFst pbsSnd : Finset ℕ) : List ℕ :=
  (join.m_rgpedge.zipIdx.filter fun pedge =>
    pedge.1.m_loj_num = 0 ∧ pedge.1.m_pbs ⊆ pbsFst ∪ pbsSnd ∧
      ¬Disjoint pbsFst pedge.1.m_pbs ∧ ¬Disjoint pbsSnd pedge.1.m_pbs).map Prod.snd

/-- The operator and the predicate of the join of two sets of atoms, if it is a valid one. -/
def joinOperator (left right : Finset ℕ) : Option (JoinExpr → JoinExpr → JoinExpr) :=
  if (IsRightChildOfNIJ join left).isSome then none
  else
    match IsRightChildOfNIJ join right with
    | none =>
      -- a cross product is built with an atom on the right only
      if PexprBuildInnerJoinPred join left right = [] ∧ right.card ≠ 1 then none
      else some (.innerJoin (PexprBuildInnerJoinPred join left right))
    | some nij_num =>
      if non_inner_join_dependencies join nij_num ⊆ left then some (.leftOuterJoin nij_num)
      else none

/-- `GetJoinExpr` (CJoinOrderDPv2.cpp:324). -/
def GetJoinExpr (s : State) (left_child_expr right_child_expr : SGroupAndExpression)
    (result_properties : SExpressionProperties) : Option SExpressionInfo :=
  (joinOperator join (s.group left_child_expr.m_group_info).m_atoms
    (s.group right_child_expr.m_group_info).m_atoms).map fun op =>
    { m_expr := op (s.GetExprInfo left_child_expr).m_expr (s.GetExprInfo right_child_expr).m_expr
      m_children := some (left_child_expr, right_child_expr)
      m_properties := result_properties
      m_cost := 0
      m_cost_adj_PS := 0
      m_contain_PS := (s.GetExprInfo left_child_expr).m_contain_PS ∪
        (s.GetExprInfo right_child_expr).m_contain_PS }

/-- `GetJoinExprForProperties` (CJoinOrderDPv2.cpp:296). -/
def GetJoinExprForProperties (s : State) (left_child right_child : ℕ)
    (required_properties : SExpressionProperties) : Option SExpressionInfo :=
  (GetBestExprForProperties (s.group left_child) required_properties).bind fun left_ix =>
    (GetBestExprForProperties (s.group right_child) required_properties).bind fun right_ix =>
      GetJoinExpr join s ⟨left_child, left_ix⟩ ⟨right_child, right_ix⟩ required_properties

/-! ## New groups -/

/-- The new group is added to the level, or to its heap while there is one. -/
def SLevelInfo.add (levelInfo : SLevelInfo) (group_info : ℕ) (cost : ℕ → ℚ) : SLevelInfo :=
  match levelInfo.m_top_k_groups with
  | none => { levelInfo with m_groups := levelInfo.m_groups ++ [group_info] }
  | some heap => { levelInfo with m_top_k_groups := some (heap.Insert cost group_info) }

/-- An entry of the map comes, goes or changes. -/
def setEntry (map : Finset ℕ → Option ℕ) (atoms : Finset ℕ) (entry : Option ℕ) :
    Finset ℕ → Option ℕ :=
  fun key => if key = atoms then entry else map key

/-- A new group without expressions. -/
def State.pushGroup (s : State) (atoms : Finset ℕ) (m_cardinality : ℚ) : State :=
  { s with groups := s.groups ++ [{ SGroupInfo.new atoms with m_cardinality }] }

/-- A new group with the expression that its statistics are derived from. -/
def State.newGroup (s : State) (level : ℕ) (atoms : Finset ℕ) (expr_info : SExpressionInfo) :
    State :=
  let group_info := s.groups.length
  let s := (s.pushGroup atoms (join.Rows expr_info.m_expr)).AddExprToGroupIfNecessary group_info
    expr_info expr_info.m_cost_adj_PS none
  let s := s.setLevel level
    ((s.m_join_levels level).add group_info fun g => (s.group g).m_lowest_expr_cost)
  if 1 < level then
    { s with
      m_bitset_to_group_info_map :=
        setEntry s.m_bitset_to_group_info_map atoms (some group_info) }
  else s

/-- `LookupOrCreateGroupInfo` (CJoinOrderDPv2.cpp:1196). -/
def LookupOrCreateGroupInfo (level : ℕ) (atoms : Finset ℕ) (stats_expr_info : SExpressionInfo)
    (s : State) : Option (ℕ × State) :=
  match s.m_bitset_to_group_info_map atoms with
  | some group_info => some (group_info, s)
  | none =>
    (if Satisfies stats_expr_info.m_properties EJoinOrderStats then some stats_expr_info
      else stats_expr_info.m_children.bind fun children =>
        GetJoinExprForProperties join s children.1.m_group_info children.2.m_group_info
          EJoinOrderStats).map fun real_expr_info_for_stats =>
      (s.groups.length, s.newGroup join level atoms real_expr_info_for_stats)

/-! ## Exhaustive search -/

/-- The effect of one atom of the partition selector's group on the adjustment
    (CJoinOrderDPv2.cpp:888-933). -/
def selectorAdjustment (s : State) (pt_atom : ℕ) (part_selector_group_info : ℕ)
    (m_cost_adj_PS : ℚ) (atom : ℕ) : ℚ :=
  let atom_ps := join.m_rgpcomp atom
  let atom_group := (s.GetGroupsForLevel 1).getD atom 0
  if atom_ps.isSelect then
    let percent_reduction :=
      if 0 < atom_ps.m_atom_base_table_rows then
        1 - (s.GetExprInfo ⟨atom_group, 0⟩).m_cost / atom_ps.m_atom_base_table_rows
      else 9 / 10
    let broadcast_penalty :=
      (s.group part_selector_group_info).m_cardinality * join.distribution_cost_factor
    m_cost_adj_PS -
      percent_reduction * (s.group ((s.GetGroupsForLevel 1).getD pt_atom 0)).m_cardinality +
      broadcast_penalty
  else m_cost_adj_PS

/-- `PopulateDPEInfo` (CJoinOrderDPv2.cpp:851): the first partitioned table of the one group, if a
    key of it is compared in the join's predicate, may have its partitions selected by the other. -/
def PopulateDPEInfo (s : State) (join_expr_info : SExpressionInfo)
    (part_table_group_info part_selector_group_info : ℕ) : SExpressionInfo :=
  match (bits join (s.group part_table_group_info).m_atoms).find? fun atom =>
      ((join.m_rgpcomp atom).m_atom_part_keys_array.getD []) ≠ [] with
  | none => join_expr_info
  | some pt_atom =>
    if ((join.m_rgpcomp pt_atom).m_atom_part_keys_array.getD []).any
        (join.FOverlap · join_expr_info.m_expr) then
      { join_expr_info with
        m_contain_PS := insert pt_atom join_expr_info.m_contain_PS
        m_cost_adj_PS := (bits join (s.group part_selector_group_info).m_atoms).foldl
          (selectorAdjustment join s pt_atom part_selector_group_info)
          join_expr_info.m_cost_adj_PS }
    else join_expr_info

/-- The alternative with a partition selector (CJoinOrderDPv2.cpp:1005-1036). -/
def searchSelector (left right : ℕ) (left_level : ℕ) (group_info : ℕ) (s : State) :
    Option State :=
  (GetJoinExprForProperties join s left right EJoinOrderAny).map fun join_expr_info =>
    let join_expr_info := PopulateDPEInfo join s join_expr_info left right
    -- two atoms are tried both ways
    let join_expr_info :=
      if left_level = 1 then PopulateDPEInfo join s join_expr_info right left else join_expr_info
    if join_expr_info.m_contain_PS ≠ ∅ then
      s.AddExprToGroupIfNecessary group_info
        { join_expr_info with
          m_properties := join_expr_info.m_properties ||| EJoinOrderHasPS }
        join_expr_info.m_cost_adj_PS none
    else s

/-- The body of the loops of `SearchJoinOrders`. -/
def searchPair (left_level right_level : ℕ) (s : State) (pair : ℕ × ℕ) : Option State :=
  let left_bitset := (s.group pair.1).m_atoms
  let right_bitset := (s.group pair.2).m_atoms
  if ¬Disjoint left_bitset right_bitset then some s
  else
    match GetJoinExprForProperties join s pair.1 pair.2 EJoinOrderDP with
    | none => some s
    | some join_expr_info =>
      (LookupOrCreateGroupInfo join (left_level + right_level) (left_bitset ∪ right_bitset)
        join_expr_info s).bind fun (group_info, s) =>
        let s := s.AddExprToGroupIfNecessary group_info join_expr_info 0 none
        if right_level ≠ 1 then some s
        else searchSelector join pair.1 pair.2 left_level group_info s

/-- The pairs of groups that `SearchJoinOrders` looks at; two groups of one level are paired one
    way only. -/
def searchPairs (s : State) (left_level right_level : ℕ) : List (ℕ × ℕ) :=
  (s.GetGroupsForLevel left_level).zipIdx.flatMap fun (left, left_ix) =>
    ((s.GetGroupsForLevel right_level).drop
      (if left_level = right_level then left_ix + 1 else 0)).map fun right => (left, right)

/-- `SearchJoinOrders` (CJoinOrderDPv2.cpp:943). -/
def SearchJoinOrders (left_level right_level : ℕ) (s : State) : Option State :=
  (searchPairs s left_level right_level).foldlM (searchPair join left_level right_level) s

/-- `LevelIsFull` (CJoinOrderDPv2.cpp:1794). -/
def LevelIsFull (s : State) (level : ℕ) : Bool :=
  match (s.m_join_levels level).m_top_k_groups with
  | none => false
  | some heap => heap.IsLimitExceeded

/-- `SearchBushyJoinOrders` (CJoinOrderDPv2.cpp:1306). -/
def SearchBushyJoinOrders (current_level : ℕ) (s : State) : Option State :=
  if LevelIsFull s current_level then some s
  else
    (List.range' 2 (current_level / 2 - 1)).foldlM (fun s right_level =>
      SearchJoinOrders join (current_level - right_level) right_level s) s

/-- `FinalizeDPLevel` (CJoinOrderDPv2.cpp:1262): the best groups of the heap go to the level, the
    others leave the map. -/
def FinalizeDPLevel (level : ℕ) (s : State) : State :=
  match (s.m_join_levels level).m_top_k_groups with
  | none => s
  | some heap =>
    let cost := fun g => (s.group g).m_lowest_expr_cost
    let winners := heap.removeWhile cost .best
    let losers := winners.2.removeWhile cost .next
    { s.setLevel level
        ⟨(s.m_join_levels level).m_groups ++ winners.1, none⟩ with
      m_bitset_to_group_info_map := losers.1.foldl
        (fun map loser => setEntry map (s.group loser).m_atoms none)
        s.m_bitset_to_group_info_map }

/-! ## Greedy search -/

/-- The solution of the level below: the first group of the level that has one. -/
def greedySolution (s : State) (left_level : ℕ) (algo : SExpressionProperties) :
    Option SGroupAndExpression :=
  (s.GetGroupsForLevel left_level).findSome? fun group_info =>
    (GetBestExprForProperties (s.group group_info) algo).map fun ix => ⟨group_info, ix⟩

/-- The body of the loop of `GreedySearchJoinOrders`: the join with one atom, with its group and
    its cost. -/
def greedyTry (left : SGroupAndExpression) (level : ℕ) (algo : SExpressionProperties)
    (right : ℕ) (s : State) : Option (Option (ℕ × SExpressionInfo) × State) :=
  let left_bitset := (s.group left.m_group_info).m_atoms
  let right_bitset := (s.group right).m_atoms
  if ¬Disjoint left_bitset right_bitset then some (none, s)
  else
    match (GetBestExprForProperties (s.group right) EJoinOrderAny).bind fun right_ix =>
        GetJoinExpr join s left ⟨right, right_ix⟩ algo with
    | none => some (none, s)
    | some join_expr_info =>
      (LookupOrCreateGroupInfo join level (left_bitset ∪ right_bitset) join_expr_info s).map
        fun (group_info, s) =>
          (some (group_info, ComputeCost s.m_cross_prod_penalty s.GetExprInfo join_expr_info
            (s.group group_info).m_cardinality), s)

/-- The cheaper one of the best so far and a new one. -/
def bestInLevel : Option (ℕ × SExpressionInfo) → Option (ℕ × SExpressionInfo) →
    Option (ℕ × SExpressionInfo)
  | best, none => best
  | none, some new => some new
  | some best, some new => if new.2.GetCost < best.2.GetCost then some new else some best

/-- The loop over the atoms. The query order takes the first valid join. -/
def greedyLoop (left : SGroupAndExpression) (level : ℕ) (algo : SExpressionProperties) :
    List ℕ → Option (ℕ × SExpressionInfo) → State →
      Option (Option (ℕ × SExpressionInfo) × State)
  | [], best, s => some (best, s)
  | right :: rest, best, s =>
    (greedyTry join left level algo right s).bind fun (new, s) =>
      if algo = EJoinOrderQuery ∧ new.isSome then some (bestInLevel best new, s)
      else greedyLoop left level algo rest (bestInLevel best new) s

/-- `GreedySearchJoinOrders` (CJoinOrderDPv2.cpp:1058). Without a solution on the level below, or
    without a join, it returns (an assertion fails in a debug build). -/
def GreedySearchJoinOrders (left_level : ℕ) (algo : SExpressionProperties) (s : State) :
    Option State :=
  match greedySolution s left_level algo with
  | none => some s
  | some left =>
    (greedyLoop join left (left_level + 1) algo
      ((s.GetGroupsForLevel 1).drop (if algo = EJoinOrderQuery then left_level else 0)) none s).map
      fun (best, s) =>
        match best with
        | none => s
        | some (group_info, expr_info) =>
          s.AddExprToGroupIfNecessary group_info
            { expr_info with m_properties := expr_info.m_properties ||| algo }
            0 (some expr_info.GetCost)

/-- The loop of `FindLowestCardTwoWayJoin`: the group with the lowest cardinality, and that. -/
def lowestCard (s : State) (prop_type : SExpressionProperties) :
    List ℕ → Option (ℕ × ℚ) → Option (ℕ × ℚ)
  | [], best => best
  | group_2 :: rest, best =>
    let first_expr := (s.GetExprInfo ⟨group_2, 0⟩).m_expr
    let card := (s.group group_2).m_cardinality
    let card :=
      if prop_type = EJoinOrderGreedyAvoidXProd ∧ FCrossJoin first_expr then
        card * s.m_cross_prod_penalty
      else card
    lowestCard s prop_type rest
      (match best with
        | none => some (group_2, card)
        | some (min_card_group, min_card) =>
          if card < min_card then some (group_2, card) else some (min_card_group, min_card))

/-- The marking of `FindLowestCardTwoWayJoin` (CJoinOrderDPv2.cpp:1542-1574). -/
def markLowestCard (prop_type : SExpressionProperties) (s : State) : Option State :=
  (lowestCard s prop_type (s.GetGroupsForLevel 2) none).bind fun (min_card_group, _) =>
    (GetBestExprForProperties (s.group min_card_group) EJoinOrderAny).map fun ix =>
      s.AddNewPropertyToExpr ⟨min_card_group, ix⟩ prop_type

/-! ## The strategies -/

/-- The calls of the search. -/
inductive Step where
  | addAtom (atom_id : ℕ)
  | setLimit (level : ℕ) (number_of_allowed_groups : Option UInt32)
  | searchJoinOrders (left_level right_level : ℕ)
  | searchBushyJoinOrders (current_level : ℕ)
  | finalizeDPLevel (level : ℕ)
  | greedySearchJoinOrders (left_level : ℕ) (algo : SExpressionProperties)
  | markLowestCard (prop_type : SExpressionProperties)
  | setPenalty (m_cross_prod_penalty : ℚ)

/-- The atom's place in the search (CJoinOrderDPv2.cpp:1352-1404). -/
def addAtom (atom_id : ℕ) (s : State) : State :=
  let props := EJoinOrderStats + EJoinOrderDP
  let props := if atom_id = 0 then props ||| EJoinOrderQuery else props
  let props :=
    if (join.m_rgpcomp atom_id).m_atom_part_keys_array.isSome then props ||| EJoinOrderHasPS
    else props
  s.newGroup join 1 {atom_id} ⟨.atom atom_id, none, props, 0, 0, ∅⟩

/-- One call. -/
def Step.run : Step → State → Option State
  | .addAtom atom_id, s => some (CJoinOrderDPv2.addAtom join atom_id s)
  | .setLimit level number_of_allowed_groups, s =>
    number_of_allowed_groups.map fun k =>
      s.setLevel level { s.m_join_levels level with m_top_k_groups := some (.new k.toNat) }
  | .searchJoinOrders left_level right_level, s => SearchJoinOrders join left_level right_level s
  | .searchBushyJoinOrders current_level, s => SearchBushyJoinOrders join current_level s
  | .finalizeDPLevel level, s => some (FinalizeDPLevel level s)
  | .greedySearchJoinOrders left_level algo, s => GreedySearchJoinOrders join left_level algo s
  | .markLowestCard prop_type, s => CJoinOrderDPv2.markLowestCard prop_type s
  | .setPenalty m_cross_prod_penalty, s => some { s with m_cross_prod_penalty }

/-- A sequence of calls. -/
def run (steps : List Step) (s : State) : Option State :=
  steps.foldlM (fun s step => step.run join s) s

/-- The levels from one on, up to the number of atoms. -/
def levelsFrom (level : ℕ) : List ℕ := List.range' level (join.m_ulComps.toNat + 1 - level)

/-- `EnumerateDP` (CJoinOrderDPv2.cpp:1432). -/
def EnumerateDP (flags : TraceFlags) : List Step :=
  if flags.EopttraceGreedyOnlyInDPv2 || flags.EopttraceMinCardOnlyInDPv2 ||
      flags.EopttraceQueryOnlyInDPv2 then []
  else
    (levelLimits join.join_order_exhaustive_limit join.m_ulComps).map
        (fun l => .setLimit l.1.toNat l.2) ++
      (levelsFrom join 2).flatMap fun level =>
        [.searchJoinOrders (level - 1) 1, .searchBushyJoinOrders level, .finalizeDPLevel level]

/-- `EnumerateQuery` (CJoinOrderDPv2.cpp:1503). -/
def EnumerateQuery (flags : TraceFlags) : List Step :=
  if flags.EopttraceGreedyOnlyInDPv2 || flags.EopttraceMinCardOnlyInDPv2 then []
  else (levelsFrom join 2).map fun level => .greedySearchJoinOrders (level - 1) EJoinOrderQuery

/-- `FindLowestCardTwoWayJoin` (CJoinOrderDPv2.cpp:1530). -/
def FindLowestCardTwoWayJoin (flags : TraceFlags) (prop_type : SExpressionProperties) : List Step :=
  if flags.EopttraceQueryOnlyInDPv2 then []
  else
    (if flags.EopttraceGreedyOnlyInDPv2 || flags.EopttraceMinCardOnlyInDPv2 then
      [.searchJoinOrders 1 1]
    else []) ++ [.markLowestCard prop_type]

/-- The steps that `EnumerateMinCard` and `EnumerateGreedyAvoidXProd` share. -/
def enumerateFromTwoWayJoin (flags : TraceFlags) (algo : SExpressionProperties) : List Step :=
  FindLowestCardTwoWayJoin flags algo ++
    (levelsFrom join 3).map fun level => .greedySearchJoinOrders (level - 1) algo

/-- `EnumerateMinCard` (CJoinOrderDPv2.cpp:1589). -/
def EnumerateMinCard (flags : TraceFlags) : List Step :=
  if flags.EopttraceQueryOnlyInDPv2 || flags.EopttraceGreedyOnlyInDPv2 then []
  else enumerateFromTwoWayJoin join flags EJoinOrderMincard

/-- `GPOPT_DPV2_CROSS_JOIN_DEFAULT_PENALTY` and `GPOPT_DPV2_CROSS_JOIN_GREEDY_PENALTY`. -/
def crossJoinDefaultPenalty : ℚ := 1024
def crossJoinGreedyPenalty : ℚ := 1000000000

/-- `EnumerateGreedyAvoidXProd` (CJoinOrderDPv2.cpp:1617). -/
def EnumerateGreedyAvoidXProd (flags : TraceFlags) : List Step :=
  if flags.EopttraceQueryOnlyInDPv2 || flags.EopttraceMinCardOnlyInDPv2 then []
  else
    .setPenalty crossJoinGreedyPenalty ::
      enumerateFromTwoWayJoin join flags EJoinOrderGreedyAvoidXProd ++
      [.setPenalty crossJoinDefaultPenalty]

/-- The atoms of `PexprExpand`. -/
def addAtoms : List Step := (List.range join.m_ulComps.toNat).map .addAtom

/-- `PexprExpand` (CJoinOrderDPv2.cpp:1330). -/
def PexprExpand (flags : TraceFlags) : List Step :=
  addAtoms join ++ EnumerateDP join flags ++ EnumerateQuery join flags ++
    EnumerateMinCard join flags ++ EnumerateGreedyAvoidXProd join flags

/-- The search before the first call. -/
def State.new : State :=
  ⟨[], fun _ => ⟨[], none⟩, fun _ => none, crossJoinDefaultPenalty, []⟩

end BossOptimizer.CJoinOrderDPv2

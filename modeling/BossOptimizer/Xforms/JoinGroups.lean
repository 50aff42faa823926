import BossOptimizer.Lib.Dominance
import Mathlib.Data.Finset.Card
import Mathlib.Algebra.Order.Ring.Rat

/-!
# The groups of the join search

A group stands for a set of atoms and keeps the expressions found for it, except those that another
one dominates: at least the same properties for at most the same cost. Costs are rational numbers.
-/

namespace BossOptimizer.CJoinOrderDPv2

/-! ## Properties -/

/-- `SExpressionProperties` (CJoinOrderDPv2.h:334), the bits of a `ULONG`. -/
abbrev SExpressionProperties := BitVec 32

/-- `JoinOrderPropType` (CJoinOrderDPv2.h:316). -/
def EJoinOrderAny : SExpressionProperties := 0
def EJoinOrderQuery : SExpressionProperties := 1
def EJoinOrderMincard : SExpressionProperties := 2
def EJoinOrderGreedyAvoidXProd : SExpressionProperties := 4
def EJoinOrderHasPS : SExpressionProperties := 8
def EJoinOrderDP : SExpressionProperties := 16
def EJoinOrderStats : SExpressionProperties := 32

/-- `Satisfies`. -/
def Satisfies (prop pt : SExpressionProperties) : Bool := pt == prop &&& pt

/-- `IsASupersetOfProperties` (CJoinOrderDPv2.cpp:415). -/
def IsASupersetOfProperties (prop other_prop : SExpressionProperties) : Bool :=
  0 == other_prop &&& ~~~prop

variable {prop other_prop third : SExpressionProperties}

theorem isASupersetOfProperties_iff : IsASupersetOfProperties prop other_prop = true ↔
    ∀ i < 32, other_prop.getLsbD i = true → prop.getLsbD i = true := by
  rw [IsASupersetOfProperties, beq_iff_eq]
  constructor
  · intro h i hi hother
    have hbit := congrArg (·.getLsbD i) h
    simp only [BitVec.getLsbD_and, BitVec.getLsbD_not, hi, decide_true, hother,
      Bool.true_and] at hbit
    simpa using hbit
  · intro h
    refine BitVec.eq_of_getLsbD_eq fun i hi => ?_
    have hbit := h i hi
    cases hother : other_prop.getLsbD i <;> simp_all

theorem isASupersetOfProperties_refl (prop : SExpressionProperties) :
    IsASupersetOfProperties prop prop = true :=
  isASupersetOfProperties_iff.2 fun _ _ h => h

theorem isASupersetOfProperties_trans (h : IsASupersetOfProperties prop other_prop = true)
    (h' : IsASupersetOfProperties other_prop third = true) :
    IsASupersetOfProperties prop third = true := by
  rw [isASupersetOfProperties_iff] at *
  exact fun i hi hthird => h i hi (h' i hi hthird)

theorem isASupersetOfProperties_any (prop : SExpressionProperties) :
    IsASupersetOfProperties prop EJoinOrderAny = true :=
  isASupersetOfProperties_iff.2 fun i _ h => by simp [EJoinOrderAny] at h

/-! ## Expressions and groups -/

/-- A join tree as `GetJoinExpr` builds it: an atom, an inner join with the edges of its predicate
    (none for a cross product), or a left outer join with the number of its ON predicate. -/
inductive JoinExpr where
  | atom (atom_id : ℕ)
  | innerJoin (edges : List ℕ) (left right : JoinExpr)
  | leftOuterJoin (nij_num : ℕ) (left right : JoinExpr)
  deriving DecidableEq, Repr

/-- `CUtils::FCrossJoin` (CUtils.cpp:4547). -/
def FCrossJoin : JoinExpr → Bool
  | .innerJoin edges _ _ => edges.isEmpty
  | _ => false

/-- `SGroupAndExpression` (CJoinOrderDPv2.h:365): a group and the place of an expression in it. An
    invalid one is `none` below. -/
structure SGroupAndExpression where
  m_group_info : ℕ
  m_expr_index : ℕ
  deriving DecidableEq, Repr

/-- `SExpressionInfo` (CJoinOrderDPv2.h:402); the children are both valid or both invalid. -/
structure SExpressionInfo where
  m_expr : JoinExpr
  m_children : Option (SGroupAndExpression × SGroupAndExpression)
  m_properties : SExpressionProperties
  m_cost : ℚ
  m_cost_adj_PS : ℚ
  m_contain_PS : Finset ℕ
  deriving DecidableEq

/-- `GetCost`. -/
def SExpressionInfo.GetCost (expr_info : SExpressionInfo) : ℚ :=
  expr_info.m_cost + expr_info.m_cost_adj_PS

/-- `SGroupInfo` (CJoinOrderDPv2.h:509). -/
structure SGroupInfo where
  m_atoms : Finset ℕ
  m_best_expr_info_array : List SExpressionInfo
  m_cardinality : ℚ
  m_lowest_expr_cost : ℚ
  deriving DecidableEq

/-- The constructor. -/
def SGroupInfo.new (atoms : Finset ℕ) : SGroupInfo := ⟨atoms, [], -1, -1⟩

/-- The loop of `GetBestExprForProperties`: the place and the cost of the best candidate so far. -/
def bestExprLoop (props : SExpressionProperties) :
    List SExpressionInfo → ℕ → Option (ℕ × ℚ) → Option (ℕ × ℚ)
  | [], _, best => best
  | expr_info :: rest, ul, best =>
    bestExprLoop props rest (ul + 1)
      (if IsASupersetOfProperties expr_info.m_properties props then
        match best with
        | none => some (ul, expr_info.GetCost)
        | some (best_ix, best_cost) =>
          if expr_info.GetCost < best_cost then some (ul, expr_info.GetCost)
          else some (best_ix, best_cost)
      else best)

/-- `GetBestExprForProperties` (CJoinOrderDPv2.cpp:453): the place of the best expression, `none`
    for an invalid result. -/
def GetBestExprForProperties (group_info : SGroupInfo) (props : SExpressionProperties) :
    Option ℕ :=
  (bestExprLoop props group_info.m_best_expr_info_array 0 none).map Prod.fst

/-- `ComputeCost` (CJoinOrderDPv2.cpp:178). The cost of the expression is set, its adjustment grows
    by those of the children. -/
def ComputeCost (m_cross_prod_penalty : ℚ) (GetExprInfo : SGroupAndExpression → SExpressionInfo)
    (expr_info : SExpressionInfo) (join_cardinality : ℚ) : SExpressionInfo :=
  match expr_info.m_children with
  | none => { expr_info with m_cost := join_cardinality }
  | some (left, right) =>
    let dCost := join_cardinality + (GetExprInfo left).m_cost + (GetExprInfo right).m_cost
    { expr_info with
      m_cost := if FCrossJoin expr_info.m_expr then dCost * m_cross_prod_penalty else dCost
      m_cost_adj_PS := expr_info.m_cost_adj_PS + (GetExprInfo left).m_cost_adj_PS +
        (GetExprInfo right).m_cost_adj_PS }

/-- The loop of `AddExprToGroupIfNecessary` (CJoinOrderDPv2.cpp:576-652), with its seven cases. -/
def offer (new : SExpressionInfo) : List SExpressionInfo → List SExpressionInfo
  | [] => [new]
  | old :: rest =>
    let old_ge_new := IsASupersetOfProperties old.m_properties new.m_properties
    let new_ge_old := IsASupersetOfProperties new.m_properties old.m_properties
    if old_ge_new then
      if !new_ge_old then
        if new.GetCost < old.GetCost then old :: offer new rest -- case 1
        else old :: rest -- case 2
      else
        if new.GetCost < old.GetCost then new :: rest -- case 3
        else old :: rest -- case 4
    else
      if new_ge_old then
        if new.GetCost ≤ old.GetCost then new :: rest -- case 5
        else old :: offer new rest -- case 6
      else old :: offer new rest -- case 7

/-- What `AddExprToGroupIfNecessary` does to the group once the new expression has its cost. -/
def SGroupInfo.offer (group_info : SGroupInfo) (new_expr_info : SExpressionInfo) : SGroupInfo :=
  { group_info with
    m_lowest_expr_cost :=
      if group_info.m_best_expr_info_array = [] ∨
          new_expr_info.GetCost < group_info.m_lowest_expr_cost then new_expr_info.GetCost
      else group_info.m_lowest_expr_cost
    m_best_expr_info_array :=
      CJoinOrderDPv2.offer new_expr_info group_info.m_best_expr_info_array }

/-- `AddExprToGroupIfNecessary` (CJoinOrderDPv2.cpp:504). -/
def AddExprToGroupIfNecessary (m_cross_prod_penalty : ℚ)
    (GetExprInfo : SGroupAndExpression → SExpressionInfo) (group_info : SGroupInfo)
    (new_expr_info : SExpressionInfo) : SGroupInfo :=
  group_info.offer
    (ComputeCost m_cross_prod_penalty GetExprInfo new_expr_info group_info.m_cardinality)

/-- `old` makes `new` unnecessary: no property less and no higher cost. -/
def Dominates (old new : SExpressionInfo) : Prop :=
  IsASupersetOfProperties old.m_properties new.m_properties = true ∧ old.GetCost ≤ new.GetCost

theorem Dominates.refl (expr_info : SExpressionInfo) : Dominates expr_info expr_info :=
  ⟨isASupersetOfProperties_refl _, le_rfl⟩

theorem Dominates.trans (x y z : SExpressionInfo) (h : Dominates x y) (h' : Dominates y z) :
    Dominates x z :=
  ⟨isASupersetOfProperties_trans h.1 h'.1, h.2.trans h'.2⟩

/-! ## What one offer does -/

section Offer

variable {new x : SExpressionInfo} {kept : List SExpressionInfo}

/-- Nothing is made up. -/
theorem mem_of_mem_offer (h : x ∈ offer new kept) : x ∈ kept ∨ x = new := by
  induction kept with
  | nil => exact .inr (List.mem_singleton.1 h)
  | cons old rest ih =>
    have hgo : x ∈ old :: offer new rest → x ∈ old :: rest ∨ x = new := by
      intro hx
      rcases List.mem_cons.1 hx with rfl | hx
      · exact .inl List.mem_cons_self
      · exact (ih hx).imp_left (List.mem_cons_of_mem old)
    have hput : x ∈ new :: rest → x ∈ old :: rest ∨ x = new := fun hx =>
      (List.mem_cons.1 hx).symm.imp_left (List.mem_cons_of_mem old)
    rw [offer] at h
    split_ifs at h
    exacts [hgo h, .inl h, hput h, .inl h, hput h, hgo h, hgo h]

/-- **Each kept expression is at its place still, or one that dominates it.** -/
theorem offer_getElem? {i : ℕ} (new : SExpressionInfo)
    (h : kept[i]? = some x) : ∃ y, (offer new kept)[i]? = some y ∧ Dominates y x := by
  induction kept generalizing i with
  | nil => cases h
  | cons old rest ih =>
    have hkeep : ∃ y, (old :: rest)[i]? = some y ∧ Dominates y x := ⟨x, h, .refl x⟩
    have hgo : ∃ y, (old :: offer new rest)[i]? = some y ∧ Dominates y x := by
      cases i with
      | zero => exact ⟨x, h, .refl x⟩
      | succ i => exact ih h
    have hput (hdom : Dominates new old) : ∃ y, (new :: rest)[i]? = some y ∧ Dominates y x := by
      cases i with
      | zero =>
        cases h
        exact ⟨new, rfl, hdom⟩
      | succ i => exact ⟨x, h, .refl x⟩
    rw [offer]
    split_ifs with hold hnew hlt hlt hnew hle
    · exact hgo
    · exact hkeep
    · exact hput ⟨by simpa using hnew, hlt.le⟩
    · exact hkeep
    · exact hput ⟨hnew, hle⟩
    · exact hgo
    · exact hgo

/-- The new expression is kept, or there was one that dominates it. -/
theorem offer_new (new : SExpressionInfo) (kept : List SExpressionInfo) : ∃ y ∈ offer new kept, Dominates y new := by
  induction kept with
  | nil => exact ⟨new, List.mem_cons_self, .refl new⟩
  | cons old rest ih =>
    have hkeep (hdom : Dominates old new) : ∃ y ∈ old :: rest, Dominates y new :=
      ⟨old, List.mem_cons_self, hdom⟩
    have hput : ∃ y ∈ new :: rest, Dominates y new := ⟨new, List.mem_cons_self, .refl new⟩
    have hgo : ∃ y ∈ old :: offer new rest, Dominates y new := by
      obtain ⟨y, hy, hdom⟩ := ih
      exact ⟨y, List.mem_cons_of_mem old hy, hdom⟩
    rw [offer]
    split_ifs with hold hnew hlt hlt hnew hle
    · exact hgo
    · exact hkeep ⟨hold, not_lt.1 hlt⟩
    · exact hput
    · exact hkeep ⟨hold, not_lt.1 hlt⟩
    · exact hput
    · exact hgo
    · exact hgo

/-- The kept expressions go on standing for all that were offered. -/
theorem front_offer {offered : List SExpressionInfo}
    (h : Dominance.Front Dominates kept offered) :
    Dominance.Front Dominates (offer new kept) (offered ++ [new]) := by
  refine h.snoc Dominates.trans (fun x hx => mem_of_mem_offer hx) fun x hx => ?_
  rcases hx with hx | rfl
  · obtain ⟨i, hi⟩ := List.mem_iff_getElem?.1 hx
    obtain ⟨y, hy, hdom⟩ := offer_getElem? new hi
    exact ⟨y, List.mem_of_getElem? hy, hdom⟩
  · exact offer_new _ _

end Offer

/-! ## What is asked of a group -/

section Best

variable {props : SExpressionProperties} {group_info : SGroupInfo}

variable (props) in
/-- The place and the cost of a cheapest one among the expressions that have the properties. -/
def IsBest (exprs : List SExpressionInfo) : Option (ℕ × ℚ) → Prop
  | none => ∀ x ∈ exprs, ¬IsASupersetOfProperties x.m_properties props = true
  | some (ix, cost) => ∃ x, exprs[ix]? = some x ∧ x.GetCost = cost ∧
      IsASupersetOfProperties x.m_properties props = true ∧
      ∀ y ∈ exprs, IsASupersetOfProperties y.m_properties props = true → cost ≤ y.GetCost

theorem IsBest.snoc_of_not {exprs : List SExpressionInfo} {best : Option (ℕ × ℚ)}
    {x : SExpressionInfo} (h : IsBest props exprs best)
    (hx : ¬IsASupersetOfProperties x.m_properties props = true) :
    IsBest props (exprs ++ [x]) best := by
  match best, h with
  | none, h =>
    intro y hy
    rcases List.mem_append.1 hy with hy | hy
    · exact h y hy
    · rwa [List.mem_singleton.1 hy]
  | some (ix, cost), ⟨z, hz, hcost, hprops, hmin⟩ =>
    refine ⟨z, List.getElem?_append_left (List.getElem?_eq_some_iff.1 hz).1 ▸ hz, hcost, hprops,
      fun y hy hyprops => ?_⟩
    rcases List.mem_append.1 hy with hy | hy
    · exact hmin y hy hyprops
    · rw [List.mem_singleton.1 hy] at hyprops
      exact absurd hyprops hx

/-- A candidate below all the ones before it is the best so far. -/
theorem IsBest.snoc_self {exprs : List SExpressionInfo} {x : SExpressionInfo}
    (hx : IsASupersetOfProperties x.m_properties props = true)
    (hmin : ∀ y ∈ exprs, IsASupersetOfProperties y.m_properties props = true →
      x.GetCost ≤ y.GetCost) :
    IsBest props (exprs ++ [x]) (some (exprs.length, x.GetCost)) := by
  refine ⟨x, List.getElem?_concat_length, rfl, hx, fun y hy hyprops => ?_⟩
  rcases List.mem_append.1 hy with hy | hy
  · exact hmin y hy hyprops
  · rw [List.mem_singleton.1 hy]

/-- One round of the loop. -/
theorem isBest_bestExprLoop {seen : List SExpressionInfo} {best : Option (ℕ × ℚ)}
    (rest : List SExpressionInfo) (h : IsBest props seen best) :
    IsBest props (seen ++ rest) (bestExprLoop props rest seen.length best) := by
  induction rest generalizing seen best with
  | nil => rwa [List.append_nil, bestExprLoop]
  | cons x rest ih =>
    have hlength : (seen ++ [x]).length = seen.length + 1 := by simp
    rw [List.append_cons, bestExprLoop.eq_def]
    dsimp only
    rw [← hlength]
    apply ih
    split_ifs with hprops
    · match best, h with
      | none, h => exact .snoc_self hprops fun y hy hyprops => absurd hyprops (h y hy)
      | some (ix, cost), h =>
        dsimp only
        split_ifs with hlt
        · obtain ⟨-, -, -, -, hmin⟩ := h
          exact .snoc_self hprops fun y hy hyprops => hlt.le.trans (hmin y hy hyprops)
        · obtain ⟨z, hz, hcost, hzprops, hmin⟩ := h
          refine ⟨z, List.getElem?_append_left (List.getElem?_eq_some_iff.1 hz).1 ▸ hz, hcost,
            hzprops, fun y hy hyprops => ?_⟩
          rcases List.mem_append.1 hy with hy | hy
          · exact hmin y hy hyprops
          · rw [List.mem_singleton.1 hy]
            exact not_lt.1 hlt
    · exact h.snoc_of_not hprops

/-- **`GetBestExprForProperties` finds a cheapest kept expression with the properties, if there is
one.** -/
theorem getBestExprForProperties_spec (group_info : SGroupInfo) (props : SExpressionProperties) :
    match GetBestExprForProperties group_info props with
    | none => ∀ x ∈ group_info.m_best_expr_info_array,
        ¬IsASupersetOfProperties x.m_properties props = true
    | some ix => ∃ x, group_info.m_best_expr_info_array[ix]? = some x ∧
        IsASupersetOfProperties x.m_properties props = true ∧
        ∀ y ∈ group_info.m_best_expr_info_array,
          IsASupersetOfProperties y.m_properties props = true → x.GetCost ≤ y.GetCost := by
  have hnone : IsBest props [] none := nofun
  have h := isBest_bestExprLoop group_info.m_best_expr_info_array hnone
  rw [List.nil_append, List.length_nil] at h
  rw [GetBestExprForProperties]
  match hbest : bestExprLoop props group_info.m_best_expr_info_array 0 none, h with
  | none, h => exact h
  | some (ix, cost), ⟨x, hx, hcost, hprops, hmin⟩ => exact ⟨x, hx, hprops, hcost ▸ hmin⟩

end Best

/-! ## Sequences of offers to one group -/

/-- One call of `AddExprToGroupIfNecessary`: the penalty of cross products and the expressions that
    children point to at that time, and the new expression. -/
structure Call where
  m_cross_prod_penalty : ℚ
  GetExprInfo : SGroupAndExpression → SExpressionInfo
  new_expr_info : SExpressionInfo

/-- The group after a call. -/
def SGroupInfo.call (group_info : SGroupInfo) (call : Call) : SGroupInfo :=
  AddExprToGroupIfNecessary call.m_cross_prod_penalty call.GetExprInfo group_info
    call.new_expr_info

/-- The expression that a call offers to a group of that cardinality, with its cost. -/
def Call.offered (m_cardinality : ℚ) (call : Call) : SExpressionInfo :=
  ComputeCost call.m_cross_prod_penalty call.GetExprInfo call.new_expr_info m_cardinality

/-- What holds of a group after some offers. -/
structure SGroupInfo.Keeps (group_info : SGroupInfo) (offered : List SExpressionInfo) : Prop where
  front : Dominance.Front Dominates group_info.m_best_expr_info_array offered
  lowest_le : ∀ x ∈ offered, group_info.m_lowest_expr_cost ≤ x.GetCost
  exists_lowest : offered ≠ [] → ∃ x ∈ offered, x.GetCost = group_info.m_lowest_expr_cost

theorem SGroupInfo.keeps_new (atoms : Finset ℕ) (m_cardinality : ℚ) :
    SGroupInfo.Keeps { SGroupInfo.new atoms with m_cardinality } [] :=
  ⟨.nil, nofun, fun h => absurd rfl h⟩

/-- **An offer keeps the invariant of the group.** -/
theorem SGroupInfo.Keeps.offer {group_info : SGroupInfo} {offered : List SExpressionInfo}
    (h : group_info.Keeps offered) (new : SExpressionInfo) :
    (group_info.offer new).Keeps (offered ++ [new]) := by
  have hmem : ∀ x ∈ offered ++ [new], x ∈ offered ∨ x = new := fun x hx =>
    (List.mem_append.1 hx).imp_right List.mem_singleton.1
  have hnew : new ∈ offered ++ [new] := List.mem_append_right _ List.mem_cons_self
  refine ⟨front_offer h.front, ?_, fun _ => ?_⟩
  all_goals
    rw [SGroupInfo.offer]
    dsimp only
    split_ifs with hlow
  · intro x hx
    rcases hmem x hx with hx | rfl
    · rcases hlow with hnil | hlt
      · rw [h.front.eq_nil_iff.1 hnil] at hx
        cases hx
      · exact hlt.le.trans (h.lowest_le x hx)
    · exact le_rfl
  · intro x hx
    rcases hmem x hx with hx | rfl
    · exact h.lowest_le x hx
    · exact not_lt.1 fun hlt => hlow (.inr hlt)
  · exact ⟨new, hnew, rfl⟩
  · obtain ⟨x, hx, hcost⟩ := h.exists_lowest fun hnil => hlow (.inl (h.front.eq_nil_iff.2 hnil))
    exact ⟨x, List.mem_append_left _ hx, hcost⟩

@[simp] theorem SGroupInfo.m_cardinality_offer (group_info : SGroupInfo) (new : SExpressionInfo) :
    (group_info.offer new).m_cardinality = group_info.m_cardinality := rfl

/-- The invariant over a sequence of calls. -/
theorem SGroupInfo.Keeps.calls {group_info : SGroupInfo} {offered : List SExpressionInfo}
    (h : group_info.Keeps offered) (calls : List Call) :
    (calls.foldl SGroupInfo.call group_info).Keeps
      (offered ++ calls.map (Call.offered group_info.m_cardinality)) := by
  induction calls generalizing group_info offered with
  | nil => simpa using h
  | cons call calls ih =>
    have hstep := ih (h.offer (call.offered group_info.m_cardinality))
    rw [List.append_assoc, SGroupInfo.m_cardinality_offer] at hstep
    exact hstep

/-- **After any calls on a new group of any cardinality: the best kept expression for some
properties is the best of all offered, there is one as soon as one was offered, and the cached
lowest cost is that of a cheapest kept one.** -/
theorem getBestExprForProperties_calls (atoms : Finset ℕ) (m_cardinality : ℚ) (calls : List Call)
    (props : SExpressionProperties) :
    let group_info := calls.foldl SGroupInfo.call { SGroupInfo.new atoms with m_cardinality }
    let kept := group_info.m_best_expr_info_array
    let offered := calls.map (Call.offered m_cardinality)
    ((∃ x ∈ offered, IsASupersetOfProperties x.m_properties props = true) →
        (GetBestExprForProperties group_info props).isSome) ∧
      (∀ ix, GetBestExprForProperties group_info props = some ix →
        ∃ x ∈ offered, kept[ix]? = some x ∧
          IsASupersetOfProperties x.m_properties props = true ∧
          ∀ y ∈ offered, IsASupersetOfProperties y.m_properties props = true →
            x.GetCost ≤ y.GetCost) ∧
      (kept ≠ [] → (∃ x ∈ kept, x.GetCost = group_info.m_lowest_expr_cost) ∧
        ∀ x ∈ kept, group_info.m_lowest_expr_cost ≤ x.GetCost) := by
  intro group_info kept offered
  have h : group_info.Keeps offered := (SGroupInfo.keeps_new atoms m_cardinality).calls calls
  have hspec := getBestExprForProperties_spec group_info props
  refine ⟨?_, fun ix hix => ?_, fun hne => ⟨?_, fun x hx => h.lowest_le x (h.front.subset x hx)⟩⟩
  · rintro ⟨x, hx, hprops⟩
    obtain ⟨y, hy, hdom⟩ := h.front.dominated x hx
    cases hbest : GetBestExprForProperties group_info props with
    | none =>
      rw [hbest] at hspec
      exact absurd (isASupersetOfProperties_trans hdom.1 hprops) (hspec y hy)
    | some ix => rfl
  · rw [hix] at hspec
    obtain ⟨x, hx, hprops, hmin⟩ := hspec
    refine ⟨x, h.front.subset x (List.mem_of_getElem? hx), hx, hprops, fun y hy hyprops => ?_⟩
    obtain ⟨z, hz, hdom⟩ := h.front.dominated y hy
    exact (hmin z hz (isASupersetOfProperties_trans hdom.1 hyprops)).trans hdom.2
  · obtain ⟨x, hx, hcost⟩ := h.exists_lowest (mt h.front.eq_nil_iff.2 hne)
    obtain ⟨y, hy, hdom⟩ := h.front.dominated x hx
    exact ⟨y, hy, le_antisymm (hcost ▸ hdom.2) (h.lowest_le y (h.front.subset y hy))⟩

end BossOptimizer.CJoinOrderDPv2

import BossOptimizer.Xforms.CJoinOrderDP
import BossOptimizer.Lib.Total
import Mathlib.Algebra.BigOperators.Group.List.Basic
import Mathlib.Tactic.Ring

/-!
# The costs of join orders

The cost of an expression is the rows of a leaf; for any other one it is the sum over its relational
children of their costs and their rows. `DCost` computes it, from any costs it has remembered, for
expressions with at most two relational children followed by a scalar one. It writes out of bounds
for more children, and skips the last child where that is a relational one.
-/

namespace BossOptimizer.CJoinOrderDP

variable {Op : Type} {costing : Costing Op} {m_phmexprcost : List (CExpression Op × ℚ)}

/-! ## What costs are -/

namespace Costing

mutual

/-- The cost of an expression: every relational child counts once. -/
def Cost (costing : Costing Op) : CExpression Op → ℚ
  | .node pop pdrgpexpr =>
    if pdrgpexpr.isEmpty then costing.Rows (.node pop pdrgpexpr)
    else childrenCost costing pdrgpexpr

def childrenCost (costing : Costing Op) : List (CExpression Op) → ℚ
  | [] => 0
  | pexpr :: pdrgpexpr =>
    (if costing.FScalar pexpr.Pop then 0 else Cost costing pexpr + costing.Rows pexpr) +
      childrenCost costing pdrgpexpr

end

/-- What a child contributes. -/
def share (costing : Costing Op) (pexpr : CExpression Op) : ℚ :=
  if costing.FScalar pexpr.Pop then 0 else costing.Cost pexpr + costing.Rows pexpr

attribute [local simp] Cost childrenCost in
theorem childrenCost_eq (l : List (CExpression Op)) :
    childrenCost costing l = (l.map costing.share).sum := by
  induction l with
  | nil => rfl
  | cons e l ih => rw [childrenCost, ih, List.map_cons, List.sum_cons, share]

theorem cost_leaf (pop : Op) : costing.Cost (.node pop []) = costing.Rows (.node pop []) := by
  rw [Cost, List.isEmpty_nil, if_pos rfl]

theorem cost_node {pop : Op} {l : List (CExpression Op)} (h : l ≠ []) :
    costing.Cost (.node pop l) = (l.map costing.share).sum := by
  rw [Cost, if_neg (by simpa using h), childrenCost_eq]

/-- The operators and the statistics agree with the comparison of expressions. -/
structure Lawful (costing : Costing Op) : Prop where
  ops : costing.ops.Lawful
  scalar : ∀ pop pop', costing.ops.Matches pop pop' = true →
    costing.FScalar pop = costing.FScalar pop'
  rows : ∀ e e', CExpression.Equals costing.ops e e' = true → costing.Rows e = costing.Rows e'

theorem Lawful.fScalar_eq (h : costing.Lawful) {e e' : CExpression Op}
    (heq : CExpression.Equals costing.ops e e' = true) :
    costing.FScalar e.Pop = costing.FScalar e'.Pop := by
  obtain ⟨pop, l⟩ := e
  obtain ⟨pop', l'⟩ := e'
  exact h.scalar pop pop' (CExpression.equals_node_iff.1 heq).2.1

/-- **Equal expressions cost the same.** -/
theorem Lawful.cost_eq (h : costing.Lawful) {e e' : CExpression Op}
    (heq : CExpression.Equals costing.ops e e' = true) : costing.Cost e = costing.Cost e' := by
  induction e using CExpression.induction generalizing e' with
  | node pop l ih =>
    obtain ⟨pop', l'⟩ := e'
    have hlen := (CExpression.equals_node_iff.1 heq).1
    have hshare : ∀ a ∈ l, ∀ b ∈ l', CExpression.Equals costing.ops a b = true →
        costing.share a = costing.share b := fun a ha b _ hab => by
      rw [share, share, h.fScalar_eq hab, ih a ha hab, h.rows a b hab]
    rcases eq_or_ne l [] with rfl | hne
    · obtain rfl : l' = [] := List.length_eq_zero_iff.1 hlen.symm
      rw [cost_leaf, cost_leaf, h.rows _ _ heq]
    · have hne' : l' ≠ [] := fun hnil => hne (List.length_eq_zero_iff.1 (by rw [hlen, hnil]; rfl))
      have hequiv := CExpression.equals_equivOn h.ops
        (max (CExpression.node pop l).depth (CExpression.node pop' l').depth)
      rw [CExpression.equals_node_iff_of_equivOn hequiv
        (fun e he => lt_max_of_lt_left (CExpression.depth_lt he))
        (fun e he => lt_max_of_lt_right (CExpression.depth_lt he))] at heq
      rw [cost_node hne, cost_node hne']
      obtain ⟨-, hchildren⟩ := heq
      split_ifs at hchildren
      · rw [hchildren.map_eq hshare]
      · exact (hchildren.map_perm hshare).sum_eq

/-! ## What is remembered -/

/-- All remembered costs are right. -/
def Remembers (costing : Costing Op) (m_phmexprcost : List (CExpression Op × ℚ)) : Prop :=
  ∀ entry ∈ m_phmexprcost, entry.2 = costing.Cost entry.1

variable {e : CExpression Op}

theorem Remembers.find_eq (h : costing.Remembers m_phmexprcost) (hlawful : costing.Lawful) {d : ℚ}
    (hfind : costing.Find m_phmexprcost e = some d) :
    d = costing.Cost e := by
  rw [Find, Option.map_eq_some_iff] at hfind
  obtain ⟨entry, hentry, rfl⟩ := hfind
  have hequals := List.find?_some hentry
  rw [Bool.and_eq_true] at hequals
  rw [h entry (List.mem_of_find?_eq_some hentry), hlawful.cost_eq hequals.2]

theorem Remembers.insert (h : costing.Remembers m_phmexprcost) {d : ℚ} (hd : d = costing.Cost e) :
    costing.Remembers (costing.InsertExpressionCost e d m_phmexprcost) := by
  rw [InsertExpressionCost]
  split_ifs
  · exact h
  · intro entry hentry
    rcases List.mem_append.1 hentry with hold | hnew
    · exact h entry hold
    · rw [List.mem_singleton.1 hnew]
      exact hd

theorem isSome_find_append {entries : List (CExpression Op × ℚ)}
    (h : (costing.Find m_phmexprcost e).isSome) :
    (costing.Find (m_phmexprcost ++ entries) e).isSome := by
  rw [Find, Option.isSome_map, List.find?_isSome] at h ⊢
  obtain ⟨entry, hentry, hequal⟩ := h
  exact ⟨entry, List.mem_append_left _ hentry, hequal⟩

/-- What is remembered stays. -/
theorem isSome_find_insert {e e' : CExpression Op} {d : ℚ}
    (h : (costing.Find m_phmexprcost e).isSome) :
    (costing.Find (costing.InsertExpressionCost e' d m_phmexprcost) e).isSome := by
  rw [InsertExpressionCost]
  split_ifs
  · exact h
  · exact isSome_find_append h

/-- What is inserted is remembered. -/
theorem isSome_find_insert_self (e : CExpression Op) (d : ℚ) :
    (costing.Find (costing.InsertExpressionCost e d m_phmexprcost) e).isSome := by
  rw [InsertExpressionCost]
  split_ifs with h
  · exact h
  · rw [Find, Option.isSome_map, List.find?_isSome]
    refine ⟨(e, d), List.mem_append_right _ (List.mem_singleton_self _), ?_⟩
    rw [beq_self_eq_true, CExpression.equals_self, Bool.and_self]

/-! ## What `DCost` can cost -/

/-- A leaf, or at most two relational children, which can be costed, and a scalar one. -/
inductive Costable (costing : Costing Op) : CExpression Op → Prop
  | leaf (pop : Op) (hpop : costing.FScalar pop = false) : Costable costing (.node pop [])
  | node (pop : Op) (pdrgpexpr : List (CExpression Op)) (pexprScalar : CExpression Op)
      (hpop : costing.FScalar pop = false) (hlength : pdrgpexpr.length ≤ 2)
      (hchildren : ∀ pexpr ∈ pdrgpexpr, Costable costing pexpr)
      (hscalar : costing.FScalar pexprScalar.Pop = true) :
      Costable costing (.node pop (pdrgpexpr ++ [pexprScalar]))

theorem Costable.relational (h : costing.Costable e) :
    costing.FScalar e.Pop = false := by
  cases h with
  | leaf pop hpop => exact hpop
  | node pop _ _ hpop => exact hpop

theorem Costable.share_eq (h : costing.Costable e) :
    costing.share e = costing.Cost e + costing.Rows e := by
  rw [share, h.relational, if_neg Bool.false_ne_true]

theorem Costable.pstatsRows (h : costing.Costable e) :
    costing.PstatsRows e = some (costing.Rows e) := by
  rw [PstatsRows, h.relational, if_neg Bool.false_ne_true]

/-- One round of the loop over the children. -/
theorem childCosts_cons {e next : CExpression Op} {rest : List (CExpression Op)} {ul : ℕ}
    {dCost : ℚ} {rgdRows : List ℚ} (he : costing.Costable e)
    (hcost : costing.DCost m_phmexprcost e = some (costing.Cost e)) (hul : ul < rgdRows.length) :
    costing.childCosts m_phmexprcost (e :: next :: rest) ul dCost rgdRows =
      costing.childCosts m_phmexprcost (next :: rest) (ul + 1) (dCost + costing.Cost e)
        (rgdRows.set ul (costing.Rows e)) := by
  rw [childCosts, List.isEmpty_cons, if_neg Bool.false_ne_true, hcost, Option.bind_some,
    he.pstatsRows, Option.bind_some, if_pos hul]

theorem childCosts_last {ul : ℕ} {dCost : ℚ} {rgdRows : List ℚ} :
    costing.childCosts m_phmexprcost [e] ul dCost rgdRows = some (dCost, rgdRows) := by
  rw [childCosts, List.isEmpty_nil, if_pos rfl]

/-- **`DCost` computes the cost**, whatever it has remembered. -/
theorem Costable.dCost_eq (h : costing.Costable e) (hlawful : costing.Lawful)
    (hmap : costing.Remembers m_phmexprcost) :
    costing.DCost m_phmexprcost e = some (costing.Cost e) := by
  induction h with
  | leaf pop hpop =>
    rw [DCost]
    cases hfind : costing.Find m_phmexprcost (.node pop []) with
    | some pd => rw [hmap.find_eq hlawful hfind]
    | none =>
      dsimp only
      rw [List.isEmpty_nil, if_pos rfl, (Costable.leaf pop hpop).pstatsRows, cost_leaf]
  | node pop pdrgpexpr pexprScalar hpop hlength hchildren hscalar ih =>
    rw [DCost]
    cases hfind : costing.Find m_phmexprcost (.node pop (pdrgpexpr ++ [pexprScalar])) with
    | some pd => rw [hmap.find_eq hlawful hfind]
    | none =>
      have hne : pdrgpexpr ++ [pexprScalar] ≠ [] := by simp
      have hlast : costing.share pexprScalar = 0 := by rw [share, if_pos hscalar]
      dsimp only
      rw [if_neg (by simp), cost_node hne, List.map_append, List.sum_append, List.map_singleton,
        List.sum_singleton, hlast, add_zero]
      match pdrgpexpr, hlength, hchildren, ih with
      | [], _, _, _ =>
        rw [List.nil_append, childCosts_last]
        simp
      | [left], _, hchildren, ih =>
        have hleft := hchildren left List.mem_cons_self
        rw [List.singleton_append,
          childCosts_cons hleft (ih left List.mem_cons_self) (by simp), childCosts_last]
        simp only [Option.map_some, List.set_cons_zero, List.map_cons, List.map_nil, List.sum_cons,
          List.sum_nil, hleft.share_eq, List.getD_cons_zero, List.getD_cons_succ]
        ring_nf
      | [left, right], _, hchildren, ih =>
        have hleft := hchildren left (by simp)
        have hright := hchildren right (by simp)
        rw [List.cons_append, List.singleton_append,
          childCosts_cons hleft (ih left (by simp)) (by simp),
          childCosts_cons hright (ih right (by simp)) (by simp), childCosts_last]
        simp only [Option.map_some, List.set_cons_zero, List.set_cons_succ, List.map_cons,
          List.map_nil, List.sum_cons, List.sum_nil, hleft.share_eq, hright.share_eq,
          List.getD_cons_zero, List.getD_cons_succ]
        ring_nf

end Costing

/-! ## Sequences of calls -/

section Calls

/-- A call of `DCost`, or the insertion of an expression with a cost that such a call has
    returned. -/
inductive Call (Op : Type) where
  | dCost (pexpr : CExpression Op)
  | insertExpressionCost (ul : ℕ)

/-- The map, and what the calls of `DCost` have returned. -/
structure CostState (Op : Type) where
  m_phmexprcost : List (CExpression Op × ℚ)
  returned : List (CExpression Op × ℚ)

def Call.run (costing : Costing Op) (s : CostState Op) : Call Op → Option (CostState Op)
  | .dCost pexpr => (costing.DCost s.m_phmexprcost pexpr).map fun cost =>
      { s with returned := s.returned ++ [(pexpr, cost)] }
  | .insertExpressionCost ul =>
    match s.returned[ul]? with
    | none => some s
    | some (pexpr, cost) =>
      some { s with
        m_phmexprcost := costing.InsertExpressionCost pexpr cost s.m_phmexprcost }

/-- Expressions of one row each; the operator 0 is a scalar one. -/
def unitCosting : Costing ℕ where
  ops := .columns
  HashValue pop := BitVec.ofNat 32 pop
  FScalar pop := pop == 0
  Rows _ := 1

theorem unitCosting_lawful : unitCosting.Lawful := by
  have hequal : ∀ pop pop' : ℕ, unitCosting.ops.Matches pop pop' = true → pop = pop' :=
    fun _ _ => eq_of_beq
  exact ⟨⟨fun pop pop' h => hequal pop pop' h ▸ unitCosting.ops.matches_refl pop,
    fun pop pop' pop'' h h' => hequal pop pop' h ▸ h', fun pop pop' h => hequal pop pop' h ▸ rfl⟩,
    fun pop pop' h => hequal pop pop' h ▸ rfl, fun _ _ _ => rfl⟩

end Calls

end BossOptimizer.CJoinOrderDP

import BossOptimizer.Base.ExpressionHash
import Mathlib.Data.Finset.Card
import Mathlib.Algebra.Order.Ring.Rat

/-!
# Exhaustive join ordering: `CJoinOrderDP`

The search joins sets of atoms by dynamic programming over their subsets. A function that returns
NULL returns `none`; a computation without a result reads or writes where it must not. Costs are
rational numbers. The map from pairs of sets to their predicates only remembers what
`PexprBuildPred` returns, which goes by no order of the two sets, and is left out.
-/

namespace BossOptimizer.CJoinOrderDP

variable {Op : Type}

/-! ## Costs -/

/-- What the costing reads of expressions: comparison, hash values, and the estimated rows of all but
    scalar expressions. -/
structure Costing (Op : Type) where
  ops : ScalarOperators Op
  HashValue : Op → BitVec 32
  FScalar : Op → Bool
  Rows : CExpression Op → ℚ

namespace Costing

variable (costing : Costing Op)

/-- `Pstats()->Rows()`, once the statistics have been derived. -/
def PstatsRows (pexpr : CExpression Op) : Option ℚ :=
  if costing.FScalar pexpr.Pop then none else some (costing.Rows pexpr)

/-- `ExpressionToCostMap::Find`. -/
def Find (m_phmexprcost : List (CExpression Op × ℚ)) (pexpr : CExpression Op) : Option ℚ :=
  (m_phmexprcost.find? fun entry =>
    (CExpression.HashValue (.ulong costing.HashValue) entry.1).toNat % 127 ==
        (CExpression.HashValue (.ulong costing.HashValue) pexpr).toNat % 127 &&
      CExpression.Equals costing.ops entry.1 pexpr).map Prod.snd

/-- `InsertExpressionCost` (CJoinOrderDP.cpp:374) of an expression that is not the dummy. -/
def InsertExpressionCost (pexpr : CExpression Op) (dCost : ℚ)
    (m_phmexprcost : List (CExpression Op × ℚ)) : List (CExpression Op × ℚ) :=
  if (costing.Find m_phmexprcost pexpr).isSome then m_phmexprcost
  else m_phmexprcost ++ [(pexpr, dCost)]

mutual

/-- `DCost` (CJoinOrderDP.cpp:625). -/
def DCost (m_phmexprcost : List (CExpression Op × ℚ)) : CExpression Op → Option ℚ
  | .node pop pdrgpexpr =>
    match costing.Find m_phmexprcost (.node pop pdrgpexpr) with
    | some pd => some pd
    | none =>
      if pdrgpexpr.isEmpty then costing.PstatsRows (.node pop pdrgpexpr)
      else
        (childCosts m_phmexprcost pdrgpexpr 0 0 [0, 0]).map fun (dCost, rgdRows) =>
          dCost + (rgdRows.getD 0 0 + rgdRows.getD 1 0)

/-- The loop over the children but the last one, with the array of two rows. -/
def childCosts (m_phmexprcost : List (CExpression Op × ℚ)) :
    List (CExpression Op) → ℕ → ℚ → List ℚ → Option (ℚ × List ℚ)
  | [], _, dCost, rgdRows => some (dCost, rgdRows)
  | pexprChild :: rest, ul, dCost, rgdRows =>
    if rest.isEmpty then some (dCost, rgdRows)
    else
      (DCost m_phmexprcost pexprChild).bind fun childCost =>
        (costing.PstatsRows pexprChild).bind fun rows =>
          if ul < rgdRows.length then
            childCosts m_phmexprcost rest (ul + 1) (dCost + childCost) (rgdRows.set ul rows)
          else none

end

end Costing

/-! ## The search -/

/-- `SEdge`: the atoms that a conjunct refers to, and the conjunct. -/
structure SEdge (Op : Type) where
  m_pbs : Finset ℕ
  m_pexpr : CExpression Op

/-- The parameters of the search: the atoms and the edges, the operator of an inner join, and the
    conjunction of some conjuncts. -/
structure JoinOrder (Op : Type) extends Costing Op where
  m_ulComps : ℕ
  m_rgpcomp : ℕ → CExpression Op
  m_rgpedge : List (SEdge Op)
  CLogicalInnerJoin : Op
  PexprConjunction : List (CExpression Op) → CExpression Op

/-- The members that the search changes. An entry `none` of the table is the dummy. -/
structure State (Op : Type) where
  m_phmbsexpr : Finset ℕ → Option (Option (CExpression Op))
  m_phmexprcost : List (CExpression Op × ℚ)
  m_pdrgpexprTopKOrders : List (CExpression Op)
  /-- The calls of `AddJoinOrder`, which no function reads. -/
  offered : List (CExpression Op × ℚ)

def State.new : State Op := ⟨fun _ => none, [], [], []⟩

/-- `m_phmbsexpr->Insert`, which keeps an entry that is there. -/
def State.insert (s : State Op) (pbs : Finset ℕ) (pexpr : Option (CExpression Op)) : State Op :=
  { s with
    m_phmbsexpr := fun key =>
      if key = pbs ∧ s.m_phmbsexpr key = none then some pexpr else s.m_phmbsexpr key }

/-- `GPOPT_DP_JOIN_ORDERING_TOPK`. -/
def topK : ℕ := 10

variable (jodp : JoinOrder Op)

/-- The bits of a set, in the order of the iterator. -/
def bits (pbs : Finset ℕ) : List ℕ := (List.range jodp.m_ulComps).filter (· ∈ pbs)

/-- `CUtils::PexprLogicalJoin<CLogicalInnerJoin>`. -/
def PexprLogicalJoin (pexprLeft pexprRight pexprPredicate : CExpression Op) : CExpression Op :=
  .node jodp.CLogicalInnerJoin [pexprLeft, pexprRight, pexprPredicate]

/-- The loop of `AddJoinOrder` over the recorded orders: the worst one that is worse than the new. -/
def replacePos (m_phmexprcost : List (CExpression Op × ℚ)) (dCost : ℚ) :
    List (CExpression Op × ℕ) → ℚ → Option ℕ → Option (Option ℕ)
  | [], _, iReplacePos => some iReplacePos
  | (pexpr, ul) :: rest, dmaxCost, iReplacePos =>
    (jodp.Find m_phmexprcost pexpr).bind fun pd =>
      if dmaxCost < pd ∧ dCost < pd then replacePos m_phmexprcost dCost rest pd (some ul)
      else replacePos m_phmexprcost dCost rest dmaxCost iReplacePos

/-- `AddJoinOrder` (CJoinOrderDP.cpp:164). -/
def AddJoinOrder (pexprJoin : CExpression Op) (dCost : ℚ) (s : State Op) : Option (State Op) :=
  let s := { s with offered := s.offered ++ [(pexprJoin, dCost)] }
  if s.m_pdrgpexprTopKOrders.length < topK then
    some { s with
      m_pdrgpexprTopKOrders := s.m_pdrgpexprTopKOrders ++ [pexprJoin]
      m_phmexprcost := jodp.InsertExpressionCost pexprJoin dCost s.m_phmexprcost }
  else
    (replacePos jodp s.m_phmexprcost dCost s.m_pdrgpexprTopKOrders.zipIdx 0 none).map
      fun iReplacePos =>
        match iReplacePos with
        | none => s
        | some ul =>
          { s with
            m_pdrgpexprTopKOrders := s.m_pdrgpexprTopKOrders.set ul pexprJoin
            m_phmexprcost := jodp.InsertExpressionCost pexprJoin dCost s.m_phmexprcost }

/-- `PexprLookup` (CJoinOrderDP.cpp:222). -/
def PexprLookup (s : State Op) (pbs : Finset ℕ) : Option (Option (CExpression Op)) :=
  if pbs.card = 1 then (bits jodp pbs).head?.map fun bit => some (jodp.m_rgpcomp bit)
  else s.m_phmbsexpr pbs

/-- The edges that connect two sets, by number (`PexprBuildPred`, CJoinOrderDP.cpp:857). -/
def connectingEdges (pbsFst pbsSnd : Finset ℕ) : List ℕ :=
  (jodp.m_rgpedge.zipIdx.filter fun pedge =>
    pedge.1.m_pbs ⊆ pbsFst ∪ pbsSnd ∧ ¬Disjoint pbsFst pedge.1.m_pbs ∧
      ¬Disjoint pbsSnd pedge.1.m_pbs).map Prod.snd

/-- The conjunction of some edges. -/
def edgePred (edges : List ℕ) : CExpression Op :=
  jodp.PexprConjunction (edges.filterMap fun ul => (jodp.m_rgpedge[ul]?).map SEdge.m_pexpr)

/-- `PexprBuildPred` (CJoinOrderDP.cpp:857). -/
def PexprBuildPred (pbsFst pbsSnd : Finset ℕ) : Option (CExpression Op) :=
  if connectingEdges jodp pbsFst pbsSnd = [] then none
  else some (edgePred jodp (connectingEdges jodp pbsFst pbsSnd))

/-- `PexprPred` (CJoinOrderDP.cpp:248). -/
def PexprPred (pbsFst pbsSnd : Finset ℕ) : Option (CExpression Op) :=
  if ¬Disjoint pbsFst pbsSnd ∨ pbsFst.card = 0 ∨ pbsSnd.card = 0 then none
  else PexprBuildPred jodp pbsFst pbsSnd

/-- `PexprJoin` of two sets (CJoinOrderDP.cpp:318). -/
def PexprJoin (s : State Op) (pbsFst pbsSnd : Finset ℕ) : Option (CExpression Op) :=
  match PexprLookup jodp s pbsFst, PexprLookup jodp s pbsSnd, PexprPred jodp pbsFst pbsSnd with
  | some (some pexprFst), some (some pexprSnd), some pexprScalar =>
    some (PexprLogicalJoin jodp pexprFst pexprSnd pexprScalar)
  | _, _, _ => none

/-- `PexprJoin` of a set of two atoms (CJoinOrderDP.cpp:414). -/
def PexprJoinPair (pbs : Finset ℕ) (s : State Op) : Option (Option (CExpression Op) × State Op) :=
  match bits jodp pbs with
  | [ulCompFst, ulCompSnd] =>
    match PexprPred jodp {ulCompFst} {ulCompSnd} with
    | none => some (none, s)
    | some pexprScalar =>
      let pexprJoin :=
        PexprLogicalJoin jodp (jodp.m_rgpcomp ulCompFst) (jodp.m_rgpcomp ulCompSnd) pexprScalar
      some (some pexprJoin, s.insert pbs (some pexprJoin))
  | _ => none

/-- `GenerateSubsets` (CJoinOrderDP.cpp:555). -/
def GenerateSubsets (pbsCurrent : Finset ℕ) : List ℕ → List (Finset ℕ)
  | [] => [pbsCurrent]
  | elem :: elems =>
    GenerateSubsets (insert elem pbsCurrent) elems ++ GenerateSubsets pbsCurrent elems

/-- `PdrgpbsSubsets` (CJoinOrderDP.cpp:592). -/
def PdrgpbsSubsets (pbs : Finset ℕ) : List (Finset ℕ) := GenerateSubsets ∅ (bits jodp pbs)

/-- `PbsCovered` (CJoinOrderDP.cpp:676). -/
def PbsCovered (pbsInput : Finset ℕ) : Finset ℕ :=
  jodp.m_rgpedge.foldl
    (fun pbs pedge => if pedge.m_pbs ⊆ pbsInput then pbs ∪ pedge.m_pbs else pbs) ∅

/-- `PexprCross` (CJoinOrderDP.cpp:703). A dummy in the table would be joined like an expression. -/
def PexprCross (pbs : Finset ℕ) (s : State Op) : Option (CExpression Op × State Op) :=
  match PexprLookup jodp s pbs with
  | some (some pexpr) => some (pexpr, s)
  | some none => none
  | none =>
    match bits jodp pbs with
    | [] => none
    | bit :: rest =>
      let pexprCross := rest.foldl (fun pexprCross bit =>
        PexprLogicalJoin jodp (jodp.m_rgpcomp bit) pexprCross (jodp.PexprConjunction []))
        (jodp.m_rgpcomp bit)
      some (pexprCross, s.insert pbs (some pexprCross))

/-- A function that finds the best order of a set. -/
abbrev BestJoinOrder (Op : Type) : Type :=
  Finset ℕ → State Op → Option (Option (CExpression Op) × State Op)

/-- `PexprJoinCoveredSubsetWithUncoveredSubset` (CJoinOrderDP.cpp:745). -/
def PexprJoinCoveredSubsetWithUncoveredSubset (best : BestJoinOrder Op)
    (pbs pbsCovered pbsUncovered : Finset ℕ) (s : State Op) :
    Option (Option (CExpression Op) × State Op) :=
  (best pbsCovered s).bind fun (pexprJoin, s) =>
    match pexprJoin with
    | none => some (none, s)
    | some pexprJoin =>
      (PexprCross jodp pbsUncovered s).map fun (pexprCross, s) =>
        let pexprResult :=
          PexprLogicalJoin jodp pexprJoin pexprCross (jodp.PexprConjunction [])
        (some pexprResult, s.insert pbs (some pexprResult))

/-- The best order so far and its cost. -/
structure Best (Op : Type) where
  dMinCost : ℚ
  pexprResult : Option (CExpression Op)

/-- The first solution, or a better one. -/
def Best.update (current : Best Op) (pexprJoin : CExpression Op) (dCost : ℚ) : Best Op :=
  if current.pexprResult.isNone ∨ dCost < current.dMinCost then ⟨dCost, some pexprJoin⟩
  else current

/-- The body of the loop of `PexprBestJoinOrderDP`. -/
def trySplit (best : BestJoinOrder Op) (pbs : Finset ℕ) (current : Best Op × State Op)
    (pbsCurrent : Finset ℕ) : Option (Best Op × State Op) :=
  match PexprPred jodp pbsCurrent (pbs \ pbsCurrent) with
  | none => some current
  | some _ =>
    (best pbsCurrent current.2).bind fun (pexprLeft, s) =>
      (best (pbs \ pbsCurrent) s).bind fun (pexprRight, s) =>
        if pexprLeft.isSome ∧ pexprRight.isSome then
          (PexprJoin jodp s pbsCurrent (pbs \ pbsCurrent)).bind fun pexprJoin =>
            (jodp.DCost s.m_phmexprcost pexprJoin).bind fun dCost =>
              (if jodp.m_ulComps = pbs.card then AddJoinOrder jodp pexprJoin dCost s
                else some s).map fun s => (current.1.update pexprJoin dCost, s)
        else some (current.1, s)

/-- `PexprBestJoinOrderDP` (CJoinOrderDP.cpp:475), NULL instead of the dummy. -/
def PexprBestJoinOrderDP (best : BestJoinOrder Op) (pbs : Finset ℕ) (s : State Op) :
    Option (Option (CExpression Op) × State Op) :=
  ((PdrgpbsSubsets jodp pbs).foldlM (trySplit jodp best pbs) (⟨0, none⟩, s)).map
    fun (result, s) =>
      let s := s.insert pbs result.pexprResult
      match result.pexprResult with
      | none => (none, s)
      | some pexprResult =>
        (some pexprResult, { s with
          m_phmexprcost :=
            jodp.InsertExpressionCost pexprResult result.dMinCost s.m_phmexprcost })

/-- `PexprBestJoinOrder` (CJoinOrderDP.cpp:790), to a depth of recursion. -/
def PexprBestJoinOrder : ℕ → BestJoinOrder Op
  | 0, _, _ => none
  | fuel + 1, pbs, s =>
    match PexprLookup jodp s pbs with
    | some pexpr => some (pexpr, s)
    | none =>
      if PbsCovered jodp pbs = ∅ then
        (PexprCross jodp pbs s).map fun (pexpr, s) => (some pexpr, s)
      else if PbsCovered jodp pbs ≠ pbs then
        PexprJoinCoveredSubsetWithUncoveredSubset jodp (PexprBestJoinOrder fuel) pbs
          (PbsCovered jodp pbs) (pbs \ PbsCovered jodp pbs) s
      else if pbs.card = 2 then PexprJoinPair jodp pbs s
      else PexprBestJoinOrderDP jodp (PexprBestJoinOrder fuel) pbs s

/-- `PexprExpand` (CJoinOrderDP.cpp:914). The recursion is as deep as there are atoms. -/
def PexprExpand : Option (Option (CExpression Op) × State Op) :=
  PexprBestJoinOrder jodp jodp.m_ulComps (Finset.range jodp.m_ulComps) State.new

end BossOptimizer.CJoinOrderDP

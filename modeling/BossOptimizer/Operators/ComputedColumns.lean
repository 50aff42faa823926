import Mathlib.Data.Finset.Card
import BossOptimizer.Operators.UnreadColumns

/-!
# Unused computed columns

`CExpressionPreprocessor::PexprPruneUnusedComputedCols` walks down a query with the columns that
are required of it, and takes those elements out of project lists whose columns nothing requires.
The required columns are passed by reference: what one child requires is required of the next one
as well.

An element with a set-returning function multiplies rows, and is to stay. It is found by a flag of
its functions, which for a function on top (CScalarFunc.cpp:211) does not look at the arguments.
-/

namespace BossOptimizer

namespace CExpression

variable {Op V : Type}

/-- A value for each expression, from its children and their values. -/
def para (sem : Op → List (CExpression Op × V) → V) (pexpr : CExpression Op) : V :=
  (pexpr.fold fun pop children => (node pop (children.map (·.1)), sem pop children)).2

theorem para_node (sem : Op → List (CExpression Op × V) → V) (pop : Op)
    (pdrgpexpr : List (CExpression Op)) :
    para sem (.node pop pdrgpexpr) = sem pop (pdrgpexpr.map fun e => (e, para sem e)) := by
  have hpair : ∀ e : CExpression Op,
      e.fold (fun pop children => (node pop (children.map (·.1)), sem pop children)) =
        (e, para sem e) := by
    intro e
    induction e using CExpression.induction with
    | node pop l ih =>
      have hmap := List.map_congr_left ih
      rw [para, fold_node, hmap, List.map_map]
      simp only [Function.comp_def, List.map_id']
  rw [para, fold_node, List.map_congr_left fun e _ => hpair e]

end CExpression

/-- `COperator::FLogical`. -/
def GroupingOp.FLogical {K W Op : Type} (FLogical : Op → Bool) : GroupingOp K W Op → Bool
  | .other pop => FLogical pop
  | _ => true

def QueryOp.FLogical {D Op : Type} (FLogical : Op → Bool) : QueryOp D Op → Bool
  | .logicalProject => true
  | .logicalConstTableGet .. => true
  | .other pop => FLogical pop
  | _ => false

/-- `CLogical::PcrsLocalUsed`. -/
def GroupingOp.PcrsLocalUsed {K W Op : Type} (cols : GroupingColumns K W Op)
    (PcrsLocalUsed : Op → List CColRef) : GroupingOp K W Op → List CColRef
  | .logicalLimit popLimit => popLimit.pos.PcrsUsed
  | .logicalGbAgg popAgg => popAgg.pdrgpcr
  | .logicalSequenceProject pop => pop.pcrsLocalUsed cols
  | .other pop => PcrsLocalUsed pop

def QueryOp.PcrsLocalUsed {D Op : Type} (PcrsLocalUsed : Op → List CColRef) :
    QueryOp D Op → List CColRef
  | .other pop => PcrsLocalUsed pop
  | _ => []

namespace PrunableSemantics

variable {D K W Op : Type} (S : PrunableSemantics D K W Op)

abbrev popFLogical (pop : QueryOp D (GroupingOp K W Op)) : Bool :=
  pop.FLogical (GroupingOp.FLogical S.FLogical)

abbrev popLocalUsed (pop : QueryOp D (GroupingOp K W Op)) : List CColRef :=
  pop.PcrsLocalUsed (GroupingOp.PcrsLocalUsed S.cols S.PcrsLocalUsed)

abbrev columns (pexpr : Query D (GroupingOp K W Op)) : DerivedColumns :=
  Query.columns (GroupingOp.columns S.cols) pexpr

/-! ## Derived properties -/

/-- `FHasNonScalarFunction`: of a function, whether it returns a set itself (CScalarFunc.cpp:211);
    of another scalar operator, whether a child has one (CScalar.cpp:341). -/
def FHasNonScalarFunction (pop : QueryOp D (GroupingOp K W Op)) (children : List Bool) : Bool :=
  if Query.FSubquery pop || S.popFLogical pop then false
  else match pop with
    | .other (.other func) => (S.returnsSet func).getD (children.any id)
    | _ => children.any id

def DeriveHasNonScalarFunction (pexpr : Query D (GroupingOp K W Op)) : Bool :=
  pexpr.fold S.FHasNonScalarFunction

/-- `CDrvdPropScalar::DeriveSetReturningFunctionColumns` (CDrvdPropScalar.cpp:222). -/
def DeriveSetReturningFunctionColumns (pexpr : Query D (GroupingOp K W Op)) : List CColRef :=
  pexpr.para fun pop children =>
    (if S.popFLogical pop then [] else children.flatMap (·.2)) ++
      match pop with
      | .scalarProjectElement pcr =>
        if S.DeriveHasNonScalarFunction (.node pop (children.map (·.1))) then [pcr] else []
      | _ => []

def DeriveDefinedColumns (pexpr : Query D (GroupingOp K W Op)) : List CColRef :=
  (S.columns pexpr).defined

/-- `CExpressionHandle::PcrsUsedColumns` (CExpressionHandle.cpp:1739). -/
def PcrsUsedColumns (pop : QueryOp D (GroupingOp K W Op))
    (pdrgpexpr : List (Query D (GroupingOp K W Op))) : List CColRef :=
  S.popLocalUsed pop ++ pdrgpexpr.flatMap fun e => (S.columns e).used

/-! ## The pass -/

def FProjectOrGbAgg : QueryOp D (GroupingOp K W Op) → Bool
  | .logicalProject => true
  | .other (.logicalGbAgg _) => true
  | _ => false

/-- The element is not of an unused column. -/
def FRemains (pcrsUnused : Finset CColRef) : Query D (GroupingOp K W Op) → Bool
  | .node (.scalarProjectElement pcr) _ => pcr ∉ pcrsUnused
  | _ => true

/-- `pdrgpexprPrElRemain`. -/
def pdrgpexprPrElRemain (pcrsUnused : Finset CColRef) (pexprProjList : Query D (GroupingOp K W Op)) :
    List (Query D (GroupingOp K W Op)) :=
  pexprProjList.PdrgPexpr.filter (FRemains pcrsUnused)

/-- The new project list, if the operator stays: a project without elements goes, an aggregate
    without them keeps its grouping columns or, where it has none, all elements. -/
def pexprProjectListNew (pop : QueryOp D (GroupingOp K W Op))
    (pexprProjList : Query D (GroupingOp K W Op)) (pcrsUnused pcrsDefined : Finset CColRef) :
    Option (Query D (GroupingOp K W Op)) :=
  if pcrsUnused.card = pcrsDefined.card then
    match pop with
    | .other (.logicalGbAgg popAgg) =>
      if 0 < popAgg.pdrgpcr.length then some (.node .scalarProjectList []) else some pexprProjList
    | _ => none
  else some (.node .scalarProjectList (pdrgpexprPrElRemain pcrsUnused pexprProjList))

/-- What is required of the relational child. -/
def pcrsReqdNew (pop : QueryOp D (GroupingOp K W Op))
    (pexprRelational pexprProjList : Query D (GroupingOp K W Op))
    (pcrsUnused pcrsDefined pcrsReqd : Finset CColRef) : Finset CColRef :=
  if pcrsUnused.card = pcrsDefined.card then
    match pop with
    | .other (.logicalGbAgg popAgg) =>
      if 0 < popAgg.pdrgpcr.length then pcrsReqd ∪ popAgg.pdrgpcr.toFinset
      else pcrsReqd ∪ (S.PcrsUsedColumns pop [pexprRelational, pexprProjList]).toFinset
    | _ => pcrsReqd
  else pcrsReqd ∪ ((pdrgpexprPrElRemain pcrsUnused pexprProjList).flatMap fun e =>
    (S.columns e).used).toFinset

/-- `PexprPruneProjListProjectOrGbAgg` (CExpressionPreprocessor.cpp:2263), with what the pass makes
    of the relational child. -/
def PexprPruneProjListProjectOrGbAgg (pop : QueryOp D (GroupingOp K W Op))
    (pexprRelationalNew pexprProjList : Query D (GroupingOp K W Op))
    (pcrsUnused pcrsDefined : Finset CColRef) : Query D (GroupingOp K W Op) :=
  match pexprProjectListNew pop pexprProjList pcrsUnused pcrsDefined with
  | some list => .node pop [pexprRelationalNew, list]
  | none => pexprRelationalNew

/-- The required columns at a project or an aggregate: those of the operator and of elements that
    return sets are among them. -/
def pcrsReqdByList (pop : QueryOp D (GroupingOp K W Op)) (pexprProjList : Query D (GroupingOp K W Op))
    (pcrsReqd : Finset CColRef) : Finset CColRef :=
  pcrsReqd ∪ (S.popLocalUsed pop).toFinset ∪
    (S.DeriveSetReturningFunctionColumns pexprProjList).toFinset

def pcrsUnusedLocal (pop : QueryOp D (GroupingOp K W Op)) (pexprProjList : Query D (GroupingOp K W Op))
    (pcrsReqd : Finset CColRef) : Finset CColRef :=
  (S.DeriveDefinedColumns pexprProjList).toFinset \ S.pcrsReqdByList pop pexprProjList pcrsReqd

/-- The children in turn, each with the required columns that the one before leaves. -/
def pruneEach : List (Finset CColRef → Query D (GroupingOp K W Op) × Finset CColRef) →
    Finset CColRef → List (Query D (GroupingOp K W Op)) × Finset CColRef
  | [], pcrsReqd => ([], pcrsReqd)
  | prune :: prunes, pcrsReqd =>
    let child := prune pcrsReqd
    let rest := pruneEach prunes child.2
    (child.1 :: rest.1, rest.2)

/-- One step of the pass, with each child what the pass does on it. -/
def pruneOp (pop : QueryOp D (GroupingOp K W Op)) (children : List (Query D (GroupingOp K W Op) ×
      (Finset CColRef → Query D (GroupingOp K W Op) × Finset CColRef)))
    (pcrsReqd : Finset CColRef) : Query D (GroupingOp K W Op) × Finset CColRef :=
  let pdrgpexpr := children.map (·.1)
  let processChildren (pcrsReqd : Finset CColRef) :=
    let pcrsReqd :=
      if S.popFLogical pop then pcrsReqd ∪ (S.PcrsUsedColumns pop pdrgpexpr).toFinset else pcrsReqd
    let processed := pruneEach (children.map (·.2)) pcrsReqd
    (.node pop processed.1, processed.2)
  if Query.FSubquery pop then (.node pop pdrgpexpr, pcrsReqd)
  else match FProjectOrGbAgg pop, children with
    | true, [(pexprRelational, prune), (pexprProjList, _)] =>
      let pcrsDefined := (S.DeriveDefinedColumns pexprProjList).toFinset
      let pcrsUnused := S.pcrsUnusedLocal pop pexprProjList pcrsReqd
      let pcrsReqd := S.pcrsReqdByList pop pexprProjList pcrsReqd
      if 0 < pcrsUnused.card then
        let pexprRelationalNew := (prune (S.pcrsReqdNew pop pexprRelational pexprProjList pcrsUnused
          pcrsDefined pcrsReqd)).1
        (PexprPruneProjListProjectOrGbAgg pop pexprRelationalNew pexprProjList pcrsUnused
          pcrsDefined, pcrsReqd)
      else processChildren pcrsReqd
    | _, _ => processChildren pcrsReqd

/-- `PexprPruneUnusedComputedColsRecursive` (CExpressionPreprocessor.cpp:2186): the new expression,
    and the required columns afterwards. -/
def PexprPruneUnusedComputedColsRecursive (pexpr : Query D (GroupingOp K W Op)) :
    Finset CColRef → Query D (GroupingOp K W Op) × Finset CColRef :=
  pexpr.para S.pruneOp

/-- `PexprPruneUnusedComputedCols` (CExpressionPreprocessor.cpp:2161). -/
def PexprPruneUnusedComputedCols (fDisabled : Bool) (pexpr : Query D (GroupingOp K W Op))
    (pcrsReqd : Option (Finset CColRef)) : Query D (GroupingOp K W Op) :=
  match pcrsReqd with
  | none => pexpr
  | some pcrsReqd =>
    if fDisabled then pexpr else (S.PexprPruneUnusedComputedColsRecursive pexpr pcrsReqd).1

end PrunableSemantics

end BossOptimizer

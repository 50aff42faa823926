import BossOptimizer.Operators.ComputedColumns

/-!
# The scopes of computed columns

What the removal of unused computed columns walks into, what is required there, and the columns
that go. In a query that is scoped a column of a project list is read above the list, and not by
what stands beside it.
-/

namespace BossOptimizer

namespace PrunableSemantics

variable {D K W Op : Type} (S : PrunableSemantics D K W Op)

/-! ## The walk -/

/-- The project list of which elements are taken, below its relational child. -/
def prunedAt (pop : QueryOp D (GroupingOp K W Op)) (pdrgpexpr : List (Query D (GroupingOp K W Op)))
    (pcrsReqd : Finset CColRef) : Option (Query D (GroupingOp K W Op) × Query D (GroupingOp K W Op)) :=
  match FProjectOrGbAgg pop, pdrgpexpr with
  | true, [pexprRelational, pexprProjList] =>
    if 0 < (S.pcrsUnusedLocal pop pexprProjList pcrsReqd).card then
      some (pexprRelational, pexprProjList)
    else none
  | _, _ => none

/-- What is required at an operator. -/
def pcrsReqdAt (pop : QueryOp D (GroupingOp K W Op))
    (pdrgpexpr : List (Query D (GroupingOp K W Op))) (pcrsReqd : Finset CColRef) :
    Finset CColRef :=
  match FProjectOrGbAgg pop, pdrgpexpr with
  | true, [_, pexprProjList] => S.pcrsReqdByList pop pexprProjList pcrsReqd
  | _, _ => pcrsReqd

/-- What is required of all children, where no elements are taken. -/
def pcrsReqdOfChildren (pop : QueryOp D (GroupingOp K W Op))
    (pdrgpexpr : List (Query D (GroupingOp K W Op))) (pcrsReqd : Finset CColRef) :
    Finset CColRef :=
  if S.popFLogical pop then
    S.pcrsReqdAt pop pdrgpexpr pcrsReqd ∪ (S.PcrsUsedColumns pop pdrgpexpr).toFinset
  else S.pcrsReqdAt pop pdrgpexpr pcrsReqd

/-- What is required of the relational child, where elements are taken. -/
def pcrsReqdOfRelational (pop : QueryOp D (GroupingOp K W Op))
    (pexprRelational pexprProjList : Query D (GroupingOp K W Op)) (pcrsReqd : Finset CColRef) :
    Finset CColRef :=
  S.pcrsReqdNew pop pexprRelational pexprProjList (S.pcrsUnusedLocal pop pexprProjList pcrsReqd)
    (S.DeriveDefinedColumns pexprProjList).toFinset (S.pcrsReqdByList pop pexprProjList pcrsReqd)

/-- Children in turn, with what is required of each. -/
def visits : List (Query D (GroupingOp K W Op)) → Finset CColRef →
    List (Query D (GroupingOp K W Op) × Finset CColRef)
  | [], _ => []
  | pexpr :: pdrgpexpr, pcrsReqd =>
    (pexpr, pcrsReqd) ::
      visits pdrgpexpr (S.PexprPruneUnusedComputedColsRecursive pexpr pcrsReqd).2

/-- The children that the pass walks into. -/
def descents (pop : QueryOp D (GroupingOp K W Op)) (pdrgpexpr : List (Query D (GroupingOp K W Op)))
    (pcrsReqd : Finset CColRef) : List (Query D (GroupingOp K W Op) × Finset CColRef) :=
  if Query.FSubquery pop then []
  else match S.prunedAt pop pdrgpexpr pcrsReqd with
    | some (pexprRelational, pexprProjList) =>
      [(pexprRelational, S.pcrsReqdOfRelational pop pexprRelational pexprProjList pcrsReqd)]
    | none => S.visits pdrgpexpr (S.pcrsReqdOfChildren pop pdrgpexpr pcrsReqd)

/-- The result of the pass. -/
abbrev pruned (v : Query D (GroupingOp K W Op) × Finset CColRef) : Query D (GroupingOp K W Op) :=
  (S.PexprPruneUnusedComputedColsRecursive v.1 v.2).1

variable {pop : QueryOp D (GroupingOp K W Op)} {l : List (Query D (GroupingOp K W Op))}
  {rel list pexpr : Query D (GroupingOp K W Op)} {r : Finset CColRef} {c : CColRef}

theorem prunedAt_eq_some_iff : S.prunedAt pop l r = some (rel, list) ↔
    FProjectOrGbAgg pop = true ∧ l = [rel, list] ∧ 0 < (S.pcrsUnusedLocal pop list r).card := by
  rw [prunedAt.eq_def]
  split
  · split_ifs with hunused
    · constructor
      · rintro ⟨⟩
        exact ⟨by assumption, rfl, hunused⟩
      · rintro ⟨-, ⟨⟩, -⟩
        rfl
    · constructor
      · rintro ⟨⟩
      · rintro ⟨-, ⟨⟩, h⟩
        exact absurd h hunused
  · next hother =>
    constructor
    · rintro ⟨⟩
    · rintro ⟨hpop, rfl, -⟩
      exact absurd rfl (hother _ _ hpop)

theorem fLogical_of_fProjectOrGbAgg (h : FProjectOrGbAgg pop = true) : S.popFLogical pop = true := by
  cases pop with
  | logicalProject => rfl
  | other pop => cases pop <;> first | rfl | cases h
  | _ => cases h

theorem fSubquery_of_fLogical (h : S.popFLogical pop = true) : Query.FSubquery pop = false := by
  cases pop <;> first | rfl | cases h

theorem pruneEach_fst (l : List (Query D (GroupingOp K W Op))) (r : Finset CColRef) :
    (pruneEach (l.map S.PexprPruneUnusedComputedColsRecursive) r).1 =
      (S.visits l r).map S.pruned := by
  induction l generalizing r with
  | nil => rfl
  | cons e l ih => exact congrArg (_ :: ·) (ih _)

/-- A subquery is left alone. -/
theorem prune_subquery (h : Query.FSubquery pop = true) :
    S.PexprPruneUnusedComputedColsRecursive (.node pop l) r = (.node pop l, r) := by
  rw [PexprPruneUnusedComputedColsRecursive, CExpression.para_node, pruneOp.eq_def,
    if_pos h, List.map_map]
  simp only [Function.comp_def, List.map_id']

/-- The step that takes elements from a project list. -/
theorem prune_of_prunedAt_some (h : S.prunedAt pop l r = some (rel, list)) :
    S.PexprPruneUnusedComputedColsRecursive (.node pop l) r =
      (PexprPruneProjListProjectOrGbAgg pop
        (S.pruned (rel, S.pcrsReqdOfRelational pop rel list r)) list
        (S.pcrsUnusedLocal pop list r) (S.DeriveDefinedColumns list).toFinset,
      S.pcrsReqdByList pop list r) := by
  obtain ⟨hpop, rfl, hunused⟩ := S.prunedAt_eq_some_iff.1 h
  have hsub := S.fSubquery_of_fLogical (S.fLogical_of_fProjectOrGbAgg hpop)
  rw [PexprPruneUnusedComputedColsRecursive, CExpression.para_node, pruneOp.eq_def,
    if_neg (by simp [hsub])]
  simp only [hpop, List.map_cons, List.map_nil]
  rw [if_pos hunused]
  rfl

/-- The step at all other operators. -/
theorem prune_of_prunedAt_none (hsub : Query.FSubquery pop = false)
    (h : S.prunedAt pop l r = none) :
    S.PexprPruneUnusedComputedColsRecursive (.node pop l) r =
      (.node pop ((S.visits l (S.pcrsReqdOfChildren pop l r)).map S.pruned),
      (pruneEach (l.map S.PexprPruneUnusedComputedColsRecursive)
        (S.pcrsReqdOfChildren pop l r)).2) := by
  rw [← pruneEach_fst, PexprPruneUnusedComputedColsRecursive, CExpression.para_node,
    pruneOp.eq_def, if_neg (by simp [hsub]), pcrsReqdOfChildren, pcrsReqdAt.eq_def]
  have hfst : (l.map fun e => (e, e.para S.pruneOp)).map (·.1) = l := by simp [Function.comp_def]
  have hsnd : (l.map fun e => (e, e.para S.pruneOp)).map (·.2) =
      l.map S.PexprPruneUnusedComputedColsRecursive := by
    rw [List.map_map]
    rfl
  rw [hfst, hsnd]
  rcases hpop : FProjectOrGbAgg pop with _ | _
  · rfl
  rcases l with _ | ⟨rel, _ | ⟨list, _ | ⟨e, l⟩⟩⟩ <;> try rfl
  have hunused : ¬0 < (S.pcrsUnusedLocal pop list r).card := by
    intro hunused
    rw [S.prunedAt_eq_some_iff.2 ⟨hpop, rfl, hunused⟩] at h
    cases h
  simp only [List.map_cons, List.map_nil]
  rw [if_neg hunused]

/-! ## What is required only grows -/

theorem subset_pcrsReqdByList : r ⊆ S.pcrsReqdByList pop list r :=
  fun _ hc => Finset.mem_union_left _ (Finset.mem_union_left _ hc)

theorem pcrsReqdByList_subset : S.pcrsReqdByList pop list r ⊆ S.pcrsReqdOfRelational pop rel list r := by
  rw [pcrsReqdOfRelational, pcrsReqdNew.eq_def]
  split
  · split
    · split <;> exact Finset.subset_union_left
    · exact subset_rfl
  · exact Finset.subset_union_left

theorem subset_pcrsReqdAt : r ⊆ S.pcrsReqdAt pop l r := by
  rw [pcrsReqdAt.eq_def]
  split
  · exact S.subset_pcrsReqdByList
  · exact subset_rfl

theorem subset_pcrsReqdOfChildren : r ⊆ S.pcrsReqdOfChildren pop l r := by
  rw [pcrsReqdOfChildren]
  split
  · exact S.subset_pcrsReqdAt.trans Finset.subset_union_left
  · exact S.subset_pcrsReqdAt

theorem used_subset_pcrsReqdOfChildren (h : S.popFLogical pop = true)
    (hc : c ∈ S.PcrsUsedColumns pop l) : c ∈ S.pcrsReqdOfChildren pop l r := by
  rw [pcrsReqdOfChildren, if_pos h]
  exact Finset.mem_union_right _ (List.mem_toFinset.2 hc)

theorem subset_pruneEach (l : List (Query D (GroupingOp K W Op)))
    (h : ∀ e ∈ l, ∀ r, r ⊆ (S.PexprPruneUnusedComputedColsRecursive e r).2) (r : Finset CColRef) :
    r ⊆ (pruneEach (l.map S.PexprPruneUnusedComputedColsRecursive) r).2 := by
  induction l generalizing r with
  | nil => exact subset_rfl
  | cons e l ih =>
    exact (h e (by simp) r).trans (ih (fun e he => h e (List.mem_cons_of_mem _ he)) _)

theorem subset_prune (pexpr : Query D (GroupingOp K W Op)) (r : Finset CColRef) :
    r ⊆ (S.PexprPruneUnusedComputedColsRecursive pexpr r).2 := by
  induction pexpr using CExpression.induction generalizing r with
  | node pop l ih =>
    rcases hsub : Query.FSubquery pop with _ | _
    · rcases h : S.prunedAt pop l r with _ | ⟨rel, list⟩
      · rw [S.prune_of_prunedAt_none hsub h]
        refine S.subset_pcrsReqdOfChildren.trans (S.subset_pruneEach l ih _)
      · rw [S.prune_of_prunedAt_some h]
        exact S.subset_pcrsReqdByList
    · rw [S.prune_subquery hsub]

variable {v : Query D (GroupingOp K W Op) × Finset CColRef}

theorem mem_visits (hv : v ∈ S.visits l r) :
    v.1 ∈ l ∧ r ⊆ v.2 := by
  induction l generalizing r with
  | nil => cases hv
  | cons e l ih =>
    rcases List.mem_cons.1 hv with rfl | hv
    · exact ⟨List.mem_cons_self, subset_rfl⟩
    · obtain ⟨hmem, hsub⟩ := ih hv
      exact ⟨List.mem_cons_of_mem _ hmem, (S.subset_prune e r).trans hsub⟩

theorem map_fst_visits (l : List (Query D (GroupingOp K W Op))) (r : Finset CColRef) :
    (S.visits l r).map (·.1) = l := by
  induction l generalizing r with
  | nil => rfl
  | cons e l ih => exact congrArg (e :: ·) (ih _)

theorem mem_descents (hv : v ∈ S.descents pop l r) : v.1 ∈ l ∧ r ⊆ v.2 := by
  rw [descents] at hv
  split at hv
  · cases hv
  · split at hv
    · next rel list h =>
      obtain ⟨-, rfl, -⟩ := S.prunedAt_eq_some_iff.1 h
      obtain rfl := List.mem_singleton.1 hv
      exact ⟨by simp, S.subset_pcrsReqdByList.trans S.pcrsReqdByList_subset⟩
    · obtain ⟨hmem, hsub⟩ := S.mem_visits hv
      exact ⟨hmem, S.subset_pcrsReqdOfChildren.trans hsub⟩

/-! ## The columns that go -/

/-- The pass takes the elements of the columns `X` from a project list. -/
inductive Loses : Query D (GroupingOp K W Op) → Finset CColRef → Query D (GroupingOp K W Op) →
    Finset CColRef → Prop
  | here {pop : QueryOp D (GroupingOp K W Op)} {l : List (Query D (GroupingOp K W Op))}
      {r : Finset CColRef} {rel list : Query D (GroupingOp K W Op)}
      (h : S.prunedAt pop l r = some (rel, list))
      (hnew : pexprProjectListNew pop list (S.pcrsUnusedLocal pop list r)
        (S.DeriveDefinedColumns list).toFinset ≠ some list) :
      Loses (.node pop l) r list (S.pcrsUnusedLocal pop list r)
  | child {pop : QueryOp D (GroupingOp K W Op)} {l : List (Query D (GroupingOp K W Op))}
      {r : Finset CColRef} {v : Query D (GroupingOp K W Op) × Finset CColRef}
      {list : Query D (GroupingOp K W Op)} {X : Finset CColRef}
      (hv : v ∈ S.descents pop l r) (h : Loses v.1 v.2 list X) :
      Loses (.node pop l) r list X

/-- The pass takes the column from a project list. -/
def Dropped (pexpr : Query D (GroupingOp K W Op)) (r : Finset CColRef) (c : CColRef) : Prop :=
  ∃ list X, S.Loses pexpr r list X ∧ c ∈ X

theorem Dropped.child
    (hv : v ∈ S.descents pop l r) (h : S.Dropped v.1 v.2 c) : S.Dropped (.node pop l) r c := by
  obtain ⟨list, X, hX, hc⟩ := h
  exact ⟨list, X, .child hv hX, hc⟩

theorem dropped_node (h : S.Dropped (.node pop l) r c) :
    (∃ rel list, S.prunedAt pop l r = some (rel, list) ∧
      pexprProjectListNew pop list (S.pcrsUnusedLocal pop list r)
        (S.DeriveDefinedColumns list).toFinset ≠ some list ∧ c ∈ S.pcrsUnusedLocal pop list r) ∨
      ∃ v ∈ S.descents pop l r, S.Dropped v.1 v.2 c := by
  obtain ⟨list, X, hX, hc⟩ := h
  cases hX with
  | here h hnew => exact .inl ⟨_, _, h, hnew, hc⟩
  | child hv h => exact .inr ⟨_, hv, list, X, h, hc⟩

theorem Dropped.notMem (h : S.Dropped pexpr r c) : c ∉ r := by
  obtain ⟨list, X, hX, hc⟩ := h
  induction hX with
  | here =>
    exact fun hr => (Finset.mem_sdiff.1 hc).2 (S.subset_pcrsReqdByList hr)
  | child hv _ ih => exact fun hr => ih hc ((S.mem_descents hv).2 hr)

/-! ## Scopes -/

/-- The columns of the project lists outside subqueries. -/
def computed (pexpr : Query D (GroupingOp K W Op)) : List CColRef :=
  pexpr.fold fun pop children =>
    if Query.FSubquery pop then []
    else (match pop with | .scalarProjectElement pcr => [pcr] | _ => []) ++ children.flatten

theorem computed_node (pop : QueryOp D (GroupingOp K W Op))
    (l : List (Query D (GroupingOp K W Op))) :
    computed (.node pop l) = if Query.FSubquery pop then [] else
      (match pop with | .scalarProjectElement pcr => [pcr] | _ => []) ++ l.flatMap computed := by
  rw [computed, CExpression.fold_node, List.flatMap_def]
  rfl

def projectElement (x : CColRef × Query D (GroupingOp K W Op)) : Query D (GroupingOp K W Op) :=
  .node (.scalarProjectElement x.1) [x.2]

/-- What one expression computes, the other one reads as an outer reference, if at all. -/
def ReadOutside (pexpr pexpr' : Query D (GroupingOp K W Op)) : Prop :=
  ∀ c ∈ computed pexpr, c ∈ S.mentioned pexpr' → c ∈ (S.columns pexpr').used

/-- The scopes of the columns at an operator. -/
structure ScopedAt (pop : QueryOp D (GroupingOp K W Op)) (l : List (Query D (GroupingOp K W Op))) :
    Prop where
  /-- Relations are below relations and subqueries. -/
  scalar : S.popFLogical pop = false → Query.FSubquery pop = false →
    ∀ e ∈ l, S.popFLogical e.Pop = false
  /-- No project list below one child is for columns of another child, but for scalars that use
      them. -/
  apart : S.popFLogical pop = true →
    l.Pairwise fun e e' => S.ReadOutside e e' ∧ S.ReadOutside e' e
  own : S.popFLogical pop = true → ∀ e ∈ l, ∀ c ∈ computed e,
    c ∈ pop.mentions (GroupingOp.mentions S.cols S.mentions) → c ∈ S.popLocalUsed pop
  /-- The elements of a project list are read neither below it nor in it. -/
  list : FProjectOrGbAgg pop = true →
    ∃ rel, ∃ xs : List (CColRef × Query D (GroupingOp K W Op)),
      l = [rel, .node .scalarProjectList (xs.map projectElement)] ∧
      S.popFLogical rel.Pop = true ∧ (∀ y ∈ xs, y.1 ∉ S.mentioned rel) ∧
      ∀ x ∈ xs, (S.columns x.2).defined = [] ∧ S.ReadOutside rel x.2 ∧
        ∀ y ∈ xs, y.1 ∉ S.mentioned x.2

/-- A query whose columns are in scope. -/
def Scoped (pexpr : Query D (GroupingOp K W Op)) : Prop :=
  ∀ pop l, CExpression.SubexpressionOf (.node pop l) pexpr → S.ScopedAt pop l

theorem Scoped.at {S : PrunableSemantics D K W Op} (h : S.Scoped (.node pop l)) :
    S.ScopedAt pop l := h pop l .refl

variable {e : Query D (GroupingOp K W Op)}

theorem Scoped.child {S : PrunableSemantics D K W Op} (h : S.Scoped (.node pop l))
    (he : e ∈ l) : S.Scoped e :=
  fun pop' l' hs => h pop' l' (.child he hs)

theorem scoped_node (hat : S.ScopedAt pop l) (hl : ∀ e ∈ l, S.Scoped e) :
    S.Scoped (.node pop l) := by
  intro pop' l' hs
  cases hs with
  | refl => exact hat
  | child he hs => exact hl _ he pop' l' hs

/-- A scalar has no relations below it but those of subqueries. -/
theorem scopedAt_scalar (h : S.popFLogical pop = false)
    (hl : ∀ e ∈ l, S.popFLogical e.Pop = false) : S.ScopedAt pop l where
  scalar _ _ := hl
  apart hpop := absurd (h.symm.trans hpop) Bool.false_ne_true
  own hpop := absurd (h.symm.trans hpop) Bool.false_ne_true
  list hpop := absurd (h.symm.trans (S.fLogical_of_fProjectOrGbAgg hpop)) Bool.false_ne_true

theorem columns_node (pop : QueryOp D (GroupingOp K W Op))
    (l : List (Query D (GroupingOp K W Op))) :
    S.columns (.node pop l) = pop.columns (GroupingOp.columns S.cols) (l.map S.columns) := by
  rw [columns, Query.columns, CExpression.fold_node]
  rfl

variable {xs : List (CColRef × Query D (GroupingOp K W Op))}

theorem defined_projectList (hxs : ∀ x ∈ xs, (S.columns x.2).defined = []) :
    S.DeriveDefinedColumns (.node .scalarProjectList (xs.map projectElement)) = xs.map (·.1) := by
  rw [DeriveDefinedColumns, columns_node]
  simp only [QueryOp.columns, DerivedColumns.scalar, List.nil_append, List.map_map,
    List.flatMap_map]
  induction xs with
  | nil => rfl
  | cons x xs ih =>
    rw [List.flatMap_cons, List.map_cons, ih fun x' hx' => hxs x' (List.mem_cons_of_mem _ hx')]
    simp [projectElement, columns_node, QueryOp.columns, DerivedColumns.scalar,
      hxs x List.mem_cons_self]

theorem mem_computed_child (hsub : Query.FSubquery pop = false) (he : e ∈ l) (hc : c ∈ computed e) :
    c ∈ computed (.node pop l) := by
  rw [computed_node, hsub]
  exact List.mem_append_right _ (List.mem_flatMap.2 ⟨e, he, hc⟩)

theorem mem_computed_projectList {x : CColRef × Query D (GroupingOp K W Op)} (hx : x ∈ xs) :
    x.1 ∈ computed (.node (.scalarProjectList : QueryOp D (GroupingOp K W Op))
      (xs.map projectElement)) := by
  refine mem_computed_child rfl (List.mem_map_of_mem hx) ?_
  rw [projectElement, computed_node]
  exact List.mem_append_left _ List.mem_cons_self

theorem fSubquery_of_descents (hv : v ∈ S.descents pop l r) : Query.FSubquery pop = false := by
  rcases hsub : Query.FSubquery pop with _ | _
  · rfl
  · rw [descents, if_pos hsub] at hv
    cases hv

/-- The columns that are left out of a list are those of its elements. -/
theorem mem_unused (hscoped : S.ScopedAt pop l) (h : S.prunedAt pop l r = some (rel, list))
    (hc : c ∈ S.pcrsUnusedLocal pop list r) :
    ∃ xs : List (CColRef × Query D (GroupingOp K W Op)),
      list = .node .scalarProjectList (xs.map projectElement) ∧ ∃ x ∈ xs, x.1 = c := by
  obtain ⟨hpop, rfl, -⟩ := S.prunedAt_eq_some_iff.1 h
  obtain ⟨_, xs, ⟨⟩, -, -, hxs⟩ := hscoped.list hpop
  refine ⟨xs, rfl, ?_⟩
  have hdefined := List.mem_toFinset.1 (Finset.mem_sdiff.1 hc).1
  rw [S.defined_projectList fun x hx => (hxs x hx).1] at hdefined
  exact List.mem_map.1 hdefined

theorem Dropped.computed (hscoped : S.Scoped pexpr) (h : S.Dropped pexpr r c) :
    c ∈ computed pexpr := by
  induction pexpr using CExpression.induction generalizing r with
  | node pop l ih =>
    obtain ⟨rel, list, hat, -, hc⟩ | ⟨v, hv, hc⟩ := S.dropped_node h
    · obtain ⟨hpop, rfl, -⟩ := S.prunedAt_eq_some_iff.1 hat
      obtain ⟨xs, rfl, x, hx, rfl⟩ := S.mem_unused hscoped.at hat hc
      exact mem_computed_child
        (S.fSubquery_of_fLogical (S.fLogical_of_fProjectOrGbAgg hpop)) (by simp)
        (mem_computed_projectList hx)
    · have hmem := (S.mem_descents hv).1
      exact mem_computed_child (S.fSubquery_of_descents hv) hmem
        (ih v.1 hmem (hscoped.child hmem) hc)

theorem visits_of_unchanged
    (h : ∀ e ∈ l, S.PexprPruneUnusedComputedColsRecursive e r = (e, r)) :
    S.visits l r = l.map (·, r) ∧
      (pruneEach (l.map S.PexprPruneUnusedComputedColsRecursive) r).2 = r := by
  induction l with
  | nil => exact ⟨rfl, rfl⟩
  | cons e l ih =>
    obtain ⟨hvisits, hreqd⟩ := ih fun e he => h e (List.mem_cons_of_mem _ he)
    have he := h e List.mem_cons_self
    constructor
    · rw [visits, he, hvisits, List.map_cons]
    · rw [List.map_cons, pruneEach, he, hreqd]

/-- Scalars stay as they are. -/
theorem prune_scalar (hscoped : S.Scoped pexpr) (h : S.popFLogical pexpr.Pop = false)
    (r : Finset CColRef) :
    S.PexprPruneUnusedComputedColsRecursive pexpr r = (pexpr, r) ∧ ∀ c, ¬S.Dropped pexpr r c := by
  induction pexpr using CExpression.induction generalizing r with
  | node pop l ih =>
    change S.popFLogical pop = false at h
    have hpop : FProjectOrGbAgg pop = false := by
      by_contra hpop
      rw [Bool.not_eq_false] at hpop
      exact Bool.false_ne_true (h.symm.trans (S.fLogical_of_fProjectOrGbAgg hpop))
    have hat : S.prunedAt pop l r = none := by
      rw [prunedAt.eq_def, hpop]
    have hhere : ∀ {c}, S.Dropped (.node pop l) r c →
        ∃ v ∈ S.descents pop l r, S.Dropped v.1 v.2 c := by
      intro c hc
      refine (S.dropped_node hc).resolve_left ?_
      rintro ⟨rel, list, hat', -, -⟩
      rw [hat] at hat'
      cases hat'
    rcases hsub : Query.FSubquery pop with _ | _
    · have hchild := fun e he => ih e he (hscoped.child he) (hscoped.at.scalar h hsub e he)
      have hreqd : S.pcrsReqdOfChildren pop l r = r := by
        rw [pcrsReqdOfChildren, if_neg (by simp [h]), pcrsReqdAt.eq_def, hpop]
      obtain ⟨hvisits, hlast⟩ := S.visits_of_unchanged fun e he => (hchild e he r).1
      constructor
      · rw [S.prune_of_prunedAt_none hsub hat, hreqd, hvisits, hlast, List.map_map]
        have hself : l.map (S.pruned ∘ (·, r)) = l.map id :=
          List.map_congr_left fun e he => congrArg Prod.fst (hchild e he r).1
        rw [hself, List.map_id]
      · intro c hc
        obtain ⟨v, hv, hdropped⟩ := hhere hc
        rw [descents, if_neg (by simp [hsub]), hat] at hv
        rw [hreqd, hvisits] at hv
        obtain ⟨e, he, rfl⟩ := List.mem_map.1 hv
        exact (hchild e he r).2 c hdropped
    · refine ⟨S.prune_subquery hsub, fun c hc => ?_⟩
      obtain ⟨v, hv, -⟩ := hhere hc
      exact Bool.false_ne_true ((S.fSubquery_of_descents hv).symm.trans hsub)

theorem mentioned_child (he : e ∈ l) (hc : c ∈ S.mentioned e) :
    c ∈ S.mentioned (.node pop l) := by
  rw [mentioned_node]
  exact List.mem_append_right _ (List.mem_flatMap.2 ⟨e, he, hc⟩)

theorem used_child (he : e ∈ l) (hc : c ∈ (S.columns e).used) : c ∈ S.PcrsUsedColumns pop l :=
  List.mem_append_right _ (List.mem_flatMap.2 ⟨e, he, hc⟩)

/-! ## The new project list -/

theorem projectElement_injective :
    Function.Injective (projectElement : CColRef × Query D (GroupingOp K W Op) → _) := by
  rintro ⟨c, e⟩ ⟨c', e'⟩ h
  simp only [projectElement, CExpression.node.injEq, QueryOp.scalarProjectElement.injEq,
    List.cons.injEq, and_true] at h
  exact Prod.ext h.1 h.2

theorem used_projectElement (x : CColRef × Query D (GroupingOp K W Op)) :
    ∀ c ∈ (S.columns x.2).used, c ∈ (S.columns (projectElement x)).used := by
  intro c hc
  rw [projectElement, columns_node]
  simp [QueryOp.columns, DerivedColumns.scalar, DerivedColumns.usedByChildren, hc]

theorem used_projectList {x : CColRef × Query D (GroupingOp K W Op)} (hx : x ∈ xs)
    (hc : c ∈ (S.columns x.2).used) :
    c ∈ (S.columns (.node .scalarProjectList (xs.map projectElement))).used := by
  rw [columns_node]
  refine List.mem_append_right _ (List.mem_flatMap.2 ⟨S.columns (projectElement x), ?_,
    List.mem_append_left _ (S.used_projectElement x c hc)⟩)
  exact List.mem_map_of_mem (List.mem_map_of_mem hx)

theorem mem_used_of_projectList
    (hc : c ∈ (S.columns (.node .scalarProjectList (xs.map projectElement))).used) :
    c ∈ (xs.map projectElement).flatMap fun e => (S.columns e).used := by
  rw [columns_node, List.map_map] at hc
  simp only [QueryOp.columns, DerivedColumns.scalar, List.nil_append,
    DerivedColumns.usedByChildren, List.flatMap_map, List.mem_flatMap, Function.comp_apply] at hc ⊢
  obtain ⟨x, hx, hc⟩ := hc
  refine ⟨x, hx, (List.mem_append.1 hc).resolve_right ?_⟩
  rw [projectElement, columns_node]
  exact List.not_mem_nil

theorem pdrgpexprPrElRemain_eq (X : Finset CColRef)
    (xs : List (CColRef × Query D (GroupingOp K W Op))) :
    pdrgpexprPrElRemain X (.node .scalarProjectList (xs.map projectElement)) =
      (xs.filter (·.1 ∉ X)).map projectElement := by
  rw [pdrgpexprPrElRemain, CExpression.PdrgPexpr, List.filter_map]
  rfl

/-- What becomes of a project list: all elements stay, below an aggregate; or the unused ones go,
    with the projection where none is left. What the elements that stay use is required. -/
theorem pexprProjectListNew_cases (hxs : ∀ x ∈ xs, (S.columns x.2).defined = [])
    (hlist : list = .node .scalarProjectList (xs.map projectElement))
    (hat : S.prunedAt pop l r = some (rel, list)) :
    let new := pexprProjectListNew pop list (S.pcrsUnusedLocal pop list r)
      (S.DeriveDefinedColumns list).toFinset
    let remaining := xs.filter (·.1 ∉ S.pcrsUnusedLocal pop list r)
    (new = some list ∧ ∀ c ∈ (S.columns list).used, c ∈ S.pcrsReqdOfRelational pop rel list r) ∨
      new ≠ some list ∧
        (∀ c ∈ (S.columns (.node .scalarProjectList (remaining.map projectElement))).used,
          c ∈ S.pcrsReqdOfRelational pop rel list r) ∧
        (new = some (.node .scalarProjectList (remaining.map projectElement)) ∨
          new = none ∧ pop = .logicalProject ∧ remaining = []) := by
  intro new remaining
  obtain ⟨hpop, -, hunused⟩ := S.prunedAt_eq_some_iff.1 hat
  have hdefined : S.DeriveDefinedColumns list = xs.map (·.1) := hlist ▸ S.defined_projectList hxs
  have hremain : ∀ X, pdrgpexprPrElRemain X list = (xs.filter (·.1 ∉ X)).map projectElement :=
    fun X => hlist ▸ pdrgpexprPrElRemain_eq X xs
  have hremaining : remaining ≠ xs := by
    intro heq
    obtain ⟨c, hc⟩ := Finset.card_pos.1 hunused
    have hcdef := List.mem_toFinset.1 (Finset.mem_sdiff.1 hc).1
    rw [hdefined] at hcdef
    obtain ⟨x, hx, rfl⟩ := List.mem_map.1 hcdef
    rw [← heq] at hx
    exact absurd hc (by simpa using (List.mem_filter.1 hx).2)
  have hne : some (.node .scalarProjectList (remaining.map projectElement)) ≠ some list := by
    rw [hlist]
    intro heq
    simp only [Option.some.injEq, CExpression.node.injEq, true_and] at heq
    exact hremaining (List.map_injective_iff.2 projectElement_injective heq)
  have hnew : new = pexprProjectListNew pop list (S.pcrsUnusedLocal pop list r)
    (S.DeriveDefinedColumns list).toFinset := rfl
  rw [pexprProjectListNew.eq_def] at hnew
  rw [pcrsReqdOfRelational, pcrsReqdNew.eq_def]
  by_cases hcard : (S.pcrsUnusedLocal pop list r).card = (S.DeriveDefinedColumns list).toFinset.card
  · rw [if_pos hcard] at hnew ⊢
    have hall : S.pcrsUnusedLocal pop list r = (S.DeriveDefinedColumns list).toFinset :=
      Finset.eq_of_subset_of_card_le Finset.sdiff_subset hcard.ge
    have hnil : remaining = [] := by
      refine List.filter_eq_nil_iff.2 fun x hx => ?_
      have hmem : x.1 ∈ S.pcrsUnusedLocal pop list r := by
        rw [hall, hdefined]
        exact List.mem_toFinset.2 (List.mem_map_of_mem hx)
      simpa using hmem
    cases pop with
    | logicalProject =>
      refine .inr ⟨by rw [hnew]; exact nofun, by rw [hnil, columns_node]; exact nofun,
        .inr ⟨hnew, rfl, hnil⟩⟩
    | other pop =>
      cases pop with
      | logicalGbAgg popAgg =>
        simp only at hnew ⊢
        split_ifs at hnew ⊢ with hgroup
        · have hempty : new = some (.node .scalarProjectList (remaining.map projectElement)) := by
            rw [hnew, hnil, List.map_nil]
          exact .inr ⟨hempty ▸ hne, by rw [hnil, columns_node]; exact nofun, .inl hempty⟩
        · refine .inl ⟨hnew, fun c hc => ?_⟩
          exact Finset.mem_union_right _ (List.mem_toFinset.2
            (S.used_child (e := list) (by simp) hc))
      | _ => cases hpop
    | _ => cases hpop
  · rw [if_neg hcard] at hnew ⊢
    have hsome : new = some (.node .scalarProjectList (remaining.map projectElement)) :=
      hnew.trans (congrArg (fun es => some (CExpression.node .scalarProjectList es)) (hremain _))
    refine .inr ⟨hsome ▸ hne, fun c hc => ?_, .inl hsome⟩
    refine Finset.mem_union_right _ (List.mem_toFinset.2 ?_)
    rw [hremain]
    exact S.mem_used_of_projectList hc

end PrunableSemantics

end BossOptimizer

import BossOptimizer.Operators.ComputedColumnScopes

/-!
# What the removal of unused computed columns preserves

The pass keeps the rows of a query on the required columns wherever a project list makes as many
rows of a row without its unused elements as with them, and every column that a remaining operator
uses is still produced below it.
-/

namespace BossOptimizer

namespace PrunableSemantics

variable {D K W Op : Type} (S : PrunableSemantics D K W Op)
  {pop : QueryOp D (GroupingOp K W Op)} {l : List (Query D (GroupingOp K W Op))}
  {rel list pexpr : Query D (GroupingOp K W Op)} {r : Finset CColRef} {c : CColRef}

/-! ## Project lists -/

/-- The rows that a project list makes of a row. -/
def rounds (els : List (CColRef × List (Datum D))) : ℕ :=
  (els.map fun el => el.2.length).foldr Nat.lcm 1

/-- Elements with one value each make one row. -/
theorem rounds_eq_one {els : List (CColRef × List (Datum D))} (h : ∀ el ∈ els, el.2.length = 1) :
    rounds els = 1 := by
  induction els with
  | nil => rfl
  | cons el els ih =>
    have htail : (els.map fun el => el.2.length).foldr Nat.lcm 1 = 1 :=
      ih fun el hel => h el (List.mem_cons_of_mem _ hel)
    rw [rounds, List.map_cons, List.foldr_cons, htail, h el List.mem_cons_self, Nat.lcm_self]

/-- The values of a scalar. -/
def values? : Result D → Option (List (Datum D))
  | .value v => some [v]
  | .set vs => some vs
  | _ => none

variable {p : CColRef → Prop}

theorem refines_values? [DecidablePred p] {res res' : Result D}
    (h : res.Preserved p res') : Refines Eq (values? res) (values? res') := by
  obtain rfl | h := h
  · exact Refines.of_eq_none
  · refine Refines.of_eq ?_
    cases res <;> cases res' <;> simp_all [Result.keep, values?]

theorem assign_cons (c₀ : CColRef) (v : Datum D) (cols : List CColRef) (vals : List (Datum D))
    (row : Row D) (c : CColRef) :
    assign (c₀ :: cols) (v :: vals) row c = if c₀ = c then v else assign cols vals row c := by
  by_cases hc : c₀ = c
  · rw [if_pos hc, assign_of_mem (by simp [hc]), hc, List.idxOf_cons_self, List.getD_cons_zero]
  · rw [if_neg hc]
    by_cases hmem : c ∈ cols
    · rw [assign_of_mem (List.mem_cons_of_mem _ hmem), assign_of_mem hmem,
        List.idxOf_cons_ne _ hc, List.getD_cons_succ]
    · rw [assign_of_notMem (by simp [hmem, Ne.symm hc]), assign_of_notMem hmem]

theorem assign_filter (X : Finset CColRef) (els : List (CColRef × List (Datum D)))
    (g : CColRef × List (Datum D) → Datum D) (row : Row D) (hc : c ∉ X) :
    assign ((els.filter (·.1 ∉ X)).map (·.1)) ((els.filter (·.1 ∉ X)).map g) row c =
      assign (els.map (·.1)) (els.map g) row c := by
  induction els with
  | nil => rfl
  | cons el els ih =>
    rw [List.map_cons, List.map_cons, assign_cons, List.filter_cons]
    split
    · rw [List.map_cons, List.map_cons, assign_cons, ih]
    · next hel =>
      have hne : el.1 ≠ c := fun heq => hel (by simpa [heq] using hc)
      rw [if_neg hne, ih]

/-- A list makes the same rows without some columns if it makes as many. -/
theorem listsAlike_filter [DecidablePred p] {X : Finset CColRef} (hX : ∀ c ∈ X, ¬p c)
    {els : List (CColRef × List (Datum D))} (hrounds : rounds (els.filter (·.1 ∉ X)) = rounds els) :
    ListsAlike p els (els.filter (·.1 ∉ X)) := by
  intro row row' hrow
  rw [SameKept, Query.projectRow, Query.projectRow]
  change List.map _ (List.map _ (List.range (rounds els))) =
    List.map _ (List.map _ (List.range (rounds (els.filter (·.1 ∉ X)))))
  rw [hrounds, List.map_map, List.map_map]
  refine List.map_congr_left fun k _ => keep_eq_iff.2 fun c hc => ?_
  have hagree := keep_eq_iff.1 (keep_assign_congr (els.map (·.1))
    (els.map fun el => el.2.getD (k % el.2.length) ⊥) hrow) c hc
  exact hagree.trans (assign_filter X els _ row' fun hmem => hX c hmem hc).symm

variable [LinearOrder D]

theorem elements_projectElement (x : CColRef × Query D (GroupingOp K W Op))
    (env : Env D (RowGroup D W)) :
    (Query.eval S.semantics (projectElement x) env).elements? =
      (values? (Query.eval S.semantics x.2 env)).map fun vs => [(x.1, vs)] := by
  rw [projectElement, Query.eval_node, List.map_cons, List.map_nil, QuerySemantics.op]
  cases Query.eval S.semantics x.2 env <;> rfl

theorem elements_projectList (xs : List (CColRef × Query D (GroupingOp K W Op)))
    (env : Env D (RowGroup D W)) :
    (Query.eval S.semantics (.node .scalarProjectList (xs.map projectElement)) env).elements? =
      xs.mapM fun x => (values? (Query.eval S.semantics x.2 env)).map fun vs => (x.1, vs) := by
  rw [Query.eval_node, QuerySemantics.op, Result.elements?_ofOption]
  induction xs with
  | nil => rfl
  | cons x xs ih =>
    rw [List.map_cons, List.map_cons, List.mapM_cons, List.mapM_cons, elements_projectElement, ← ih]
    cases values? (Query.eval S.semantics x.2 env) with
    | none => rfl
    | some vs =>
      generalize List.mapM (m := Option) _ (List.map _ (List.map _ xs)) = rest
      cases rest <;> rfl

/-- The elements `X` of the list change no number of rows. -/
def KeepsRounds (list : Query D (GroupingOp K W Op)) (X : Finset CColRef) : Prop :=
  ∀ env els, (Query.eval S.semantics list env).elements? = some els →
    rounds (els.filter (·.1 ∉ X)) = rounds els

theorem preservesList_remaining [DecidablePred p] {X : Finset CColRef}
    {xs : List (CColRef × Query D (GroupingOp K W Op))} (hX : ∀ c ∈ X, ¬p c)
    (hxs : ∀ x ∈ xs, x.1 ∉ X → ∀ c ∈ S.mentioned x.2, p c)
    (hrounds : S.KeepsRounds (.node .scalarProjectList (xs.map projectElement)) X) :
    PreservesList p S.cols.PcrsUsedByFrame
      (Query.eval S.semantics (.node .scalarProjectList (xs.map projectElement)))
      (Query.eval S.semantics
        (.node .scalarProjectList ((xs.filter (·.1 ∉ X)).map projectElement))) := by
  intro env env' henv els hels
  refine ⟨els.filter (·.1 ∉ X), ?_, listsAlike_filter hX (hrounds env els hels)⟩
  rw [elements_projectList] at hels ⊢
  refine mapM_filter_eq_some hels (fun x _ el hel => ?_) fun x hx hxX el hel => ?_
  · obtain ⟨vs, -, rfl⟩ := Option.map_eq_some_iff.1 hel
    rfl
  · obtain ⟨vs, hvs, rfl⟩ := Option.map_eq_some_iff.1 hel
    have hkept := S.eval_preserves (hxs x hx (by simpa using hxX)) env env' henv
    obtain ⟨_, hvs', rfl⟩ := refines_values? hkept vs hvs
    rw [hvs', Option.map_some]

theorem project_eq_relation (child list : Env D (RowGroup D W) → Result D)
    (env : Env D (RowGroup D W)) :
    S.semantics.op .logicalProject [child, list] env = .failure ∨
      ∃ rows, S.semantics.op .logicalProject [child, list] env = .relation rows := by
  rw [op_logicalProject]
  cases (child env).rows? with
  | none => exact .inl rfl
  | some rows =>
    rw [Option.bind_some]
    cases GroupingSemantics.projectEach list (rows.map fun row => { env with row := row }) with
    | none => exact .inl rfl
    | some projected => exact .inr ⟨projected, rfl⟩

/-- A projection without elements. -/
theorem preserves_of_projectNothing [DecidablePred p]
    {child child' list list' : Env D (RowGroup D W) → Result D}
    (h : S.Kept p (S.semantics.op .logicalProject [child, list])
      (S.semantics.op .logicalProject [child', list']))
    (hlist : ∀ env, (list' env).elements? = some []) :
    S.Kept p (S.semantics.op .logicalProject [child, list]) child' := by
  intro env env' henv
  have hrows : (S.semantics.op .logicalProject [child', list'] env').rows? =
      (child' env').rows? := by
    rw [op_logicalProject, Result.rows?_ofOption]
    have heach : ∀ rows : List (Row D), GroupingSemantics.projectEach list'
        (rows.map fun row => { env' with row := row }) = some rows := by
      intro rows
      rw [GroupingSemantics.projectEach, mapM_eq_map (g := fun env => [env.row])]
      · simp [Function.comp_def, ← List.flatMap_def]
      · intro e _
        rw [hlist e]
        rfl
    cases (child' env').rows? with
    | none => rfl
    | some rows => simp [heach]
  obtain hfail | ⟨rows, hres⟩ := project_eq_relation S child list env
  · exact .inl hfail
  · have hrefines := (h env env' henv).rows?
    rw [hres, hrows] at hrefines
    obtain ⟨rows', hrows', hsame⟩ := hrefines rows rfl
    rw [hres, Result.rows?_eq_some.1 hrows']
    exact .relation hsame

/-! ## Rows -/

/-- The columns outside `p` are those that go, as far as the expression knows them. -/
structure Hides (p : CColRef → Prop) (pexpr : Query D (GroupingOp K W Op)) (r : Finset CColRef) :
    Prop where
  dropped : ∀ c, S.Dropped pexpr r c → ¬p c
  mentioned : ∀ c ∈ S.mentioned pexpr, ¬p c → S.Dropped pexpr r c

/-- The project lists make as many rows without the elements that go. -/
def UnusedKeepRounds (pexpr : Query D (GroupingOp K W Op)) (r : Finset CColRef) : Prop :=
  ∀ list X, S.Loses pexpr r list X → S.KeepsRounds list X

section Step

variable {p : CColRef → Prop} (hscoped : S.Scoped (.node pop l))
  (hhides : S.Hides p (.node pop l) r)

omit [LinearOrder D] in
theorem descents_of_none (hsub : Query.FSubquery pop = false) (hat : S.prunedAt pop l r = none) :
    S.descents pop l r = S.visits l (S.pcrsReqdOfChildren pop l r) := by
  rw [descents, if_neg (by simp [hsub]), hat]

omit [LinearOrder D] in
theorem descents_of_some (hat : S.prunedAt pop l r = some (rel, list)) :
    S.descents pop l r = [(rel, S.pcrsReqdOfRelational pop rel list r)] := by
  have hpop := (S.prunedAt_eq_some_iff.1 hat).1
  have hsub := S.fSubquery_of_fLogical (S.fLogical_of_fProjectOrGbAgg hpop)
  rw [descents, if_neg (by simp [hsub]), hat]

include hscoped hhides

omit [LinearOrder D] in
/-- What goes below one child is not read by another one. -/
theorem hides_visit (hpop : S.popFLogical pop = true) (hat : S.prunedAt pop l r = none)
    {v : Query D (GroupingOp K W Op) × Finset CColRef}
    (hv : v ∈ S.visits l (S.pcrsReqdOfChildren pop l r)) : S.Hides p v.1 v.2 := by
  have hdescents := S.descents_of_none (S.fSubquery_of_fLogical hpop) hat
  refine ⟨fun c hc => hhides.dropped c (.child S (hdescents ▸ hv) hc), fun c hc hpc => ?_⟩
  have hmem := (S.mem_visits hv).1
  obtain ⟨_, _, hat', -, -⟩ | ⟨w, hw, hdropped⟩ :=
    S.dropped_node (hhides.mentioned c (S.mentioned_child hmem hc) hpc)
  · rw [hat] at hat'
    cases hat'
  rw [hdescents] at hw
  by_cases hvw : w = v
  · exact hvw ▸ hdropped
  have hpair : (S.visits l (S.pcrsReqdOfChildren pop l r)).Pairwise
      fun v w => S.ReadOutside v.1 w.1 ∧ S.ReadOutside w.1 v.1 := by
    have hapart := hscoped.at.apart hpop
    rwa [← S.map_fst_visits l (S.pcrsReqdOfChildren pop l r), List.pairwise_map] at hapart
  have : Std.Symm fun v w : Query D (GroupingOp K W Op) × Finset CColRef =>
      S.ReadOutside v.1 w.1 ∧ S.ReadOutside w.1 v.1 := ⟨fun _ _ h => h.symm⟩
  have hread := (hpair.forall hw hv hvw).1
  have hmemw := S.mem_visits hw
  have hused := hread c (hdropped.computed S (hscoped.child hmemw.1)) hc
  exact absurd (hmemw.2 (S.used_subset_pcrsReqdOfChildren hpop (S.used_child hmem hused)))
    (hdropped.notMem S)

omit [LinearOrder D] in
theorem mentions_kept (hpop : S.popFLogical pop = true) (hat : S.prunedAt pop l r = none) :
    ∀ c ∈ pop.mentions (GroupingOp.mentions S.cols S.mentions), p c := by
  intro c hc
  by_contra hpc
  have hmentioned : c ∈ S.mentioned (.node pop l) := by
    rw [mentioned_node]
    exact List.mem_append_left _ hc
  obtain ⟨_, _, hat', -, -⟩ | ⟨w, hw, hdropped⟩ := S.dropped_node (hhides.mentioned c hmentioned hpc)
  · rw [hat] at hat'
    cases hat'
  rw [S.descents_of_none (S.fSubquery_of_fLogical hpop) hat] at hw
  have hmem := S.mem_visits hw
  have hlocal := hscoped.at.own hpop w.1 hmem.1 c (hdropped.computed S (hscoped.child hmem.1)) hc
  exact hdropped.notMem S
    (hmem.2 (S.used_subset_pcrsReqdOfChildren hpop (List.mem_append_left _ hlocal)))

end Step

omit [LinearOrder D] in
theorem hides_relational (hscoped : S.Scoped (.node pop l)) (hhides : S.Hides p (.node pop l) r)
    (hat : S.prunedAt pop l r = some (rel, list)) :
    S.Hides p rel (S.pcrsReqdOfRelational pop rel list r) := by
  have hdescents := S.descents_of_some hat
  obtain ⟨hpop, rfl, -⟩ := S.prunedAt_eq_some_iff.1 hat
  obtain ⟨_, xs, ⟨⟩, -, hbelow, -⟩ := hscoped.at.list hpop
  have hself : ∀ {c}, S.Dropped rel (S.pcrsReqdOfRelational pop rel _ r) c →
      S.Dropped (.node pop [rel, _]) r c := fun hc =>
    Dropped.child S (v := (rel, _)) (hdescents ▸ List.mem_singleton_self _) hc
  refine ⟨fun c hc => hhides.dropped c (hself hc), fun c hc hpc => ?_⟩
  obtain ⟨_, _, hat', -, hunused⟩ | ⟨v, hv, hdropped⟩ :=
    S.dropped_node (hhides.mentioned c (S.mentioned_child (by simp) hc) hpc)
  · obtain ⟨ys, hys, y, hy, rfl⟩ := S.mem_unused hscoped.at hat' hunused
    obtain ⟨-, heq, -⟩ := S.prunedAt_eq_some_iff.1 hat'
    cases heq
    simp only [CExpression.node.injEq, true_and] at hys
    obtain rfl := List.map_injective_iff.2 projectElement_injective hys
    exact absurd hc (hbelow y hy)
  · rw [hdescents] at hv
    obtain rfl := List.mem_singleton.1 hv
    exact hdropped

omit [LinearOrder D] in
/-- What an element that stays reads is computed below. -/
theorem element_kept (hscoped : S.Scoped (.node pop l)) (hhides : S.Hides p (.node pop l) r)
    {xs : List (CColRef × Query D (GroupingOp K W Op))}
    (hat : S.prunedAt pop l r = some (rel, .node .scalarProjectList (xs.map projectElement)))
    {x : CColRef × Query D (GroupingOp K W Op)} (hx : x ∈ xs) (hused : ∀ c ∈ (S.columns x.2).used,
      c ∈ S.pcrsReqdOfRelational pop rel (.node .scalarProjectList (xs.map projectElement)) r) :
    ∀ c ∈ S.mentioned x.2, p c := by
  intro c hc
  by_contra hpc
  have hdescents := S.descents_of_some hat
  obtain ⟨hpop, rfl, -⟩ := S.prunedAt_eq_some_iff.1 hat
  obtain ⟨rel', ys, hl, -, -, hxs⟩ := hscoped.at.list hpop
  simp only [List.cons.injEq, CExpression.node.injEq, true_and, and_true] at hl
  obtain ⟨rfl, hys⟩ := hl
  obtain rfl := List.map_injective_iff.2 projectElement_injective hys
  obtain ⟨-, hread, hlist⟩ := hxs x hx
  have hmentioned : c ∈ S.mentioned
      (.node pop [rel, .node .scalarProjectList (xs.map projectElement)]) := by
    refine S.mentioned_child (e := .node .scalarProjectList (xs.map projectElement)) (by simp) ?_
    refine S.mentioned_child (List.mem_map_of_mem hx) ?_
    exact S.mentioned_child (by simp) hc
  obtain ⟨_, _, hat', -, hunused⟩ | ⟨v, hv, hdropped⟩ :=
    S.dropped_node (hhides.mentioned c hmentioned hpc)
  · obtain ⟨zs, hzs, z, hz, rfl⟩ := S.mem_unused hscoped.at hat' hunused
    obtain ⟨-, heq, -⟩ := S.prunedAt_eq_some_iff.1 hat'
    cases heq
    simp only [CExpression.node.injEq, true_and] at hzs
    obtain rfl := List.map_injective_iff.2 projectElement_injective hzs
    exact hlist z hz hc
  · rw [hdescents] at hv
    obtain rfl := List.mem_singleton.1 hv
    have hcomputed := hdropped.computed S (hscoped.child (by simp))
    exact hdropped.notMem S (hused c (hread c hcomputed hc))

/-- The rows of the child of a project list that loses elements. -/
theorem preserves_prunedList [DecidablePred p] (hpop : FProjectOrGbAgg pop = true)
    (hlocal : ∀ c ∈ S.popLocalUsed pop, p c)
    {child child' list list' : Env D (RowGroup D W) → Result D} (hchild : S.Kept p child child')
    (hlist : PreservesList p S.cols.PcrsUsedByFrame list list') :
    S.Kept p (S.semantics.op pop [child, list]) (S.semantics.op pop [child', list']) := by
  cases pop with
  | logicalProject => exact S.logicalProject_preserves hchild hlist S.semantics
  | other pop =>
    cases pop with
    | logicalGbAgg popAgg => exact S.logicalGbAgg_preserves hlocal hchild hlist
    | _ => cases hpop
  | _ => cases hpop

omit [LinearOrder D] in
/-- The columns of an aggregate stay. -/
theorem local_kept (hhides : S.Hides p (.node pop l) r)
    (hat : S.prunedAt pop l r = some (rel, list)) : ∀ c ∈ S.popLocalUsed pop, p c := by
  intro c hc
  by_contra hpc
  have hpop := (S.prunedAt_eq_some_iff.1 hat).1
  have hmentions : c ∈ pop.mentions (GroupingOp.mentions S.cols S.mentions) := by
    cases pop with
    | logicalProject => cases hc
    | other pop =>
      cases pop with
      | logicalGbAgg popAgg => exact hc
      | _ => cases hpop
    | _ => cases hpop
  have hreqd : ∀ list, c ∈ S.pcrsReqdByList pop list r := fun list =>
    Finset.mem_union_left _ (Finset.mem_union_right _ (List.mem_toFinset.2 hc))
  have hmentioned : c ∈ S.mentioned (.node pop l) := by
    rw [mentioned_node]
    exact List.mem_append_left _ hmentions
  obtain ⟨_, _, -, -, hunused⟩ | ⟨v, hv, hdropped⟩ :=
    S.dropped_node (hhides.mentioned c hmentioned hpc)
  · exact (Finset.mem_sdiff.1 hunused).2 (hreqd _)
  · rw [S.descents_of_some hat] at hv
    obtain rfl := List.mem_singleton.1 hv
    exact hdropped.notMem S (S.pcrsReqdByList_subset (hreqd list))

theorem eval_pair (pop : QueryOp D (GroupingOp K W Op)) (e e' : Query D (GroupingOp K W Op)) :
    Query.eval S.semantics (.node pop [e, e']) =
      S.semantics.op pop [Query.eval S.semantics e, Query.eval S.semantics e'] :=
  Query.eval_node ..

/-- **The pass keeps the rows on the columns that stay.** -/
theorem prune_preserves [DecidablePred p] (hscoped : S.Scoped pexpr)
    (hrounds : S.UnusedKeepRounds pexpr r) (hhides : S.Hides p pexpr r) :
    S.Kept p (Query.eval S.semantics pexpr) (Query.eval S.semantics (S.pruned (pexpr, r))) := by
  induction pexpr using CExpression.induction generalizing r with
  | node pop l ih =>
    rcases hpop : S.popFLogical pop with _ | _
    · -- A scalar is left as it is, and knows none of the columns that go.
      obtain ⟨hprune, hnone⟩ := S.prune_scalar hscoped hpop r
      rw [pruned, hprune]
      exact S.eval_preserves fun c hc => not_not.1 fun hpc => hnone c (hhides.mentioned c hc hpc)
    have hsub := S.fSubquery_of_fLogical hpop
    rcases hat : S.prunedAt pop l r with _ | ⟨rel, list⟩
    · rw [pruned, S.prune_of_prunedAt_none hsub hat, Query.eval_node, Query.eval_node]
      refine S.op_preserves (S.mentions_kept hscoped hhides hpop hat) ?_
      conv_lhs => rw [← S.map_fst_visits l (S.pcrsReqdOfChildren pop l r)]
      rw [List.map_map, List.map_map, List.forall₂_map_left_iff, List.forall₂_map_right_iff,
        List.forall₂_same]
      intro v hv
      refine ih v.1 (S.mem_visits hv).1 (hscoped.child (S.mem_visits hv).1) ?_
        (S.hides_visit hscoped hhides hpop hat hv)
      exact fun list X hX => hrounds list X (.child (S.descents_of_none hsub hat ▸ hv) hX)
    · obtain ⟨hproject, hl, -⟩ := S.prunedAt_eq_some_iff.1 hat
      obtain ⟨_, xs, hl', -, -, hxs⟩ := hscoped.at.list hproject
      obtain ⟨rfl, rfl⟩ : rel = _ ∧ list = _ := by simpa using hl.symm.trans hl'
      subst hl
      have hrel : S.Kept p (Query.eval S.semantics rel) (Query.eval S.semantics
          (S.pruned (rel, S.pcrsReqdOfRelational pop rel
            (.node .scalarProjectList (xs.map projectElement)) r))) := by
        refine ih rel (by simp) (hscoped.child (by simp)) (fun list X hX => hrounds list X ?_)
          (S.hides_relational hscoped hhides hat)
        exact .child (S.descents_of_some hat ▸ List.mem_singleton_self _) hX
      have hlocal := S.local_kept hhides hat
      rw [pruned, S.prune_of_prunedAt_some hat, PexprPruneProjListProjectOrGbAgg.eq_def,
        eval_pair]
      obtain ⟨hnew, hused⟩ | ⟨hne, hused, hnew⟩ :=
        S.pexprProjectListNew_cases (fun x hx => (hxs x hx).1) rfl hat
      · -- All elements stay.
        have hlist := S.preservesList_remaining (p := p) (X := ∅) (by simp)
          (fun x hx _ => S.element_kept hscoped hhides hat hx
            fun c hc => hused c (S.used_projectList hx hc)) fun _ _ _ => by simp
        simp only [Finset.notMem_empty, not_false_eq_true, decide_true, List.filter_true] at hlist
        rw [hnew]
        exact eval_pair S pop _ _ ▸ S.preserves_prunedList hproject hlocal hrel hlist
      · have hlist := S.preservesList_remaining (p := p)
          (fun c hc => hhides.dropped c ⟨_, _, .here hat hne, hc⟩)
          (fun x hx hxX => S.element_kept hscoped hhides hat hx fun c hc => hused c
            (S.used_projectList (List.mem_filter.2 ⟨hx, by simpa using hxX⟩) hc))
          (hrounds _ _ (.here hat hne))
        have hkept := S.preserves_prunedList hproject hlocal hrel hlist
        obtain hnew | ⟨hnew, rfl, hnil⟩ := hnew
        · rw [hnew]
          exact eval_pair S pop _ _ ▸ hkept
        · rw [hnew]
          refine S.preserves_of_projectNothing hkept fun env => ?_
          rw [hnil]
          rfl

/-! ## Columns -/

section Columns

open DerivedColumns

variable {X : CColRef → Prop} {ds ds' : List DerivedColumns}

omit [LinearOrder D] in
theorem mem_flatMap_of_keeps {f : DerivedColumns → List CColRef}
    (h : List.Forall₂ (Keeps X) ds ds') (hf : ∀ d d', Keeps X d d' → ∀ c ∈ f d, ¬X c → c ∈ f d')
    (hc : c ∈ ds.flatMap f) (hX : ¬X c) : c ∈ ds'.flatMap f := by
  obtain ⟨d, hd, hc⟩ := List.mem_flatMap.1 hc
  obtain ⟨d', hd', hkeeps⟩ := exists_of_forall₂_left h hd
  exact List.mem_flatMap.2 ⟨d', hd', hf d d' hkeeps c hc hX⟩

omit [LinearOrder D] in
/-- A relation offers what its children offer. -/
theorem keeps_op (hpop : S.popFLogical pop = true) (h : List.Forall₂ (Keeps X) ds ds') :
    Keeps X (pop.columns (GroupingOp.columns S.cols) ds)
      (pop.columns (GroupingOp.columns S.cols) ds') := by
  have houtput : ∀ {c}, c ∈ ds.flatMap (·.output) → ¬X c → c ∈ ds'.flatMap (·.output) :=
    mem_flatMap_of_keeps h fun _ _ hd => hd.output
  have hdefined : ∀ {c}, c ∈ ds.flatMap (·.defined) → ¬X c → c ∈ ds'.flatMap (·.defined) :=
    mem_flatMap_of_keeps h fun _ _ hd => hd.defined
  have hlist : ∀ {c}, c ∈ (ds.drop 1).flatMap (·.defined) → ¬X c →
      c ∈ (ds'.drop 1).flatMap (·.defined) :=
    mem_flatMap_of_keeps (List.forall₂_drop 1 h) fun _ _ hd => hd.defined
  cases pop with
  | logicalProject =>
    refine ⟨fun c hc hX => ?_, nofun, nofun⟩
    exact List.mem_append.2 ((List.mem_append.1 hc).imp (houtput · hX) (hdefined · hX))
  | logicalConstTableGet out data => exact ⟨fun c hc _ => hc, nofun, nofun⟩
  | other pop =>
    cases pop with
    | logicalLimit popLimit => exact ⟨fun c hc hX => houtput hc hX, nofun, nofun⟩
    | logicalGbAgg popAgg =>
      refine ⟨fun c hc hX => ?_, nofun, nofun⟩
      refine List.mem_append.2 ((List.mem_append.1 hc).imp (fun hgroup => ?_) (hlist · hX))
      obtain ⟨hmem, hout⟩ := List.mem_filter.1 hgroup
      exact List.mem_filter.2 ⟨hmem, decide_eq_true (houtput (of_decide_eq_true hout) hX)⟩
    | logicalSequenceProject pop =>
      refine ⟨fun c hc hX => ?_, nofun, nofun⟩
      exact List.mem_append.2 ((List.mem_append.1 hc).imp (houtput · hX) (hlist · hX))
    | other pop =>
      obtain ⟨hused, -⟩ := S.relational pop ds' hpop
      obtain ⟨-, hdef⟩ := S.relational pop ds hpop
      refine ⟨S.keeps X pop ds ds' hpop h, fun c hc => ?_, fun c hc => ?_⟩
      · rw [QueryOp.columns, GroupingOp.columns, hused] at hc
        cases hc
      · rw [QueryOp.columns, GroupingOp.columns, hdef] at hc
        cases hc
  | _ => cases hpop

omit [LinearOrder D] in
theorem relational_columns (h : S.popFLogical pexpr.Pop = true) :
    (S.columns pexpr).used = [] ∧ (S.columns pexpr).defined = [] := by
  obtain ⟨pop, l⟩ := pexpr
  change S.popFLogical pop = true at h
  rw [columns_node]
  cases pop with
  | logicalProject => exact ⟨rfl, rfl⟩
  | logicalConstTableGet out data => exact ⟨rfl, rfl⟩
  | other pop =>
    cases pop with
    | other pop => exact S.relational pop _ h
    | _ => exact ⟨rfl, rfl⟩
  | _ => cases h

omit [LinearOrder D] in
/-- A relation stays a relation. -/
theorem fLogical_pruned (hscoped : S.Scoped pexpr) (h : S.popFLogical pexpr.Pop = true)
    (r : Finset CColRef) : S.popFLogical (S.pruned (pexpr, r)).Pop = true := by
  induction pexpr using CExpression.induction generalizing r with
  | node pop l ih =>
    change S.popFLogical pop = true at h
    rcases hat : S.prunedAt pop l r with _ | ⟨rel, list⟩
    · rw [pruned, S.prune_of_prunedAt_none (S.fSubquery_of_fLogical h) hat]
      exact h
    · rw [pruned, S.prune_of_prunedAt_some hat, PexprPruneProjListProjectOrGbAgg.eq_def]
      obtain ⟨hproject, hl, -⟩ := S.prunedAt_eq_some_iff.1 hat
      obtain ⟨_, xs, hl', hlogical, -, -⟩ := hscoped.at.list hproject
      obtain ⟨rfl, rfl⟩ : rel = _ ∧ list = _ := by simpa using hl.symm.trans hl'
      subst hl
      split
      · exact h
      · exact ih rel (by simp) (hscoped.child (by simp)) hlogical _

omit [LinearOrder D] in
theorem keeps_refl (d : DerivedColumns) : Keeps X d d :=
  ⟨fun _ hc _ => hc, fun _ hc => hc, fun _ hc _ => hc⟩

omit [LinearOrder D] in
theorem keeps_mono {X' : CColRef → Prop} (hX : ∀ c, X c → X' c) {d d' : DerivedColumns}
    (h : Keeps X d d') : Keeps X' d d' :=
  ⟨fun c hc hX' => h.output c hc fun hXc => hX' (hX c hXc), h.used,
    fun c hc hX' => h.defined c hc fun hXc => hX' (hX c hXc)⟩

omit [LinearOrder D] in
/-- A project list without the elements of some columns. -/
theorem keeps_remaining {xs : List (CColRef × Query D (GroupingOp K W Op))}
    (hxs : ∀ x ∈ xs, (S.columns x.2).defined = []) {Y : Finset CColRef} (hY : ∀ c ∈ Y, X c) :
    Keeps X (S.columns (.node .scalarProjectList (xs.map projectElement)))
      (S.columns (.node .scalarProjectList ((xs.filter (·.1 ∉ Y)).map projectElement))) := by
  refine ⟨fun c hc _ => ?_, fun c hc => ?_, fun c hc hX => ?_⟩
  · rw [columns_node] at hc
    cases hc
  · obtain ⟨e, he, hc⟩ := List.mem_flatMap.1 (S.mem_used_of_projectList hc)
    obtain ⟨x, hx, rfl⟩ := List.mem_map.1 he
    rw [columns_node]
    refine List.mem_append_right _ (List.mem_flatMap.2 ⟨S.columns (projectElement x), ?_,
      List.mem_append_left _ hc⟩)
    exact List.mem_map_of_mem (List.mem_map_of_mem (List.mem_filter.1 hx).1)
  · have hc : c ∈ S.DeriveDefinedColumns (.node .scalarProjectList (xs.map projectElement)) := hc
    rw [S.defined_projectList hxs] at hc
    obtain ⟨x, hx, rfl⟩ := List.mem_map.1 hc
    change x.1 ∈ S.DeriveDefinedColumns _
    rw [S.defined_projectList fun x hx => hxs x (List.mem_filter.1 hx).1]
    exact List.mem_map_of_mem (List.mem_filter.2 ⟨hx, by simpa using fun hmem => hX (hY _ hmem)⟩)

omit [LinearOrder D] in
/-- What a walk into the children leaves of their columns. -/
theorem keeps_visits (hscoped : S.Scoped (.node pop l)) (hpop : S.popFLogical pop = true)
    (hat : S.prunedAt pop l r = none)
    (ih : ∀ e ∈ l, ∀ r, S.Scoped e → Keeps (S.Dropped e r) (S.columns e)
      (S.columns (S.pruned (e, r)))) :
    List.Forall₂ (Keeps (S.Dropped (.node pop l) r)) (l.map S.columns)
      (((S.visits l (S.pcrsReqdOfChildren pop l r)).map S.pruned).map S.columns) := by
  conv_lhs => rw [← S.map_fst_visits l (S.pcrsReqdOfChildren pop l r)]
  rw [List.map_map, List.map_map, List.forall₂_map_left_iff, List.forall₂_map_right_iff,
    List.forall₂_same]
  intro v hv
  have hmem := (S.mem_visits hv).1
  refine keeps_mono (fun c hc => ?_) (ih v.1 hmem v.2 (hscoped.child hmem))
  exact .child S (S.descents_of_none (S.fSubquery_of_fLogical hpop) hat ▸ hv) hc

omit [LinearOrder D] in
/-- **The pass takes no other columns than the ones it drops.** -/
theorem keeps_prune (hscoped : S.Scoped pexpr) :
    Keeps (S.Dropped pexpr r) (S.columns pexpr) (S.columns (S.pruned (pexpr, r))) := by
  induction pexpr using CExpression.induction generalizing r with
  | node pop l ih =>
    rcases hpop : S.popFLogical pop with _ | _
    · obtain ⟨hprune, -⟩ := S.prune_scalar hscoped hpop r
      rw [pruned, hprune]
      exact keeps_refl _
    have hsub := S.fSubquery_of_fLogical hpop
    rcases hat : S.prunedAt pop l r with _ | ⟨rel, list⟩
    · rw [pruned, S.prune_of_prunedAt_none hsub hat, columns_node, columns_node]
      exact S.keeps_op hpop
        (S.keeps_visits hscoped hpop hat fun e he r hscoped => ih e he hscoped)
    · obtain ⟨hproject, hl, -⟩ := S.prunedAt_eq_some_iff.1 hat
      obtain ⟨_, xs, hl', hlogical, -, hxs⟩ := hscoped.at.list hproject
      obtain ⟨rfl, rfl⟩ : rel = _ ∧ list = _ := by simpa using hl.symm.trans hl'
      subst hl
      have hrel := keeps_mono (fun c hc => Dropped.child S
        (S.descents_of_some hat ▸ List.mem_singleton_self _) hc)
        (ih rel (by simp) (r := S.pcrsReqdOfRelational pop rel _ r) (hscoped.child (by simp)))
      have hdefined : ∀ x ∈ xs, (S.columns x.2).defined = [] := fun x hx => (hxs x hx).1
      rw [pruned, S.prune_of_prunedAt_some hat, PexprPruneProjListProjectOrGbAgg.eq_def]
      obtain ⟨hnew, -⟩ | ⟨hne, -, hnew⟩ := S.pexprProjectListNew_cases hdefined rfl hat
      · rw [hnew, columns_node, columns_node]
        exact S.keeps_op hpop (.cons hrel (.cons (keeps_refl _) .nil))
      · have hdropped : ∀ c ∈ S.pcrsUnusedLocal pop (.node .scalarProjectList
            (xs.map projectElement)) r, S.Dropped (.node pop [rel, .node .scalarProjectList
            (xs.map projectElement)]) r c := fun c hc => ⟨_, _, .here hat hne, hc⟩
        have hlist := S.keeps_remaining hdefined hdropped
        have hop := S.keeps_op hpop (.cons hrel (.cons hlist .nil))
        obtain hnew | ⟨hnew, rfl, hnil⟩ := hnew
        · rw [hnew, columns_node, columns_node]
          exact hop
        · rw [hnew, columns_node]
          have hrelational := S.relational_columns (S.fLogical_pruned
            (hscoped.child List.mem_cons_self) hlogical (S.pcrsReqdOfRelational .logicalProject
              rel (.node .scalarProjectList (xs.map projectElement)) r))
          refine ⟨fun c hc hX => ?_, fun c hc => ?_, nofun⟩
          · have hout := hop.output c hc hX
            rw [hnil, columns_node] at hout
            simpa [QueryOp.columns, DerivedColumns.scalar, hrelational.2] using hout
          · rw [hrelational.1] at hc
            cases hc

end Columns

/-- Every column that an operator uses with the new children is one that it uses with the old ones,
    and is produced below it if it was. -/
def UsesProduced (pop : QueryOp D (GroupingOp K W Op)) (l l' : List (Query D (GroupingOp K W Op))) :
    Prop :=
  ∀ c ∈ S.PcrsUsedColumns pop l', c ∈ S.PcrsUsedColumns pop l ∧
    (c ∈ l.flatMap (Query.DeriveOutputColumns (GroupingOp.columns S.cols)) →
      c ∈ l'.flatMap (Query.DeriveOutputColumns (GroupingOp.columns S.cols)))

/-- Every relation of the new query stands for one of the old query with the same operator, and the
    columns that it uses are still produced below it. -/
def StillProduced (pexpr pexpr' : Query D (GroupingOp K W Op)) : Prop :=
  ∀ pop l', CExpression.SubexpressionOf (.node pop l') pexpr' → S.popFLogical pop = true →
    ∃ l, CExpression.SubexpressionOf (.node pop l) pexpr ∧ S.UsesProduced pop l l'

omit [LinearOrder D] in
theorem StillProduced.refl (pexpr : Query D (GroupingOp K W Op)) :
    S.StillProduced pexpr pexpr :=
  fun _ l hs _ => ⟨l, hs, fun _ hc => ⟨hc, id⟩⟩

omit [LinearOrder D] in
/-- What a relation uses is required of its children. -/
theorem stillProduced_visits (hscoped : S.Scoped (.node pop l)) (hpop : S.popFLogical pop = true)
    (hat : S.prunedAt pop l r = none) :
    S.UsesProduced pop l ((S.visits l (S.pcrsReqdOfChildren pop l r)).map S.pruned) := by
  intro c hc
  have hkeeps := S.keeps_visits hscoped hpop hat fun e he r hscoped => S.keeps_prune hscoped
  have hused : c ∈ S.PcrsUsedColumns pop l := by
    refine List.mem_append.2 ((List.mem_append.1 hc).imp_right fun hc => ?_)
    obtain ⟨e', he', hc⟩ := List.mem_flatMap.1 hc
    obtain ⟨d, hd, hdkeeps⟩ := exists_of_forall₂_right hkeeps (List.mem_map_of_mem he')
    obtain ⟨e, he, rfl⟩ := List.mem_map.1 hd
    exact List.mem_flatMap.2 ⟨e, he, hdkeeps.used c hc⟩
  refine ⟨hused, fun hout => ?_⟩
  obtain ⟨e, he, hout⟩ := List.mem_flatMap.1 hout
  rw [← S.map_fst_visits l (S.pcrsReqdOfChildren pop l r)] at he
  obtain ⟨v, hv, rfl⟩ := List.mem_map.1 he
  obtain ⟨hmem, hsub⟩ := S.mem_visits hv
  refine List.mem_flatMap.2 ⟨S.pruned v, List.mem_map_of_mem hv, ?_⟩
  refine (S.keeps_prune (hscoped.child hmem) (r := v.2)).output c hout fun hdropped => ?_
  exact hdropped.notMem S (hsub (S.used_subset_pcrsReqdOfChildren hpop hused))

omit [LinearOrder D] in
/-- What a project list uses is required of its relational child. -/
theorem stillProduced_list (hscoped : S.Scoped rel) (hlogical : S.popFLogical rel.Pop = true)
    {list list' : Query D (GroupingOp K W Op)}
    (hused : ∀ c ∈ (S.columns list').used, c ∈ (S.columns list).used)
    (houtput : (S.columns list).output = [])
    (hreqd : ∀ c ∈ S.PcrsUsedColumns pop [rel, list'], c ∈ r) :
    S.UsesProduced pop [rel, list] [S.pruned (rel, r), list'] := by
  intro c hc
  have hrelational := S.relational_columns (S.fLogical_pruned hscoped hlogical r)
  simp only [PcrsUsedColumns, List.flatMap_cons, List.flatMap_nil, List.append_nil,
    hrelational.1, (S.relational_columns hlogical).1, List.nil_append, List.mem_append] at hc hreqd ⊢
  refine ⟨hc.imp_right (hused c), fun hout => .inl ?_⟩
  have hrel : c ∈ (S.columns rel).output :=
    hout.resolve_right fun h => List.not_mem_nil (houtput.subst (motive := (c ∈ ·)) h)
  exact (S.keeps_prune hscoped).output c hrel fun hdropped => hdropped.notMem S (hreqd c hc)

omit [LinearOrder D] in
theorem subexpressionOf_remaining {xs : List (CColRef × Query D (GroupingOp K W Op))}
    {q : CColRef × Query D (GroupingOp K W Op) → Bool} {s : Query D (GroupingOp K W Op)}
    (hs : CExpression.SubexpressionOf s
      (.node .scalarProjectList ((xs.filter q).map projectElement)))
    (hlogical : S.popFLogical s.Pop = true) :
    CExpression.SubexpressionOf s (.node .scalarProjectList (xs.map projectElement)) := by
  cases hs with
  | refl => cases hlogical
  | child he hs =>
    obtain ⟨x, hx, rfl⟩ := List.mem_map.1 he
    exact .child (List.mem_map_of_mem (List.mem_filter.1 hx).1) hs

omit [LinearOrder D] in
/-- The operator of a project list that stays, with the elements that stay. -/
theorem stillProduced_node {list list' : Query D (GroupingOp K W Op)}
    (hscoped : S.Scoped (.node pop [rel, list])) (hlogical : S.popFLogical rel.Pop = true)
    (ih : ∀ {r}, S.Scoped rel → S.StillProduced rel (S.pruned (rel, r)))
    (hat : S.prunedAt pop [rel, list] r = some (rel, list))
    (hsub : ∀ c ∈ (S.columns list').used, c ∈ (S.columns list).used)
    (hused : ∀ c ∈ (S.columns list').used, c ∈ S.pcrsReqdOfRelational pop rel list r)
    (hlist : ∀ s, CExpression.SubexpressionOf s list' → S.popFLogical s.Pop = true →
      CExpression.SubexpressionOf s list)
    {pop' : QueryOp D (GroupingOp K W Op)} {l' : List (Query D (GroupingOp K W Op))}
    (hs : CExpression.SubexpressionOf (.node pop' l')
      (.node pop [S.pruned (rel, S.pcrsReqdOfRelational pop rel list r), list']))
    (hlogical' : S.popFLogical pop' = true) :
    ∃ l, CExpression.SubexpressionOf (.node pop' l) (.node pop [rel, list]) ∧
      S.UsesProduced pop' l l' := by
  have hrel := hscoped.child (e := rel) (by simp)
  obtain ⟨hproject, -, -⟩ := S.prunedAt_eq_some_iff.1 hat
  obtain ⟨_, xs, hl, -, -, -⟩ := hscoped.at.list hproject
  obtain ⟨rfl, rfl⟩ : rel = _ ∧ list = _ := by simpa using hl
  rcases CExpression.subexpressionOf_node_iff.1 hs with heq | ⟨e, he, hse⟩
  · cases heq
    refine ⟨_, .refl, S.stillProduced_list hrel hlogical hsub ?_ fun c hc => ?_⟩
    · rw [columns_node]
      rfl
    · simp only [PcrsUsedColumns, List.flatMap_cons, List.flatMap_nil, List.append_nil,
        (S.relational_columns hlogical).1, List.nil_append, List.mem_append] at hc
      refine hc.elim (fun hlocal => S.pcrsReqdByList_subset ?_) (hused c)
      exact Finset.mem_union_left _ (Finset.mem_union_right _ (List.mem_toFinset.2 hlocal))
  · simp only [List.mem_cons, List.not_mem_nil, or_false] at he
    rcases he with rfl | rfl
    · obtain ⟨l₀, hs₀, hcols⟩ := ih hrel pop' l' hse hlogical'
      exact ⟨l₀, .child (by simp) hs₀, hcols⟩
    · exact ⟨l', .child (by simp) (hlist _ hse hlogical'), fun c hc => ⟨hc, id⟩⟩

omit [LinearOrder D] in
/-- **What a remaining operator uses is still produced below it.** -/
theorem prune_stillProduced (hscoped : S.Scoped pexpr) :
    S.StillProduced pexpr (S.pruned (pexpr, r)) := by
  induction pexpr using CExpression.induction generalizing r with
  | node pop l ih =>
    rcases hpop : S.popFLogical pop with _ | _
    · obtain ⟨hprune, -⟩ := S.prune_scalar hscoped hpop r
      rw [pruned, hprune]
      exact .refl S _
    have hsub := S.fSubquery_of_fLogical hpop
    intro pop' l' hs hlogical'
    rcases hat : S.prunedAt pop l r with _ | ⟨rel, list⟩
    · rw [pruned, S.prune_of_prunedAt_none hsub hat] at hs
      rcases CExpression.subexpressionOf_node_iff.1 hs with heq | ⟨e', he', hs⟩
      · cases heq
        exact ⟨l, .refl, S.stillProduced_visits hscoped hpop hat⟩
      · obtain ⟨v, hv, rfl⟩ := List.mem_map.1 he'
        have hmem := (S.mem_visits hv).1
        obtain ⟨l₀, hs₀, hcols⟩ := ih v.1 hmem (hscoped.child hmem) pop' l' hs hlogical'
        exact ⟨l₀, .child hmem hs₀, hcols⟩
    · obtain ⟨hproject, hl, -⟩ := S.prunedAt_eq_some_iff.1 hat
      obtain ⟨_, xs, hl', hlogical, -, hxs⟩ := hscoped.at.list hproject
      obtain ⟨rfl, rfl⟩ : rel = _ ∧ list = _ := by simpa using hl.symm.trans hl'
      subst hl
      have hrel := hscoped.child (e := rel) (by simp)
      rw [pruned, S.prune_of_prunedAt_some hat, PexprPruneProjListProjectOrGbAgg.eq_def] at hs
      obtain ⟨hnew, hused⟩ | ⟨-, hused, hnew⟩ :=
        S.pexprProjectListNew_cases (fun x hx => (hxs x hx).1) rfl hat
      · rw [hnew] at hs
        exact S.stillProduced_node hscoped hlogical (ih rel List.mem_cons_self) hat
          (fun _ => id) hused (fun s hs _ => hs) hs hlogical'
      · obtain hnew | ⟨hnew, -, -⟩ := hnew
        · rw [hnew] at hs
          refine S.stillProduced_node hscoped hlogical (ih rel List.mem_cons_self) hat ?_ hused
            (fun s hs => S.subexpressionOf_remaining hs) hs hlogical'
          exact (S.keeps_remaining (X := fun _ => True) (fun x hx => (hxs x hx).1)
            fun _ _ => trivial).used
        · rw [hnew] at hs
          obtain ⟨l₀, hs₀, hcols⟩ := ih rel (by simp) (hscoped.child (by simp)) pop' l' hs hlogical'
          exact ⟨l₀, .child (by simp) hs₀, hcols⟩

/-! ## The pass -/

/-- The new query has the rows of the old one on the required columns, as often as they are there.
    A query is evaluated outside windows, and where the old one fails there are no rows to keep. -/
def KeepsRows (pexpr pexpr' : Query D (GroupingOp K W Op)) (pcrsReqd : Finset CColRef) : Prop :=
  ∀ env rows, env.group.frames = [] → Query.eval S.semantics pexpr env = .relation rows →
    ∃ rows', Query.eval S.semantics pexpr' env = .relation rows' ∧
      (rows'.map (keep (· ∈ pcrsReqd))).Perm (rows.map (keep (· ∈ pcrsReqd)))

/-- **`PexprPruneUnusedComputedCols` keeps the rows on the required columns, and what the remaining
operators use, where no project list makes fewer rows without the elements that go.** -/
theorem pexprPruneUnusedComputedCols_sound (fDisabled : Bool)
    (pexpr : Query D (GroupingOp K W Op)) (pcrsReqd : Finset CColRef) (hscoped : S.Scoped pexpr)
    (hrounds : S.UnusedKeepRounds pexpr pcrsReqd) :
    S.KeepsRows pexpr (S.PexprPruneUnusedComputedCols fDisabled pexpr (some pcrsReqd)) pcrsReqd ∧
      S.StillProduced pexpr (S.PexprPruneUnusedComputedCols fDisabled pexpr (some pcrsReqd)) := by
  classical
  rw [PexprPruneUnusedComputedCols]
  split_ifs
  · exact ⟨fun env rows _ hrows => ⟨rows, hrows, .refl _⟩, .refl S pexpr⟩
  refine ⟨fun env rows hframes hrows => ?_, S.prune_stillProduced hscoped⟩
  let p : CColRef → Prop := fun c => ¬S.Dropped pexpr pcrsReqd c
  have hhides : S.Hides p pexpr pcrsReqd := ⟨fun _ => not_not.2, fun _ _ => not_not.1⟩
  have halike : env.Alike p S.cols.PcrsUsedByFrame env := .refl fun w hw => by
    rw [hframes] at hw
    cases hw
  have hkept := (S.prune_preserves hscoped hrounds hhides env env halike).rows?
  rw [hrows] at hkept
  obtain ⟨rows', hrows', hsame⟩ := hkept rows rfl
  have hreqd : ∀ c, c ∈ pcrsReqd → p c := fun c hc hdropped => hdropped.notMem S hc
  exact ⟨rows', Result.rows?_eq_some.1 hrows', .of_eq (map_keep_mono hreqd hsame).symm⟩

end PrunableSemantics

/-! ## A set-returning function below another function -/

/-- `generate_series(1, n)` and `abs`. -/
inductive SeriesFunction where
  | generateSeries (n : ℕ)
  | abs
  deriving DecidableEq, Repr

/-- `abs` has a value for each value of its argument. -/
def SeriesFunction.eval : SeriesFunction → List (Env ℤ (RowGroup ℤ Empty) → Result ℤ) →
    Env ℤ (RowGroup ℤ Empty) → Result ℤ
  | .generateSeries n, [], _ => .set ((List.range n).map fun k => ((k + 1 : ℤ) : Datum ℤ))
  | .abs, [arg], env =>
    match arg env with
    | .value v => .value (v.map fun n => (n.natAbs : ℤ))
    | .set vs => .set (vs.map fun v => v.map fun n => (n.natAbs : ℤ))
    | _ => .failure
  | _, _, _ => .failure

def series : PrunableSemantics ℤ Empty Empty SeriesFunction where
  truth v := v.map (· == 1)
  ofTruth t := t.map fun b => if b then 1 else 0
  truth_ofTruth t := by rcases t with _ | _ | _ <;> rfl
  cmp _ v w := Option.map₂ (· == ·) v w
  other := SeriesFunction.eval
  before _ _ v w := w.any fun n => v.all (· < n)
  before_irrefl _ _ v := by cases v <;> simp
  key := nofun
  number v := v
  FBoundedRange := nofun
  cols :=
    { PcrsUsedByKey := nofun, PcrsUsedByFrame := nofun
      derive := fun _ children => DerivedColumns.scalar [] [] children }
  FLogical _ := false
  PcrsLocalUsed _ := []
  returnsSet
    | .generateSeries _ => some true
    | .abs => some false
  mentions _ := []
  key_used := nofun
  preserves p _ pop fs fs' _ h := by
    intro env env' henv
    cases pop with
    | generateSeries n => cases h <;> exact .refl _
    | abs =>
      rcases h with _ | @⟨arg, arg', _, _, harg, _ | _⟩
      · exact .inl rfl
      · obtain hfail | hkeep := harg env env' henv
        · exact .inl (by rw [SeriesFunction.eval, hfail])
        · cases hres : arg env <;> cases hres' : arg' env' <;>
            simp_all [Result.Preserved, Result.keep, SeriesFunction.eval]
      · exact .inl rfl
  relational _ _ := nofun
  keeps _ _ _ _ := nofun

/-- `select a from (select a, x from (values (1)) t(a)) v` for a scalar `x`. -/
def unusedElement (x : Query ℤ (GroupingOp Empty Empty SeriesFunction)) :
    Query ℤ (GroupingOp Empty Empty SeriesFunction) :=
  .node .logicalProject [.node (.logicalConstTableGet [Query.colX] [[((1 : ℤ) : Datum ℤ)]]) [],
    .node .scalarProjectList [.node (.scalarProjectElement Query.colY) [x]]]

/-- `abs(generate_series(1, 2))`: the flag of `abs` hides the set-returning function. -/
def hiddenSeries : Query ℤ (GroupingOp Empty Empty SeriesFunction) :=
  unusedElement (.node (.other (.other .abs)) [.node (.other (.other (.generateSeries 2))) []])

/-- `abs(a)`. -/
def unusedAbs : Query ℤ (GroupingOp Empty Empty SeriesFunction) :=
  unusedElement (.node (.other (.other .abs)) [.node (.scalarIdent Query.colX) []])

theorem hiddenSeries_loses_row :
    ¬series.KeepsRows hiddenSeries
      (series.PexprPruneUnusedComputedCols false hiddenSeries (some {Query.colX}))
      {Query.colX} := by
  intro h
  let env : Env ℤ (RowGroup ℤ Empty) := ⟨fun _ => ⊥, ⟨[], []⟩⟩
  have hold : ∃ rows, Query.eval series.semantics hiddenSeries env = .relation rows ∧
      rows.length = 2 := ⟨_, rfl, rfl⟩
  have hnew : ∃ rows, Query.eval series.semantics
      (series.PexprPruneUnusedComputedCols false hiddenSeries (some {Query.colX})) env =
        .relation rows ∧ rows.length = 1 := ⟨_, rfl, rfl⟩
  obtain ⟨rows, hrows, hlen⟩ := hold
  obtain ⟨rows', hrows', hlen'⟩ := hnew
  obtain ⟨rows₁, hrows₁, hperm⟩ := h env rows rfl hrows
  rw [hrows'] at hrows₁
  cases hrows₁
  have hlength := hperm.length_eq
  rw [List.length_map, List.length_map, hlen, hlen'] at hlength
  cases hlength

/-- A scalar on top of a table is in scope if it does not read its own column. -/
theorem scoped_unusedElement {x : Query ℤ (GroupingOp Empty Empty SeriesFunction)}
    (hscoped : series.Scoped x) (hlogical : series.popFLogical x.Pop = false)
    (hdefined : (series.columns x).defined = []) (hcomputed : PrunableSemantics.computed x = [])
    (hmentioned : Query.colY ∉ series.mentioned x) : series.Scoped (unusedElement x) := by
  have htable : series.Scoped (.node (.logicalConstTableGet [Query.colX]
      [[((1 : ℤ) : Datum ℤ)]]) []) :=
    series.scoped_node ⟨nofun, fun _ => .nil, fun _ => nofun, nofun⟩ nofun
  have helement : series.Scoped (.node (.scalarProjectElement Query.colY) [x]) :=
    series.scoped_node (series.scopedAt_scalar rfl (by simpa using hlogical)) (by simpa using hscoped)
  have hlist : series.Scoped (.node .scalarProjectList
      [.node (.scalarProjectElement Query.colY) [x]]) := by
    refine series.scoped_node (series.scopedAt_scalar rfl fun e he => ?_) (by simpa using helement)
    rw [List.mem_singleton.1 he]
    rfl
  have hnothing : ∀ c, c ∉ PrunableSemantics.computed (.node (.logicalConstTableGet [Query.colX]
      [[((1 : ℤ) : Datum ℤ)]] : QueryOp ℤ (GroupingOp Empty Empty SeriesFunction)) []) :=
    fun c => List.not_mem_nil
  refine series.scoped_node ⟨nofun, fun _ => ?_, fun _ e _ c _ => nofun, fun _ => ?_⟩ ?_
  · refine List.pairwise_pair.2 ⟨fun c hc => absurd hc (hnothing c), fun c hc hmem => ?_⟩
    have hX : c = Query.colX := List.mem_singleton.1 hmem
    have hY : c = Query.colY := by
      simpa [PrunableSemantics.computed_node, Query.FSubquery, hcomputed] using hc
    exact absurd (hX.symm.trans hY) (by decide)
  · refine ⟨_, [(Query.colY, x)], rfl, rfl, fun y hy => ?_, fun y hy => ?_⟩
    · rw [List.mem_singleton.1 hy]
      exact fun hmem => absurd (show Query.colY = Query.colX from List.mem_singleton.1 hmem)
        (by decide)
    · rw [List.mem_singleton.1 hy]
      refine ⟨hdefined, fun c hc => absurd hc (hnothing c), fun z hz => ?_⟩
      rw [List.mem_singleton.1 hz]
      exact hmentioned
  · simpa using ⟨htable, hlist⟩

theorem unusedKeepRounds_unusedAbs : series.UnusedKeepRounds unusedAbs {Query.colX} := by
  intro list X hX
  cases hX with
  | here hat _ =>
    obtain ⟨-, hl, -⟩ := series.prunedAt_eq_some_iff.1 hat
    cases hl
    intro env els hels
    have hlist := series.elements_projectList
      [(Query.colY, .node (.other (.other .abs)) [.node (.scalarIdent Query.colX) []])] env
    obtain rfl := Option.some.inj (hels.symm.trans hlist)
    have hsingle : ∀ el ∈ [(Query.colY, [(env.row Query.colX).map fun n : ℤ => (n.natAbs : ℤ)])],
        el.2.length = 1 := by
      intro el hel
      rw [List.mem_singleton.1 hel]
      rfl
    refine (PrunableSemantics.rounds_eq_one fun el hel => ?_).trans
      (PrunableSemantics.rounds_eq_one hsingle).symm
    exact hsingle el (List.mem_filter.1 hel).1
  | child hv h =>
    have hat : series.prunedAt (.logicalProject : QueryOp ℤ (GroupingOp Empty Empty SeriesFunction))
        unusedAbs.PdrgPexpr {Query.colX} =
        some (.node (.logicalConstTableGet [Query.colX] [[((1 : ℤ) : Datum ℤ)]]) [],
          .node .scalarProjectList [.node (.scalarProjectElement Query.colY)
            [.node (.other (.other .abs)) [.node (.scalarIdent Query.colX) []]]]) := rfl
    obtain rfl := List.mem_singleton.1
      ((congrArg (_ ∈ ·) (series.descents_of_some hat)).mp hv)
    cases h with
    | here hat _ => cases hat
    | child hv _ => cases hv

theorem unusedAbs_pruned_sound :
    series.KeepsRows unusedAbs
        (series.PexprPruneUnusedComputedCols false unusedAbs (some {Query.colX})) {Query.colX} ∧
      series.StillProduced unusedAbs
        (series.PexprPruneUnusedComputedCols false unusedAbs (some {Query.colX})) := by
  refine series.pexprPruneUnusedComputedCols_sound false unusedAbs {Query.colX}
    (scoped_unusedElement ?_ rfl rfl rfl (by decide)) unusedKeepRounds_unusedAbs
  refine series.scoped_node (series.scopedAt_scalar rfl fun e he => ?_) fun e he => ?_
  · rw [List.mem_singleton.1 he]
    rfl
  · rw [List.mem_singleton.1 he]
    exact series.scoped_node (series.scopedAt_scalar rfl nofun) nofun

end BossOptimizer

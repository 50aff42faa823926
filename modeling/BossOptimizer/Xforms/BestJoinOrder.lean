import BossOptimizer.Xforms.JoinOrderSearch

/-!
# The best join order of a set

Each function of the search finds a cheapest split tree of its set, and enters it under that set.
`PexprBestJoinOrder` does so by induction on the number of atoms.
-/

namespace BossOptimizer.CJoinOrderDP

variable {Op : Type} {jodp : JoinOrder Op} {s s' : State Op} {pbs : Finset ℕ}

/-- What a search for a set returns, and the state it leaves. -/
structure Found (jodp : JoinOrder Op) (pbs : Finset ℕ) (s : State Op)
    (found : Option (CExpression Op) × State Op) : Prop where
  inv : Inv jodp found.2
  grows : Grows pbs s found.2
  solved : Solved jodp pbs found.1
  lookup : ∀ pexpr, found.1 = some pexpr → PexprLookup jodp found.2 pbs = some (some pexpr)

theorem Inv.found_of_lookup (h : Inv jodp s) (hpbs : pbs ⊆ Finset.range jodp.m_ulComps)
    {result : Option (CExpression Op)} (hlookup : PexprLookup jodp s pbs = some result) :
    Found jodp pbs s (result, s) :=
  ⟨h, .refl pbs s, h.lookup hpbs hlookup, fun _ hpexpr => hpexpr ▸ hlookup⟩

theorem Inv.found_insert (h : Inv jodp s') (hgrows : Grows pbs s s') (hcard : pbs.card ≠ 1)
    (hnone : s'.m_phmbsexpr pbs = none) {pexpr : CExpression Op}
    (hsolved : Solved jodp pbs (some pexpr)) :
    Found jodp pbs s (some pexpr, s'.insert pbs (some pexpr)) :=
  ⟨h.insert hsolved, hgrows.trans (grows_insert s' pbs _), hsolved,
    fun _ hpexpr => hpexpr ▸ pexprLookup_insert hcard hnone⟩

/-! ## Products -/

theorem expr_crossTree {bit : ℕ} {rest : List ℕ} (hbits : bits jodp pbs = bit :: rest) :
    (crossTree jodp pbs).expr jodp = rest.foldl (fun pexprCross bit =>
      PexprLogicalJoin jodp (jodp.m_rgpcomp bit) pexprCross (jodp.PexprConjunction []))
      (jodp.m_rgpcomp bit) := by
  rw [crossTree, hbits]
  exact (List.foldl_hom (fun T : JoinTree => T.expr jodp) fun _ _ => rfl).symm

theorem pexprCross_spec (h : Inv jodp s) (hne : pbs.Nonempty)
    (hpbs : pbs ⊆ Finset.range jodp.m_ulComps) (hcovered : PbsCovered jodp pbs = ∅) :
    Ensures (PexprCross jodp pbs s) fun found => Found jodp pbs s (some found.1, found.2) := by
  have hsolved := solved_crossTree hne hpbs hcovered
  rw [PexprCross]
  cases hlookup : PexprLookup jodp s pbs with
  | some result =>
    cases result with
    | some pexpr => exact .some (h.found_of_lookup hpbs hlookup)
    | none =>
      -- The dummy does not stand for a set that has a split tree.
      obtain ⟨pexpr, hpexpr, -⟩ := (h.lookup hpbs hlookup).best _
        (.product pbs hne hpbs hcovered) (exact_crossTree hne hpbs hcovered).2
      cases hpexpr
  | none =>
    obtain ⟨hcard, hnone⟩ := card_ne_of_pexprLookup_none hpbs hlookup
    cases hbits : bits jodp pbs with
    | nil =>
      have hempty := toFinset_bits hpbs
      rw [hbits] at hempty
      exact absurd hempty.symm hne.ne_empty
    | cons bit rest =>
      rw [expr_crossTree hbits] at hsolved
      exact .some (h.found_insert (.refl pbs s) hcard hnone hsolved)

/-! ## Sets that are covered in part -/

variable {best : BestJoinOrder Op}

theorem pexprJoinCoveredSubsetWithUncoveredSubset_spec (hproper : Proper jodp)
    (hpbs : pbs ⊆ Finset.range jodp.m_ulComps) (hcard : pbs.card ≠ 1)
    (hnone : s.m_phmbsexpr pbs = none) (hne : PbsCovered jodp pbs ≠ ∅)
    (hcovered : PbsCovered jodp pbs ≠ pbs)
    (hbest : Ensures (best (PbsCovered jodp pbs) s) (Found jodp (PbsCovered jodp pbs) s)) :
    Ensures (PexprJoinCoveredSubsetWithUncoveredSubset jodp best pbs (PbsCovered jodp pbs)
      (pbs \ PbsCovered jodp pbs) s) (Found jodp pbs s) := by
  have hsubset : PbsCovered jodp pbs ⊆ pbs := pbsCovered_subset pbs
  have hssubset : PbsCovered jodp pbs ⊂ pbs := hsubset.ssubset_of_ne hcovered
  have hrest : (pbs \ PbsCovered jodp pbs).Nonempty := Finset.sdiff_nonempty.2 hssubset.2
  have hrestRange : pbs \ PbsCovered jodp pbs ⊆ Finset.range jodp.m_ulComps :=
    Finset.sdiff_subset.trans hpbs
  have hnotRest : ¬pbs ⊆ pbs \ PbsCovered jodp pbs := by
    intro hall
    obtain ⟨ul, hul⟩ := Finset.nonempty_iff_ne_empty.2 hne
    exact (Finset.mem_sdiff.1 (hall (hsubset hul))).2 hul
  rw [PexprJoinCoveredSubsetWithUncoveredSubset]
  refine hbest.bind fun found hfound => ?_
  obtain ⟨pexprJoin, s₁⟩ := found
  obtain ⟨hinv, hgrows, hsolved, -⟩ := hfound
  cases pexprJoin with
  | none =>
    refine .some ⟨hinv, hgrows.mono hsubset, ⟨nofun, ?_⟩, nofun⟩
    rintro T hT rfl
    obtain ⟨left, hleft, hset, -⟩ := hT.eq_cross hne hcovered hcard
    obtain ⟨_, hpexpr, -⟩ := hsolved.best left hleft hset
    cases hpexpr
  | some pexprJoin =>
    refine (pexprCross_spec hinv hrest hrestRange (pbsCovered_sdiff pbs)).map fun cross hcross => ?_
    obtain ⟨pexprCross, s₂⟩ := cross
    obtain ⟨hinv₂, hgrows₂, hsolved₂, -⟩ := hcross
    have hnone₂ : s₂.m_phmbsexpr pbs = none := by
      rw [hgrows₂.frame pbs hnotRest, hgrows.frame pbs hssubset.2, hnone]
    obtain ⟨T, hT, hset, rfl⟩ := hsolved.sound _ rfl
    obtain ⟨U, hU, hsetU, rfl⟩ := hsolved₂.sound _ rfl
    obtain rfl : U = crossTree jodp (pbs \ PbsCovered jodp pbs) :=
      hsetU ▸ hU.eq_crossTree (hsetU.symm ▸ pbsCovered_sdiff pbs)
    have hunion : T.set ∪ pbs \ PbsCovered jodp pbs = pbs := by
      rw [hset, Finset.union_sdiff_of_subset hsubset]
    have hsplit : Split jodp (.join [] T (crossTree jodp (pbs \ PbsCovered jodp pbs))) :=
      .cross T hT _ hrest hrestRange (hset.symm ▸ Finset.disjoint_sdiff) (by rw [hunion, hset])
    refine hinv₂.found_insert ((hgrows.mono hsubset).trans (hgrows₂.mono Finset.sdiff_subset)) hcard
      hnone₂ ⟨?_, ?_⟩
    · rintro _ ⟨⟩
      exact ⟨_, hsplit, by rw [JoinTree.set, hsetU, hunion], rfl⟩
    · rintro T' hT' rfl
      refine ⟨_, rfl, fun hrows => ?_⟩
      obtain ⟨left, hleft, hsetLeft, heq⟩ := hT'.eq_cross hne hcovered hcard
      obtain ⟨_, ⟨⟩, hcost⟩ := hsolved.best left hleft hsetLeft
      have hle : jodp.Cost ((JoinTree.join [] T (crossTree jodp
          (T'.set \ PbsCovered jodp T'.set))).expr jodp) ≤ jodp.Cost ((JoinTree.join [] left
          (crossTree jodp (T'.set \ PbsCovered jodp T'.set))).expr jodp) :=
        hproper.cost_join_le hT.exact hU.exact hleft.exact hU.exact (hset.trans hsetLeft.symm) rfl
          hrows (hcost hrows) le_rfl
      exact hle.trans_eq (by rw [← heq])

/-! ## Covered sets -/

variable {pbsFst pbsSnd : Finset ℕ}

/-- The join of the solutions of two sides that an edge connects. -/
theorem Solved.join (hproper : Proper jodp) {pexprFst pexprSnd : CExpression Op}
    (hfst : Solved jodp pbsFst (some pexprFst)) (hsnd : Solved jodp pbsSnd (some pexprSnd))
    (hdisjoint : Disjoint pbsFst pbsSnd) (hedges : connectingEdges jodp pbsFst pbsSnd ≠ [])
    (hcovered : PbsCovered jodp (pbsFst ∪ pbsSnd) = pbsFst ∪ pbsSnd) :
    ∃ T, Split jodp T ∧ T.set = pbsFst ∪ pbsSnd ∧
      T.expr jodp = PexprLogicalJoin jodp pexprFst pexprSnd
        (edgePred jodp (connectingEdges jodp pbsFst pbsSnd)) ∧
      ∀ left right edges, Split jodp left → Split jodp right → left.set = pbsFst →
        right.set = pbsSnd → RowsBySet jodp →
          jodp.Cost (T.expr jodp) ≤ jodp.Cost ((JoinTree.join edges left right).expr jodp) := by
  obtain ⟨left, hleft, rfl, rfl⟩ := hfst.sound _ rfl
  obtain ⟨right, hright, rfl, rfl⟩ := hsnd.sound _ rfl
  refine ⟨_, .join left right hleft hright hdisjoint hedges hcovered, rfl, rfl, ?_⟩
  intro left' right' edges hleft' hright' hsetLeft hsetRight hrows
  obtain ⟨_, ⟨⟩, hcostLeft⟩ := hfst.best left' hleft' hsetLeft
  obtain ⟨_, ⟨⟩, hcostRight⟩ := hsnd.best right' hright' hsetRight
  exact hproper.cost_join_le hleft.exact hright.exact hleft'.exact hright'.exact hsetLeft.symm
    hsetRight.symm hrows (hcostLeft hrows) (hcostRight hrows)

theorem pexprPred_eq (hdisjoint : Disjoint pbsFst pbsSnd) (hfst : pbsFst.Nonempty)
    (hsnd : pbsSnd.Nonempty) :
    PexprPred jodp pbsFst pbsSnd = if connectingEdges jodp pbsFst pbsSnd = [] then none
      else some (edgePred jodp (connectingEdges jodp pbsFst pbsSnd)) := by
  rw [PexprPred, if_neg, PexprBuildPred]
  rintro (h | h | h)
  · exact h hdisjoint
  · exact hfst.ne_empty (Finset.card_eq_zero.1 h)
  · exact hsnd.ne_empty (Finset.card_eq_zero.1 h)

/-- The two ways to split a pair. -/
theorem eq_pair_of_union {a b : ℕ} (hfst : pbsFst.Nonempty) (hsnd : pbsSnd.Nonempty)
    (hdisjoint : Disjoint pbsFst pbsSnd) (hunion : pbsFst ∪ pbsSnd = {a, b}) :
    (pbsFst = {a} ∧ pbsSnd = {b}) ∨ (pbsFst = {b} ∧ pbsSnd = {a}) := by
  have hcards : pbsFst.card + pbsSnd.card ≤ 2 := by
    rw [← Finset.card_union_of_disjoint hdisjoint, hunion]
    exact Finset.card_le_two
  have := hfst.card_pos
  have := hsnd.card_pos
  obtain ⟨x, rfl⟩ := Finset.card_eq_one.1 (show pbsFst.card = 1 by omega)
  obtain ⟨y, rfl⟩ := Finset.card_eq_one.1 (show pbsSnd.card = 1 by omega)
  have hne : x ≠ y := Finset.disjoint_singleton.1 hdisjoint
  rw [← Finset.insert_eq] at hunion
  have hx : x ∈ ({a, b} : Finset ℕ) := hunion ▸ Finset.mem_insert_self x _
  have hy : y ∈ ({a, b} : Finset ℕ) :=
    hunion ▸ Finset.mem_insert_of_mem (Finset.mem_singleton_self y)
  have ha : a ∈ ({x, y} : Finset ℕ) := hunion ▸ Finset.mem_insert_self a _
  simp only [Finset.mem_insert, Finset.mem_singleton] at hx hy ha
  grind

theorem pexprJoinPair_spec (h : Inv jodp s) (hproper : Proper jodp)
    (hpbs : pbs ⊆ Finset.range jodp.m_ulComps) (hcard : pbs.card = 2)
    (hnone : s.m_phmbsexpr pbs = none) (hcovered : PbsCovered jodp pbs = pbs) :
    Ensures (PexprJoinPair jodp pbs s) (Found jodp pbs s) := by
  have hlength := length_bits hpbs
  rw [hcard, List.length_eq_two] at hlength
  obtain ⟨a, b, hbits⟩ := hlength
  have hpair : pbs = {a} ∪ {b} := by
    rw [← toFinset_bits hpbs, hbits, List.toFinset_cons, List.toFinset_cons, List.toFinset_nil,
      Finset.insert_eq, insert_empty_eq]
  have hdisjoint : Disjoint ({a} : Finset ℕ) {b} := by
    have hnodup : (bits jodp pbs).Nodup := nodup_bits pbs
    rw [hbits, List.nodup_cons, List.mem_singleton] at hnodup
    exact Finset.disjoint_singleton.2 hnodup.1
  have ha : a < jodp.m_ulComps := (mem_bits.1 (hbits ▸ List.mem_cons_self)).1
  have hb : b < jodp.m_ulComps :=
    (mem_bits.1 (hbits ▸ List.mem_cons_of_mem a (List.mem_singleton_self b))).1
  -- A split tree of the pair joins the two atoms in one order or the other.
  have hcases : ∀ T, Split jodp T → T.set = pbs → connectingEdges jodp {a} {b} ≠ [] ∧
      ∃ left right edges, Split jodp left ∧ Split jodp right ∧ T = .join edges left right ∧
        ((left.set = {a} ∧ right.set = {b}) ∨ (left.set = {b} ∧ right.set = {a})) := by
    rintro T hT rfl
    obtain ⟨left, right, hleft, hright, hsides, hedges, rfl⟩ := hT.eq_join hcovered (by omega)
    have hsets := eq_pair_of_union left.set_nonempty right.set_nonempty hsides
      (hpair.trans (Finset.insert_eq a {b}).symm)
    refine ⟨?_, left, right, _, hleft, hright, rfl, hsets⟩
    rcases hsets with ⟨hsetLeft, hsetRight⟩ | ⟨hsetLeft, hsetRight⟩
    · rwa [hsetLeft, hsetRight] at hedges
    · rwa [hsetLeft, hsetRight, connectingEdges_comm] at hedges
  rw [PexprJoinPair, hbits]
  dsimp only
  rw [pexprPred_eq hdisjoint (Finset.singleton_nonempty a) (Finset.singleton_nonempty b)]
  split_ifs with hedges
  · have hsolved : Solved jodp pbs none :=
      ⟨nofun, fun T hT hset => absurd hedges (hcases T hT hset).1⟩
    exact .some ⟨h, .refl pbs s, hsolved, nofun⟩
  · obtain ⟨T, hT, hset, hexpr, hbest⟩ := (solved_atom ha).join hproper (solved_atom hb) hdisjoint
      hedges (hpair ▸ hcovered)
    refine .some (h.found_insert (.refl pbs s) (by omega) hnone ⟨?_, ?_⟩)
    · rintro _ ⟨⟩
      exact ⟨T, hT, hset.trans hpair.symm, hexpr⟩
    · intro T' hT' hset'
      refine ⟨_, rfl, fun hrows => ?_⟩
      rw [← hexpr]
      obtain ⟨-, left, right, edges, hleft, hright, rfl, hsets⟩ := hcases T' hT' hset'
      rcases hsets with ⟨hsetLeft, hsetRight⟩ | ⟨hsetLeft, hsetRight⟩
      · exact hbest left right edges hleft hright hsetLeft hsetRight hrows
      · refine (hbest right left edges hright hleft hsetRight hsetLeft hrows).trans_eq ?_
        rw [hproper.cost_join hright.exact hleft.exact, hproper.cost_join hleft.exact hright.exact,
          add_comm]

/-! ## All splits of a set -/

theorem mem_generateSubsets {subset : Finset ℕ} (elems : List ℕ) : ∀ pbsCurrent : Finset ℕ,
    subset ∈ GenerateSubsets pbsCurrent elems ↔
      pbsCurrent ⊆ subset ∧ subset ⊆ pbsCurrent ∪ elems.toFinset := by
  induction elems with
  | nil =>
    intro pbsCurrent
    rw [GenerateSubsets, List.mem_singleton, List.toFinset_nil, Finset.union_empty]
    exact ⟨fun h => h ▸ ⟨subset_rfl, subset_rfl⟩, fun h => h.2.antisymm h.1⟩
  | cons elem elems ih =>
    intro pbsCurrent
    rw [GenerateSubsets, List.mem_append, ih, ih, List.toFinset_cons, Finset.insert_union,
      Finset.union_insert]
    constructor
    · rintro (⟨hlow, hhigh⟩ | ⟨hlow, hhigh⟩)
      · exact ⟨(Finset.subset_insert _ _).trans hlow, hhigh⟩
      · exact ⟨hlow, hhigh.trans (Finset.subset_insert _ _)⟩
    · rintro ⟨hlow, hhigh⟩
      by_cases hmem : elem ∈ subset
      · exact .inl ⟨Finset.insert_subset hmem hlow, hhigh⟩
      · exact .inr ⟨hlow, (Finset.subset_insert_iff_of_notMem hmem).1 hhigh⟩

theorem mem_pdrgpbsSubsets {subset : Finset ℕ} (hpbs : pbs ⊆ Finset.range jodp.m_ulComps) :
    subset ∈ PdrgpbsSubsets jodp pbs ↔ subset ⊆ pbs := by
  rw [PdrgpbsSubsets, mem_generateSubsets, toFinset_bits hpbs, Finset.empty_union]
  exact and_iff_right (Finset.empty_subset _)

/-- A better order, or the best one so far. -/
theorem Best.update_spec (current : Best Op) (pexprJoin : CExpression Op) (dCost : ℚ) :
    ∃ pexpr, (current.update pexprJoin dCost).pexprResult = some pexpr ∧
      ((pexpr = pexprJoin ∧ (current.update pexprJoin dCost).dMinCost = dCost) ∨
        (current.pexprResult = some pexpr ∧
          (current.update pexprJoin dCost).dMinCost = current.dMinCost)) ∧
      (current.update pexprJoin dCost).dMinCost ≤ dCost ∧
      (current.pexprResult.isSome →
        (current.update pexprJoin dCost).dMinCost ≤ current.dMinCost) := by
  rw [Best.update]
  split_ifs with h
  · refine ⟨pexprJoin, rfl, .inl ⟨rfl, rfl⟩, le_rfl, fun hsome => ?_⟩
    rcases h with hnone | hlt
    · rw [Option.isNone_iff_eq_none.1 hnone] at hsome
      cases hsome
    · exact hlt.le
  · rw [not_or, Option.isNone_iff_eq_none, not_lt] at h
    obtain ⟨pexpr, hpexpr⟩ := Option.ne_none_iff_exists'.1 h.1
    exact ⟨pexpr, hpexpr, .inr ⟨hpexpr, rfl⟩, h.2, fun _ => le_rfl⟩

/-- What the loop over the splits keeps: the best order of the sides that have been visited. -/
structure Visited (jodp : JoinOrder Op) (pbs : Finset ℕ) (s : State Op)
    (visited : List (Finset ℕ)) (current : Best Op × State Op) : Prop where
  inv : Inv jodp current.2
  grows : Grows pbs s current.2
  absent : current.2.m_phmbsexpr pbs = none
  sound : ∀ pexpr, current.1.pexprResult = some pexpr → current.1.dMinCost = jodp.Cost pexpr ∧
    ∃ T, Split jodp T ∧ T.set = pbs ∧ T.expr jodp = pexpr
  best : ∀ left right edges, Split jodp left → Split jodp right → left.set ∈ visited →
    right.set = pbs \ left.set → connectingEdges jodp left.set right.set ≠ [] →
    ∃ pexpr, current.1.pexprResult = some pexpr ∧ (RowsBySet jodp →
      jodp.Cost pexpr ≤ jodp.Cost ((JoinTree.join edges left right).expr jodp))

variable {current : Best Op × State Op} {visited : List (Finset ℕ)}

/-- A split that gives no order leaves the best one as it is. -/
theorem Visited.skip (h : Visited jodp pbs s visited current) {pbsCurrent : Finset ℕ}
    (hinv : Inv jodp s') (hgrows : Grows pbs current.2 s') (habsent : s'.m_phmbsexpr pbs = none)
    (hskip : ∀ left right, Split jodp left → Split jodp right → left.set = pbsCurrent →
      right.set = pbs \ pbsCurrent → connectingEdges jodp pbsCurrent (pbs \ pbsCurrent) = []) :
    Visited jodp pbs s (visited ++ [pbsCurrent]) (current.1, s') := by
  refine ⟨hinv, h.grows.trans hgrows, habsent, h.sound, ?_⟩
  intro left right edges hleft hright hmem hset hedges
  rcases List.mem_append.1 hmem with hold | hnew
  · exact h.best left right edges hleft hright hold hset hedges
  · rw [List.mem_singleton] at hnew
    rw [hset, hnew] at hedges
    exact absurd (hskip left right hleft hright hnew (hnew ▸ hset)) hedges

/-- A split whose sides are solved takes part in the choice. -/
theorem Visited.update (h : Visited jodp pbs s visited current) {pbsCurrent : Finset ℕ}
    (hinv : Inv jodp s') (hgrows : Grows pbs current.2 s') (habsent : s'.m_phmbsexpr pbs = none)
    {T : JoinTree} (hsplit : Split jodp T) (hset : T.set = pbs)
    (hbest : ∀ left right edges, Split jodp left → Split jodp right → left.set = pbsCurrent →
      right.set = pbs \ pbsCurrent → RowsBySet jodp →
        jodp.Cost (T.expr jodp) ≤ jodp.Cost ((JoinTree.join edges left right).expr jodp)) :
    Visited jodp pbs s (visited ++ [pbsCurrent])
      (current.1.update (T.expr jodp) (jodp.Cost (T.expr jodp)), s') := by
  obtain ⟨pexpr, hpexpr, hchoice, hle, hleOld⟩ :=
    current.1.update_spec (T.expr jodp) (jodp.Cost (T.expr jodp))
  have hsound : (current.1.update (T.expr jodp) (jodp.Cost (T.expr jodp))).dMinCost =
      jodp.Cost pexpr ∧ ∃ T, Split jodp T ∧ T.set = pbs ∧ T.expr jodp = pexpr := by
    rcases hchoice with ⟨rfl, hcost⟩ | ⟨hold, hcost⟩
    · exact ⟨hcost, T, hsplit, hset, rfl⟩
    · exact ⟨hcost.trans (h.sound pexpr hold).1, (h.sound pexpr hold).2⟩
  refine ⟨hinv, h.grows.trans hgrows, habsent, fun pexpr' hpexpr' => ?_, ?_⟩
  · obtain rfl : pexpr = pexpr' := Option.some.inj (hpexpr.symm.trans hpexpr')
    exact hsound
  · intro left right edges hleft hright hmem hsets hedges
    refine ⟨pexpr, hpexpr, fun hrows => ?_⟩
    rw [← hsound.1]
    rcases List.mem_append.1 hmem with hold | hnew
    · obtain ⟨old, hpexprOld, hcostOld⟩ := h.best left right edges hleft hright hold hsets hedges
      refine (hleOld (by rw [hpexprOld]; rfl)).trans ?_
      rw [(h.sound old hpexprOld).1]
      exact hcostOld hrows
    · rw [List.mem_singleton] at hnew
      exact hle.trans (hbest left right edges hleft hright hnew (hnew ▸ hsets) hrows)

/-- The search solves every proper part of a set. -/
def SolvesParts (jodp : JoinOrder Op) (best : BestJoinOrder Op) (pbs : Finset ℕ) : Prop :=
  ∀ part ⊂ pbs, part.Nonempty → ∀ s, Inv jodp s → Ensures (best part s) (Found jodp part s)

theorem trySplit_spec (hproper : Proper jodp) (hpbs : pbs ⊆ Finset.range jodp.m_ulComps)
    (hcovered : PbsCovered jodp pbs = pbs) (hbest : SolvesParts jodp best pbs)
    (h : Visited jodp pbs s visited current) {pbsCurrent : Finset ℕ} (hsubset : pbsCurrent ⊆ pbs) :
    Ensures (trySplit jodp best pbs current pbsCurrent)
      (Visited jodp pbs s (visited ++ [pbsCurrent])) := by
  have hdisjoint : Disjoint pbsCurrent (pbs \ pbsCurrent) := Finset.disjoint_sdiff
  have hunion : pbsCurrent ∪ pbs \ pbsCurrent = pbs := Finset.union_sdiff_of_subset hsubset
  -- A pass over the split: either side is empty, or no edge connects them.
  have hskip : PexprPred jodp pbsCurrent (pbs \ pbsCurrent) = none →
      Visited jodp pbs s (visited ++ [pbsCurrent]) current := by
    intro hpred
    refine h.skip h.inv (.refl pbs _) h.absent fun left right _ _ hleft hright => ?_
    rw [pexprPred_eq hdisjoint (hleft ▸ left.set_nonempty) (hright ▸ right.set_nonempty)] at hpred
    by_contra hedges
    rw [if_neg hedges] at hpred
    cases hpred
  rw [trySplit]
  cases hpred : PexprPred jodp pbsCurrent (pbs \ pbsCurrent) with
  | none => exact .some (hskip hpred)
  | some pexprPred =>
    have hsides : pbsCurrent.Nonempty ∧ (pbs \ pbsCurrent).Nonempty := by
      rw [Finset.nonempty_iff_ne_empty, Finset.nonempty_iff_ne_empty]
      refine ⟨fun hempty => ?_, fun hempty => ?_⟩ <;>
      · rw [PexprPred, if_pos (by simp [hempty])] at hpred
        cases hpred
    obtain ⟨hcurrent, hremaining⟩ := hsides
    have hpart : pbsCurrent ⊂ pbs :=
      hsubset.ssubset_of_not_subset (Finset.sdiff_nonempty.1 hremaining)
    have hpart' : pbs \ pbsCurrent ⊂ pbs := by
      refine Finset.sdiff_subset.ssubset_of_not_subset fun hall => ?_
      obtain ⟨ul, hul⟩ := hcurrent
      exact (Finset.mem_sdiff.1 (hall (hsubset hul))).2 hul
    have hpredEq := @pexprPred_eq _ jodp _ _ hdisjoint hcurrent hremaining
    have hedges : connectingEdges jodp pbsCurrent (pbs \ pbsCurrent) ≠ [] := by
      intro hnil
      rw [if_pos hnil, hpred] at hpredEq
      cases hpredEq
    rw [if_neg hedges] at hpredEq
    dsimp only
    refine (hbest pbsCurrent hpart hcurrent current.2 h.inv).bind fun left hleft => ?_
    obtain ⟨pexprLeft, s₁⟩ := left
    refine (hbest (pbs \ pbsCurrent) hpart' hremaining s₁ hleft.inv).bind fun right hright => ?_
    obtain ⟨pexprRight, s₂⟩ := right
    have hgrows : Grows pbs current.2 s₂ :=
      (hleft.grows.mono hsubset).trans (hright.grows.mono Finset.sdiff_subset)
    have habsent : s₂.m_phmbsexpr pbs = none := by
      rw [hright.grows.frame pbs hpart'.2, hleft.grows.frame pbs hpart.2, h.absent]
    dsimp only
    by_cases hsome : pexprLeft.isSome ∧ pexprRight.isSome
    · obtain ⟨⟨pexprLeft, rfl⟩, ⟨pexprRight, rfl⟩⟩ :=
        hsome.imp Option.isSome_iff_exists.1 Option.isSome_iff_exists.1
      obtain ⟨T, hsplit, hset, hexpr, hcheapest⟩ :=
        hleft.solved.join hproper hright.solved hdisjoint hedges (hunion.symm ▸ hcovered)
      rw [hunion] at hset
      have hjoin : PexprJoin jodp s₂ pbsCurrent (pbs \ pbsCurrent) = some (T.expr jodp) := by
        rw [PexprJoin, hright.grows.lookup (hleft.lookup _ rfl), hright.lookup _ rfl, hpredEq,
          hexpr]
      have hcost : jodp.DCost s₂.m_phmexprcost (T.expr jodp) = some (jodp.Cost (T.expr jodp)) :=
        (hproper.costable hsplit.exact).dCost_eq hproper.lawful hright.inv.costs
      have hadd : Ensures (if jodp.m_ulComps = pbs.card then
          AddJoinOrder jodp (T.expr jodp) (jodp.Cost (T.expr jodp)) s₂ else some s₂) fun s' =>
            Inv jodp s' ∧ s'.m_phmbsexpr = s₂.m_phmbsexpr := by
        split_ifs with hall
        · refine hright.inv.addJoinOrder hproper hsplit (hset.trans ?_)
          exact Finset.eq_of_subset_of_card_le hpbs (by rw [Finset.card_range, hall])
        · exact .some ⟨hright.inv, rfl⟩
      rw [if_pos hsome, hjoin, Option.bind_some, hcost, Option.bind_some]
      refine hadd.map fun s' hs' => ?_
      exact h.update hs'.1 (hgrows.trans (.of_eq hs'.2)) (hs'.2 ▸ habsent) hsplit hset hcheapest
    · rw [if_neg hsome]
      refine .some (h.skip hright.inv hgrows habsent ?_)
      intro left right hsplitLeft hsplitRight hset hset'
      obtain ⟨_, heqLeft, -⟩ := hleft.solved.best left hsplitLeft hset
      obtain ⟨_, heqRight, -⟩ := hright.solved.best right hsplitRight hset'
      dsimp only at heqLeft heqRight
      exact absurd (by rw [heqLeft, heqRight]; exact ⟨rfl, rfl⟩) hsome

theorem pexprBestJoinOrderDP_spec (hproper : Proper jodp)
    (hpbs : pbs ⊆ Finset.range jodp.m_ulComps) (hcovered : PbsCovered jodp pbs = pbs)
    (hcard : pbs.card ≠ 1) (hbest : SolvesParts jodp best pbs) (h : Inv jodp s)
    (hnone : s.m_phmbsexpr pbs = none) :
    Ensures (PexprBestJoinOrderDP jodp best pbs s) (Found jodp pbs s) := by
  have hloop := Ensures.foldlM (f := trySplit jodp best pbs) (l := PdrgpbsSubsets jodp pbs)
    (I := Visited jodp pbs s)
    (fun visited pbsCurrent hmem current hvisited =>
      trySplit_spec hproper hpbs hcovered hbest hvisited ((mem_pdrgpbsSubsets hpbs).1 hmem))
    (⟨0, none⟩, s) ⟨h, .refl pbs s, hnone, nofun, nofun⟩
  rw [PexprBestJoinOrderDP]
  refine hloop.map fun current hvisited => ?_
  obtain ⟨⟨dMinCost, pexprResult⟩, s'⟩ := current
  have hsolved : Solved jodp pbs pexprResult := by
    refine ⟨fun pexpr hpexpr => (hvisited.sound pexpr hpexpr).2, ?_⟩
    rintro T hT rfl
    obtain ⟨left, right, hleft, hright, hdisjoint, hedges, rfl⟩ := hT.eq_join hcovered hcard
    refine hvisited.best left right _ hleft hright
      ((mem_pdrgpbsSubsets hpbs).2 Finset.subset_union_left) ?_ hedges
    exact (Finset.union_sdiff_cancel_left hdisjoint).symm
  cases pexprResult with
  | none =>
    exact ⟨hvisited.inv.insert hsolved, hvisited.grows.trans (grows_insert s' pbs none), hsolved,
      nofun⟩
  | some pexpr =>
    obtain ⟨hinv, hgrows, -, hlookup⟩ :=
      hvisited.inv.found_insert hvisited.grows hcard hvisited.absent hsolved
    exact ⟨hinv.insertExpressionCost (hvisited.sound pexpr rfl).1, hgrows.trans (.of_eq rfl),
      hsolved, hlookup⟩

/-! ## The recursion -/

/-- **`PexprBestJoinOrder` finds a cheapest split tree of every set**, at a depth of recursion that
is the number of atoms. -/
theorem pexprBestJoinOrder_spec (hproper : Proper jodp) (fuel : ℕ) :
    ∀ (pbs : Finset ℕ) (s : State Op), pbs.Nonempty → pbs ⊆ Finset.range jodp.m_ulComps →
      pbs.card ≤ fuel → Inv jodp s →
      Ensures (PexprBestJoinOrder jodp fuel pbs s) (Found jodp pbs s) := by
  induction fuel with
  | zero =>
    intro pbs s hne _ hfuel _
    have := hne.card_pos
    omega
  | succ fuel ih =>
    intro pbs s hne hpbs hfuel hinv
    have hparts : SolvesParts jodp (PexprBestJoinOrder jodp fuel) pbs := by
      intro part hpart hpartNe s hinv
      have := Finset.card_lt_card hpart
      exact ih part s hpartNe (hpart.1.trans hpbs) (by omega) hinv
    rw [PexprBestJoinOrder]
    cases hlookup : PexprLookup jodp s pbs with
    | some result => exact .some (hinv.found_of_lookup hpbs hlookup)
    | none =>
      obtain ⟨hcard, hnone⟩ := card_ne_of_pexprLookup_none hpbs hlookup
      dsimp only
      split_ifs with hempty hcovered hpair
      · exact (pexprCross_spec hinv hne hpbs hempty).map fun _ hfound => hfound
      · refine pexprJoinCoveredSubsetWithUncoveredSubset_spec hproper hpbs hcard hnone hempty
          hcovered ?_
        exact hparts _ ((pbsCovered_subset pbs).ssubset_of_ne hcovered)
          (Finset.nonempty_iff_ne_empty.2 hempty) s hinv
      · exact pexprJoinPair_spec hinv hproper hpbs hpair hnone (not_not.1 hcovered)
      · exact pexprBestJoinOrderDP_spec hproper hpbs (not_not.1 hcovered) hcard hparts hinv hnone

/-! ## The whole search -/

/-- An order of all atoms: it contains every atom once, and applies every edge of two or more atoms
    once, at the lowest join that provides them all. -/
structure IsJoinOrder (jodp : JoinOrder Op) (pexpr : CExpression Op) (T : JoinTree) : Prop where
  expr_eq : T.expr jodp = pexpr
  atoms : T.atoms.Perm (List.range jodp.m_ulComps)
  applied : ∀ ul pedge, jodp.m_rgpedge[ul]? = some pedge → 2 ≤ pedge.m_pbs.card →
    T.applied.count ul = 1
  lowest : T.Lowest jodp

theorem Proper.isJoinOrder (h : Proper jodp) {T : JoinTree} (hsplit : Split jodp T)
    (hset : T.set = Finset.range jodp.m_ulComps) : IsJoinOrder jodp (T.expr jodp) T := by
  refine ⟨rfl, ?_, fun ul pedge hget hcard => ?_, hsplit.exact.lowest⟩
  · have hbits : bits jodp (Finset.range jodp.m_ulComps) = List.range jodp.m_ulComps :=
      List.filter_eq_self.2 fun ul hul => decide_eq_true (Finset.mem_range.2 (List.mem_range.1 hul))
    rw [← hbits, ← hset]
    exact hsplit.exact.atoms_perm
  · rw [hsplit.exact.count_applied hget, if_pos]
    exact ⟨hcard, hset ▸ h.edges pedge (List.mem_of_getElem? hget)⟩

/-- `DCost` of one expression is at most that of the other, with what has been remembered. -/
def CostsAtMost (jodp : JoinOrder Op) (s : State Op) (pexpr pexpr' : CExpression Op) : Prop :=
  ∃ dCost dCost', jodp.DCost s.m_phmexprcost pexpr = some dCost ∧
    jodp.DCost s.m_phmexprcost pexpr' = some dCost' ∧ dCost ≤ dCost'

/-- What `PexprExpand` returns, and what it has found on the way. -/
structure Expanded (jodp : JoinOrder Op) (result : Option (CExpression Op)) (s : State Op) :
    Prop where
  /-- The result and the recorded orders are orders of all atoms. -/
  orders : ∀ pexpr, result = some pexpr ∨ pexpr ∈ s.m_pdrgpexprTopKOrders →
    ∃ T, IsJoinOrder jodp pexpr T
  entered : ∀ pexpr, result = some pexpr →
    PexprLookup jodp s (Finset.range jodp.m_ulComps) = some (some pexpr)
  /-- What is found for a set is a split tree. -/
  split : ∀ pbs ⊆ Finset.range jodp.m_ulComps, ∀ pexpr, PexprLookup jodp s pbs = some (some pexpr) →
    ∃ T, Split jodp T ∧ T.set = pbs ∧ T.expr jodp = pexpr
  /-- It costs the least, among the split trees and so among the connected ones. -/
  cheapest : RowsBySet jodp → ∀ pbs ⊆ Finset.range jodp.m_ulComps, ∀ pexpr,
    PexprLookup jodp s pbs = some (some pexpr) →
    ∀ T, Split jodp T ∨ T.Exact jodp ∧ T.Connected → T.set = pbs →
      CostsAtMost jodp s pexpr (T.expr jodp)
  /-- NULL is returned only where no tree is connected. -/
  complete : ∀ T : JoinTree, T.Exact jodp → T.Connected → T.set = Finset.range jodp.m_ulComps →
    result.isSome
  /-- The recorded orders are the cheapest of those offered to `AddJoinOrder`. -/
  topKOrders : ∃ kept, kept.map Prod.fst = s.m_pdrgpexprTopKOrders ∧
    Cheapest.Kept Prod.snd topK kept s.offered
  offered : ∀ order ∈ s.offered, jodp.DCost s.m_phmexprcost order.1 = some order.2

theorem Found.expanded (hproper : Proper jodp) {result : Option (CExpression Op)}
    (h : Found jodp (Finset.range jodp.m_ulComps) State.new (result, s)) :
    Expanded jodp result s := by
  obtain ⟨hinv, -, hsolved, hlookup⟩ := h
  have hcost : ∀ T, Split jodp T →
      jodp.DCost s.m_phmexprcost (T.expr jodp) = some (jodp.Cost (T.expr jodp)) := fun T hT =>
    (hproper.costable hT.exact).dCost_eq hproper.lawful hinv.costs
  constructor
  case orders =>
    rintro pexpr (hpexpr | hpexpr)
    · obtain ⟨T, hT, hset, rfl⟩ := hsolved.sound pexpr hpexpr
      exact ⟨T, hproper.isJoinOrder hT hset⟩
    · obtain ⟨kept, hkept, hcheapest⟩ := hinv.kept
      obtain ⟨order, horder, rfl⟩ := List.mem_map.1 (hkept ▸ hpexpr)
      obtain ⟨-, T, hT, hset, hexpr⟩ := hinv.offered order (hcheapest.subset horder)
      exact ⟨T, hexpr ▸ hproper.isJoinOrder hT hset⟩
  case entered => exact hlookup
  case split => exact fun pbs hpbs pexpr hpexpr => (hinv.lookup hpbs hpexpr).sound pexpr rfl
  case cheapest =>
    intro hrows pbs hpbs pexpr hpexpr T hT hset
    have hT : Split jodp T := hT.elim id fun hT => hT.2.split hT.1
    obtain ⟨U, hU, -, rfl⟩ := (hinv.lookup hpbs hpexpr).sound pexpr rfl
    obtain ⟨_, ⟨⟩, hle⟩ := (hinv.lookup hpbs hpexpr).best T hT hset
    exact ⟨_, _, hcost U hU, hcost T hT, hle hrows⟩
  case complete =>
    intro T hexact hconnected hset
    obtain ⟨pexpr, hpexpr, -⟩ := hsolved.best T (hconnected.split hexact) hset
    dsimp only at hpexpr
    rw [hpexpr]
    rfl
  case topKOrders => exact hinv.kept
  case offered =>
    intro order horder
    obtain ⟨hdCost, T, hT, -, hexpr⟩ := hinv.offered order horder
    rw [hdCost, ← hexpr]
    exact hcost T hT

/-- Three atoms and two conjuncts, each over two neighbours. -/
def chain : JoinOrder ℕ where
  toCosting := unitCosting
  m_ulComps := 3
  m_rgpcomp ul := .node (ul + 2) []
  m_rgpedge := [⟨{0, 1}, .node 0 []⟩, ⟨{1, 2}, .node 0 []⟩]
  CLogicalInnerJoin := 1
  PexprConjunction pdrgpexpr := .node 0 pdrgpexpr

/-- All six splits of the three atoms cost the same. -/
example : (PexprExpand chain).map (fun found => (found.1.isSome, found.2.offered.map Prod.snd)) =
    some (true, [7, 7, 7, 7, 7, 7]) := by
  decide +kernel

end BossOptimizer.CJoinOrderDP

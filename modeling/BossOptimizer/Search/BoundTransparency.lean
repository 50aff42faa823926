import BossOptimizer.Search.BoundCaching

/-!
# A second call of `CostLowerBound`

What one call does to the caches: entries that are there stay, the new ones are made from numbers,
and a call for a group reaches only groups of lower rank and their expressions. So the entry under
the request of a call is the one that this call stores, and a later call returns it.
-/

namespace BossOptimizer

namespace CPartialPlan

variable {Poc Pds Rest : Type} [DecidableEq Poc] (space : SearchSpace Poc) (useMaxCosting : Bool)
  (specs : DistributionSpecs Pds) (pcm : PartialPlanCost Poc)

/-! ## The caches -/

/-- The entries are numbers, and identified keys find the same entry. -/
structure SoundCaches (caches : BoundCaches Poc Pds Rest) : Prop where
  pcostmap : ∀ pgroup prpp cost, caches.pcostmap pgroup prpp = some cost →
    ∃ d, 0 ≤ d ∧ cost = .ofDouble d
  ppartialplancostmap : ∀ ppp cost, caches.ppartialplancostmap ppp = some cost →
    ∃ d, 0 ≤ d ∧ cost = .ofDouble d
  pcostmap_respects : ∀ pgroup, Respects (fEqualForCostBounding specs) (caches.pcostmap pgroup)
  ppartialplancostmap_respects : Respects (equals specs) caches.ppartialplancostmap

/-- Entries that are there stay. -/
structure Extends (caches caches' : BoundCaches Poc Pds Rest) : Prop where
  pcostmap : ∀ pgroup, TableExtends (caches.pcostmap pgroup) (caches'.pcostmap pgroup)
  ppartialplancostmap : TableExtends caches.ppartialplancostmap caches'.ppartialplancostmap

/-- Nothing is added for groups of this rank or a higher one, nor for expressions that are in no
    group of a lower rank, enforcers apart. -/
structure SameFrom (n : ℕ) (caches caches' : BoundCaches Poc Pds Rest) : Prop where
  pcostmap : ∀ pgroup, n ≤ space.rank pgroup → caches'.pcostmap pgroup = caches.pcostmap pgroup
  ppartialplancostmap : ∀ ppp : CPartialPlan Poc Pds Rest,
    (∀ pgroup, space.rank pgroup < n → ppp.pgexpr ∈ space.gexprs pgroup →
      space.fEnforcer ppp.pgexpr = true) →
    caches'.ppartialplancostmap ppp = caches.ppartialplancostmap ppp

variable {space useMaxCosting specs pcm} {caches caches' caches'' : BoundCaches Poc Pds Rest} {n n' : ℕ}

theorem SoundCaches.empty : SoundCaches specs (BoundCaches.empty : BoundCaches Poc Pds Rest) where
  pcostmap _ _ _ h := by cases h
  ppartialplancostmap _ _ h := by cases h
  pcostmap_respects _ _ _ _ := rfl
  ppartialplancostmap_respects _ _ _ := rfl

theorem SoundCaches.insertGroup (h : SoundCaches specs caches) (pgroup : ℕ)
    (prpp : CReqdPropPlan Pds Rest) {cost : CCost} (hcost : 0 ≤ cost.dCost) :
    SoundCaches specs (caches.insertGroup specs pgroup prpp cost) where
  pcostmap pgroup' prpp' cost' hfind := by
    by_cases heq : pgroup' = pgroup
    · subst heq
      simp only [BoundCaches.insertGroup, Function.update_self] at hfind
      rcases insertNew_cases hfind with hold | rfl
      · exact h.pcostmap _ _ _ hold
      · exact ⟨_, hcost, rfl⟩
    · simp only [BoundCaches.insertGroup, Function.update_of_ne heq] at hfind
      exact h.pcostmap _ _ _ hfind
  ppartialplancostmap := h.ppartialplancostmap
  pcostmap_respects pgroup' := by
    by_cases heq : pgroup' = pgroup
    · subst heq
      simp only [BoundCaches.insertGroup, Function.update_self]
      exact (h.pcostmap_respects _).insertNew (fEqualForCostBounding_equivalence specs)
    · simp only [BoundCaches.insertGroup, Function.update_of_ne heq]
      exact h.pcostmap_respects _
  ppartialplancostmap_respects := h.ppartialplancostmap_respects

theorem SoundCaches.insertPartialPlan (h : SoundCaches specs caches)
    (ppp : CPartialPlan Poc Pds Rest) {cost : CCost} (hcost : 0 ≤ cost.dCost) :
    SoundCaches specs (caches.insertPartialPlan specs ppp cost) where
  pcostmap := h.pcostmap
  ppartialplancostmap ppp' cost' hfind := by
    rcases insertNew_cases hfind with hold | rfl
    · exact h.ppartialplancostmap _ _ hold
    · exact ⟨_, hcost, rfl⟩
  pcostmap_respects := h.pcostmap_respects
  ppartialplancostmap_respects :=
    h.ppartialplancostmap_respects.insertNew (equals_equivalence specs)

omit [DecidableEq Poc] in
theorem Extends.refl (caches : BoundCaches Poc Pds Rest) : Extends caches caches :=
  ⟨fun _ => .refl _, .refl _⟩

omit [DecidableEq Poc] in
theorem Extends.trans (h : Extends caches caches') (h' : Extends caches' caches'') :
    Extends caches caches'' :=
  ⟨fun pgroup => (h.pcostmap pgroup).trans (h'.pcostmap pgroup),
    h.ppartialplancostmap.trans h'.ppartialplancostmap⟩

omit [DecidableEq Poc] in
theorem Extends.insertGroup (caches : BoundCaches Poc Pds Rest) (pgroup : ℕ)
    (prpp : CReqdPropPlan Pds Rest) (cost : CCost) :
    Extends caches (caches.insertGroup specs pgroup prpp cost) where
  pcostmap pgroup' := by
    by_cases heq : pgroup' = pgroup
    · subst heq
      simp only [BoundCaches.insertGroup, Function.update_self]
      exact .insertNew _ _ _ _
    · simp only [BoundCaches.insertGroup, Function.update_of_ne heq]
      exact .refl _
  ppartialplancostmap := .refl _

theorem Extends.insertPartialPlan (caches : BoundCaches Poc Pds Rest)
    (ppp : CPartialPlan Poc Pds Rest) (cost : CCost) :
    Extends caches (caches.insertPartialPlan specs ppp cost) :=
  ⟨fun _ => .refl _, .insertNew _ _ _ _⟩

omit [DecidableEq Poc] in
theorem SameFrom.refl (n : ℕ) (caches : BoundCaches Poc Pds Rest) :
    SameFrom space n caches caches :=
  ⟨fun _ _ => rfl, fun _ _ => rfl⟩

omit [DecidableEq Poc] in
theorem SameFrom.trans (h : SameFrom space n caches caches') (h' : SameFrom space n caches' caches'') :
    SameFrom space n caches caches'' :=
  ⟨fun pgroup hn => (h'.pcostmap pgroup hn).trans (h.pcostmap pgroup hn),
    fun ppp hppp => (h'.ppartialplancostmap ppp hppp).trans (h.ppartialplancostmap ppp hppp)⟩

omit [DecidableEq Poc] in
theorem SameFrom.mono (h : SameFrom space n caches caches') (hn : n ≤ n') :
    SameFrom space n' caches caches' :=
  ⟨fun pgroup hrank => h.pcostmap pgroup (hn.trans hrank),
    fun ppp hppp => h.ppartialplancostmap ppp fun pgroup hrank => hppp pgroup (hrank.trans_le hn)⟩

/-! ## One call -/

/-- What a call for a group does, and that its bound compares like the one it stores. -/
structure GroupSpec (space : SearchSpace Poc) (useMaxCosting : Bool)
    (specs : DistributionSpecs Pds) (caches : BoundCaches Poc Pds Rest) (pgroup : ℕ)
    (prpp : CReqdPropPlan Pds Rest) (r : BoundCaches Poc Pds Rest × CCost) : Prop where
  sound : SoundCaches specs r.1
  keeps : Extends caches r.1
  same : SameFrom space (space.rank pgroup + 1) caches r.1
  stored : r.1.pcostmap pgroup prpp = some (.ofDouble r.2.dCost)
  plain : r.2.Plain useMaxCosting

/-- What a call for an expression does. Its bound may be tagged. -/
structure GexprSpec (space : SearchSpace Poc) (useMaxCosting : Bool)
    (specs : DistributionSpecs Pds) (caches : BoundCaches Poc Pds Rest) (n : ℕ)
    (ppp : CPartialPlan Poc Pds Rest) (r : BoundCaches Poc Pds Rest × CCost) : Prop where
  sound : SoundCaches specs r.1
  keeps : Extends caches r.1
  pcostmap : ∀ pgroup, n ≤ space.rank pgroup → r.1.pcostmap pgroup = caches.pcostmap pgroup
  ppartialplancostmap : ∀ ppp' : CPartialPlan Poc Pds Rest, ppp'.pgexpr ≠ ppp.pgexpr →
    (∀ pgroup, space.rank pgroup < n → ppp'.pgexpr ∈ space.gexprs pgroup →
      space.fEnforcer ppp'.pgexpr = true) →
    r.1.ppartialplancostmap ppp' = caches.ppartialplancostmap ppp'
  stored : r.1.ppartialplancostmap ppp = some (.ofDouble r.2.dCost)
  proper : r.2.Proper useMaxCosting

/-- The cost model returns proper costs for proper costs of the children. -/
def ProperModel (useMaxCosting : Bool) (pcm : PartialPlanCost Poc) : Prop :=
  ∀ pgexpr pcrs edpt child pdCost, (∀ c ∈ pdCost, CCost.Proper useMaxCosting c) →
    (pcm pgexpr pcrs edpt child pdCost).Proper useMaxCosting

omit [DecidableEq Poc] in
theorem withoutConstant_proper {pdCost : List CCost} {cost : CCost}
    (h : cost.Proper useMaxCosting) : (withoutConstant pdCost cost).Proper useMaxCosting := by
  unfold withoutConstant
  split
  · next hlt =>
    simp only [Bool.and_eq_true, decide_eq_true_eq] at hlt
    exact CCost.ofDouble_proper (by linarith [hlt.2])
  · exact h

/-- The bound is tagged unless the constant is taken off or the model's cost has no engine. -/
theorem withoutConstant_plain_iff {pdCost : List CCost} {cost : CCost}
    (h : cost.Proper useMaxCosting) : (withoutConstant pdCost cost).Plain useMaxCosting ↔
      (useMaxCosting = true →
        pdCost ≠ [] ∧ 1 < cost.dCost ∨ cost.engineCostMap.keys = [eetAny]) := by
  unfold withoutConstant
  split
  · next hlt =>
    simp only [Bool.and_eq_true, Bool.not_eq_true', List.isEmpty_eq_false_iff,
      decide_eq_true_eq] at hlt
    exact iff_of_true (CCost.ofDouble_plain (by linarith [hlt.2])) fun _ => .inl hlt
  · next hnot =>
    simp only [Bool.and_eq_true, Bool.not_eq_true', List.isEmpty_eq_false_iff,
      decide_eq_true_eq] at hnot
    constructor
    · exact fun hplain hmode => .inr (hplain.untagged hmode)
    · exact fun hkeys => ⟨h, fun hmode => (hkeys hmode).resolve_left hnot⟩

/-- What the bound function of groups has to do for a group. -/
def BoundsAgain (space : SearchSpace Poc) (useMaxCosting : Bool) (specs : DistributionSpecs Pds)
    (costLowerBound : BoundCaches Poc Pds Rest → ℕ → CReqdPropPlan Pds Rest →
      Option (BoundCaches Poc Pds Rest × CCost)) (pgroup : ℕ) : Prop :=
  ∀ caches prpp, SoundCaches specs caches → Ensures (costLowerBound caches pgroup prpp)
    (GroupSpec space useMaxCosting specs caches pgroup prpp)

section Gexpr

variable {costLowerBound : BoundCaches Poc Pds Rest → ℕ → CReqdPropPlan Pds Rest →
  Option (BoundCaches Poc Pds Rest × CCost)} {ppp : CPartialPlan Poc Pds Rest}

omit [DecidableEq Poc] in
/-- The children of an expression are reached by other expressions only. -/
theorem SameFrom.gexpr {child : ℕ} (hchild : child ∈ space.children ppp.pgexpr)
    (h : SameFrom space (space.rank child + 1) caches caches') (ppp' : CPartialPlan Poc Pds Rest)
    (hpgexpr : ppp'.pgexpr = ppp.pgexpr) :
    caches'.ppartialplancostmap ppp' = caches.ppartialplancostmap ppp' := by
  refine h.ppartialplancostmap ppp' fun pgroup hrank hmem => ?_
  by_contra henf
  rw [hpgexpr] at hmem henf
  have := space.rank_children pgroup ppp.pgexpr hmem (by simpa using henf) child hchild
  omega

/-- The loop over the children. -/
theorem extractChildrenCosts_spec (hsound : SoundCaches specs caches)
    (hknown : ∀ known ∈ ppp.child, known.pccChild.cost.Proper useMaxCosting)
    (hrank : ∀ child ∈ space.children ppp.pgexpr, space.rank child < n)
    (hlower : ∀ child ∈ space.children ppp.pgexpr,
      BoundsAgain space useMaxCosting specs costLowerBound child) :
    Ensures (extractChildrenCosts space costLowerBound caches ppp) fun r =>
      SoundCaches specs r.1 ∧ Extends caches r.1 ∧ SameFrom space n caches r.1 ∧
        (∀ ppp' : CPartialPlan Poc Pds Rest, ppp'.pgexpr = ppp.pgexpr →
          r.1.ppartialplancostmap ppp' = caches.ppartialplancostmap ppp') ∧
        ∀ c ∈ r.2, c.Proper useMaxCosting := by
  let inv (_ : List (ℕ × ℕ)) (acc : BoundCaches Poc Pds Rest × List CCost) : Prop :=
    SoundCaches specs acc.1 ∧ Extends caches acc.1 ∧ SameFrom space n caches acc.1 ∧
      (∀ ppp' : CPartialPlan Poc Pds Rest, ppp'.pgexpr = ppp.pgexpr →
        acc.1.ppartialplancostmap ppp' = caches.ppartialplancostmap ppp') ∧
      ∀ c ∈ acc.2, c.Proper useMaxCosting
  have hinit : inv [] (caches, []) := ⟨hsound, .refl _, .refl _ _, fun _ _ => rfl, by simp⟩
  refine Ensures.foldlM (fun done child hmem acc (hacc : inv done acc) => ?_) _ hinit
  obtain ⟨child, i⟩ := child
  obtain ⟨hsound', hkeeps, hsame, hgexpr, hproper⟩ := hacc
  have hchild : child ∈ space.children ppp.pgexpr :=
    List.mem_of_getElem? (List.mem_zipIdx_iff_getElem?.1 hmem)
  unfold extractChildCost
  split
  · next known hfilter =>
    refine .some ⟨hsound', hkeeps, hsame, hgexpr, fun c hc => ?_⟩
    rcases List.mem_append.1 hc with hc | hc
    · exact hproper c hc
    · rw [List.mem_singleton.1 hc]
      exact hknown known (Option.filter_eq_some_iff.1 hfilter).1
  · refine (hlower child hchild acc.1 _ hsound').map fun r hr => ?_
    refine ⟨hr.sound, hkeeps.trans hr.keeps, hsame.trans (hr.same.mono (hrank child hchild)), ?_, ?_⟩
    · intro ppp' hpgexpr
      exact (hr.same.gexpr hchild ppp' hpgexpr).trans (hgexpr ppp' hpgexpr)
    · intro c hc
      rcases List.mem_append.1 hc with hc | hc
      · exact hproper c hc
      · rw [List.mem_singleton.1 hc]
        exact hr.plain.toProper

/-- `CGroupExpression::CostLowerBound` stores what it returns. -/
theorem gexprCostLowerBound_spec (hpcm : ProperModel useMaxCosting pcm)
    (hsound : SoundCaches specs caches)
    (hknown : ∀ known ∈ ppp.child, known.pccChild.cost.Proper useMaxCosting)
    (hrank : ∀ child ∈ space.children ppp.pgexpr, space.rank child < n)
    (hlower : ∀ child ∈ space.children ppp.pgexpr,
      BoundsAgain space useMaxCosting specs costLowerBound child) :
    Ensures (gexprCostLowerBound space specs pcm costLowerBound caches ppp)
      (GexprSpec space useMaxCosting specs caches n ppp) := by
  unfold gexprCostLowerBound
  cases hfind : caches.ppartialplancostmap ppp with
  | some cost =>
    obtain ⟨d, hd, rfl⟩ := hsound.ppartialplancostmap ppp cost hfind
    exact .some ⟨hsound, .refl _, fun _ _ => rfl, fun _ _ _ => rfl, hfind, CCost.ofDouble_proper hd⟩
  | none =>
    unfold costCompute
    rw [Option.map_map]
    refine (extractChildrenCosts_spec hsound hknown hrank hlower).map fun r hr => ?_
    obtain ⟨hsound', hkeeps, hsame, hgexpr, hproper⟩ := hr
    have hcost : (withoutConstant r.2 (modelCost specs pcm ppp r.2)).Proper useMaxCosting :=
      withoutConstant_proper (hpcm _ _ _ _ _ hproper)
    refine
      { sound := hsound'.insertPartialPlan ppp hcost.dCost_nonneg
        keeps := hkeeps.trans (.insertPartialPlan _ _ _)
        pcostmap := hsame.pcostmap
        ppartialplancostmap := fun ppp' hne hreach => ?_
        stored := insertNew_self ((equals_equivalence specs).refl ppp) ((hgexpr ppp rfl).trans hfind)
        proper := hcost }
    have hdiffer : ppp.equals specs ppp' = false :=
      Bool.eq_false_iff.2 fun heq => hne (equals_iff.1 heq).2.1.symm
    exact (insertNew_of_ne hdiffer).trans (hsame.ppartialplancostmap ppp' hreach)

end Gexpr

/-- The loop over the expressions of a group: it reaches lower groups and the expressions of this
    one, and the bound so far is not tagged. -/
structure LoopSpec (space : SearchSpace Poc) (useMaxCosting : Bool)
    (specs : DistributionSpecs Pds) (caches : BoundCaches Poc Pds Rest) (pgroup : ℕ)
    (acc : BoundCaches Poc Pds Rest × CCost) : Prop where
  sound : SoundCaches specs acc.1
  keeps : Extends caches acc.1
  pcostmap : ∀ g, space.rank pgroup ≤ space.rank g → acc.1.pcostmap g = caches.pcostmap g
  same : SameFrom space (space.rank pgroup + 1) caches acc.1
  plain : acc.2.Plain useMaxCosting

section Group

variable {costLowerBound : BoundCaches Poc Pds Rest → ℕ → CReqdPropPlan Pds Rest →
  Option (BoundCaches Poc Pds Rest × CCost)} {pgroup pgexpr : ℕ} {prpp prpp' : CReqdPropPlan Pds Rest}

theorem LoopSpec.init (hsound : SoundCaches specs caches) :
    LoopSpec space useMaxCosting specs caches pgroup (caches, .infiniteCost) :=
  ⟨hsound, .refl _, fun _ _ => rfl, .refl _ _, CCost.ofDouble_plain (by positivity)⟩

theorem gexprStep_spec (hpcm : ProperModel useMaxCosting pcm)
    (hlower : ∀ child, space.rank child < space.rank pgroup →
      BoundsAgain space useMaxCosting specs costLowerBound child)
    (hmem : pgexpr ∈ space.gexprs pgroup) {acc : BoundCaches Poc Pds Rest × CCost}
    (h : LoopSpec space useMaxCosting specs caches pgroup acc) :
    Ensures (gexprStep space useMaxCosting specs pcm costLowerBound prpp acc pgexpr)
      (LoopSpec space useMaxCosting specs caches pgroup) := by
  unfold gexprStep
  split
  · exact .some h
  next henf =>
  have henf : space.fEnforcer pgexpr = false := by simpa using henf
  have hrank : ∀ child ∈ space.children pgexpr, space.rank child < space.rank pgroup :=
    space.rank_children pgroup pgexpr hmem henf
  have hgexpr : Ensures
      (gexprCostLowerBound space specs pcm costLowerBound acc.1 ⟨pgexpr, prpp, none⟩)
      (GexprSpec space useMaxCosting specs acc.1 (space.rank pgroup) ⟨pgexpr, prpp, none⟩) :=
    gexprCostLowerBound_spec hpcm h.sound (by simp) hrank
      fun child hchild => hlower child (hrank child hchild)
  refine hgexpr.map fun r hr => ⟨hr.sound, h.keeps.trans hr.keeps, ?_, ?_, ?_⟩
  · intro g hg
    exact (hr.pcostmap g hg).trans (h.pcostmap g hg)
  · refine h.same.trans ⟨fun g hg => hr.pcostmap g (by omega), fun ppp' hreach => ?_⟩
    refine hr.ppartialplancostmap ppp' ?_ fun g hg => hreach g (by omega)
    -- the expression itself is in this group, and no enforcer
    intro heq
    have hmem' : ppp'.pgexpr ∈ space.gexprs pgroup := heq.symm ▸ hmem
    have henf' := hreach pgroup (Nat.lt_succ_self _) hmem'
    rw [heq, henf] at henf'
    cases henf'
  · simp only
    split
    · next hlt => exact CCost.plain_of_lt hr.proper h.plain hlt
    · exact h.plain

end Group

/-- `CGroup::CostLowerBound` returns, stores what it returns, and returns no tagged bound. -/
theorem groupCostLowerBound_spec (hpcm : ProperModel useMaxCosting pcm) (fuel : ℕ) :
    ∀ pgroup, space.rank pgroup < fuel → BoundsAgain space useMaxCosting specs
      (groupCostLowerBound space useMaxCosting specs pcm fuel :
        BoundCaches Poc Pds Rest → ℕ → CReqdPropPlan Pds Rest → _) pgroup := by
  induction fuel with
  | zero => exact fun _ h => absurd h (Nat.not_lt_zero _)
  | succ fuel ih =>
    intro pgroup hrank caches prpp hsound
    rw [groupCostLowerBound]
    cases hfind : caches.pcostmap pgroup prpp with
    | some cost =>
      obtain ⟨d, hd, rfl⟩ := hsound.pcostmap pgroup prpp cost hfind
      exact .some ⟨hsound, .refl _, .refl _ _, hfind, CCost.ofDouble_plain hd⟩
    | none =>
      let inv (_ : List ℕ) := LoopSpec space useMaxCosting specs caches pgroup
      have hinit : inv [] (caches, .infiniteCost) := .init hsound
      have hloop : Ensures ((space.gexprs pgroup).foldlM (gexprStep space useMaxCosting specs pcm
          (groupCostLowerBound space useMaxCosting specs pcm fuel) prpp) (caches, .infiniteCost))
          (inv (space.gexprs pgroup)) := by
        refine Ensures.foldlM (fun _ pgexpr hmem acc hacc => ?_) _ hinit
        exact gexprStep_spec hpcm (fun child hchild => ih child (by omega)) hmem hacc
      refine hloop.map fun r hr => ?_
      refine
        { sound := hr.sound.insertGroup pgroup prpp hr.plain.dCost_nonneg
          keeps := hr.keeps.trans (.insertGroup _ _ _ _)
          same := ⟨fun g hg => ?_, hr.same.ppartialplancostmap⟩
          stored := ?_
          plain := hr.plain }
      · have hne : g ≠ pgroup := by
          rintro rfl
          omega
        simp only [BoundCaches.insertGroup, Function.update_of_ne hne]
        exact hr.same.pcostmap g hg
      · simp only [BoundCaches.insertGroup, Function.update_self]
        refine insertNew_self ((fEqualForCostBounding_equivalence specs).refl prpp) ?_
        rw [hr.pcostmap pgroup le_rfl, hfind]

/-! ## Identified requests -/

section Identified

variable {costLowerBound : BoundCaches Poc Pds Rest → ℕ → CReqdPropPlan Pds Rest →
  Option (BoundCaches Poc Pds Rest × CCost)} {ppp ppp' : CPartialPlan Poc Pds Rest}
  {prpp prpp' : CReqdPropPlan Pds Rest}

/-- Partial plans that are equal get the same bound. -/
theorem gexprCostLowerBound_congr
    (hrespects : Respects (equals specs) caches.ppartialplancostmap)
    (h : ppp.equals specs ppp' = true) :
    gexprCostLowerBound space specs pcm costLowerBound caches ppp =
      gexprCostLowerBound space specs pcm costLowerBound caches ppp' := by
  obtain ⟨hchild, hpgexpr, heq⟩ := equals_iff.1 h
  have hcols := (fEqualForCostBounding_iff.1 heq).1
  have hstep : extractChildCost space costLowerBound ppp =
      extractChildCost space costLowerBound ppp' := by
    funext acc child
    unfold extractChildCost
    rw [hchild, hpgexpr, hcols]
  have hcompute : costCompute space specs pcm costLowerBound caches ppp =
      costCompute space specs pcm costLowerBound caches ppp' := by
    unfold costCompute extractChildrenCosts
    rw [hstep, hpgexpr]
    simp only [modelCost_congr pcm h]
  have hinsert (caches : BoundCaches Poc Pds Rest) (cost : CCost) :
      caches.insertPartialPlan specs ppp cost = caches.insertPartialPlan specs ppp' cost := by
    unfold BoundCaches.insertPartialPlan
    rw [insertNew_congr (equals_equivalence specs) h]
  unfold gexprCostLowerBound
  rw [hrespects _ _ h, hcompute]
  simp only [hinsert]

/-- Requests that `FEqualForCostBounding` identifies get the same bound of a group. -/
theorem groupCostLowerBound_congr (hpcm : ProperModel useMaxCosting pcm) (fuel : ℕ) {pgroup : ℕ}
    (hrank : space.rank pgroup < fuel) (hsound : SoundCaches specs caches)
    (h : fEqualForCostBounding specs prpp prpp' = true) :
    groupCostLowerBound space useMaxCosting specs pcm fuel caches pgroup prpp =
      groupCostLowerBound space useMaxCosting specs pcm fuel caches pgroup prpp' := by
  cases fuel with
  | zero => exact absurd hrank (Nat.not_lt_zero _)
  | succ fuel =>
    have hloop : (space.gexprs pgroup).foldlM (gexprStep space useMaxCosting specs pcm
        (groupCostLowerBound space useMaxCosting specs pcm fuel) prpp) (caches, .infiniteCost) =
          (space.gexprs pgroup).foldlM (gexprStep space useMaxCosting specs pcm
            (groupCostLowerBound space useMaxCosting specs pcm fuel) prpp')
            (caches, .infiniteCost) := by
      refine Ensures.foldlM_congr (fun pgexpr hmem acc hacc => ⟨?_, gexprStep_spec hpcm
        (fun child (hchild : space.rank child < space.rank pgroup) =>
          groupCostLowerBound_spec hpcm fuel child (by omega)) hmem hacc⟩) _
        (.init hsound : LoopSpec space useMaxCosting specs caches pgroup _)
      have hequals : (⟨pgexpr, prpp, none⟩ : CPartialPlan Poc Pds Rest).equals specs
          ⟨pgexpr, prpp', none⟩ = true := equals_iff.2 ⟨rfl, rfl, h⟩
      unfold gexprStep
      rw [gexprCostLowerBound_congr hacc.sound.ppartialplancostmap_respects hequals]
    have hinsert (caches : BoundCaches Poc Pds Rest) (cost : CCost) :
        caches.insertGroup specs pgroup prpp cost = caches.insertGroup specs pgroup prpp' cost := by
      unfold BoundCaches.insertGroup
      rw [insertNew_congr (fEqualForCostBounding_equivalence specs) h]
    rw [groupCostLowerBound, groupCostLowerBound, hsound.pcostmap_respects pgroup _ _ h, hloop]
    simp only [hinsert]

end Identified

/-! ## Transparency -/

section Transparency

variable (space useMaxCosting specs pcm) (fuel : ℕ)

/-- Partial plans that are asked for: the groups of the children are within the fuel, and the cost
    of a known child is the cost of a plan. -/
structure Asked (ppp : CPartialPlan Poc Pds Rest) : Prop where
  rank : ∀ child ∈ space.children ppp.pgexpr, space.rank child < fuel
  known : ∀ known ∈ ppp.child, known.pccChild.cost.Proper useMaxCosting

/-- The caches after any calls. -/
inductive Reached : BoundCaches Poc Pds Rest → Prop where
  | empty : Reached .empty
  | group {caches r} (pgroup prpp) : Reached caches → space.rank pgroup < fuel →
      groupCostLowerBound space useMaxCosting specs pcm fuel caches pgroup prpp = some r →
      Reached r.1
  | gexpr {caches r} (ppp) : Reached caches → Asked space useMaxCosting fuel ppp →
      gexprCostLowerBound space specs pcm
        (groupCostLowerBound space useMaxCosting specs pcm fuel) caches ppp = some r →
      Reached r.1

/-- A later call returns a cost that compares like the one of the first call, and identified
    requests have the same bound. -/
structure Transparent (caches : BoundCaches Poc Pds Rest) : Prop where
  group : ∀ pgroup, space.rank pgroup < fuel → ∀ prpp, ∃ caches' cost,
    groupCostLowerBound space useMaxCosting specs pcm fuel caches pgroup prpp =
      some (caches', cost) ∧
    ∀ later, Extends caches' later → ∃ cost',
      groupCostLowerBound space useMaxCosting specs pcm fuel later pgroup prpp =
        some (later, cost') ∧ CCost.SameComparisons useMaxCosting cost cost'
  group_identified : ∀ pgroup, space.rank pgroup < fuel → ∀ prpp prpp',
    fEqualForCostBounding specs prpp prpp' = true →
    groupCostLowerBound space useMaxCosting specs pcm fuel caches pgroup prpp =
      groupCostLowerBound space useMaxCosting specs pcm fuel caches pgroup prpp'
  gexpr : ∀ ppp, Asked space useMaxCosting fuel ppp → ∃ caches' cost,
    gexprCostLowerBound space specs pcm
      (groupCostLowerBound space useMaxCosting specs pcm fuel) caches ppp =
      some (caches', cost) ∧
    ∀ later, Extends caches' later → ∃ cost',
      gexprCostLowerBound space specs pcm
        (groupCostLowerBound space useMaxCosting specs pcm fuel) later ppp =
        some (later, cost') ∧ CCost.SameComparisons useMaxCosting cost cost'
  gexpr_identified : ∀ ppp ppp' : CPartialPlan Poc Pds Rest, ppp.equals specs ppp' = true →
    gexprCostLowerBound space specs pcm
      (groupCostLowerBound space useMaxCosting specs pcm fuel) caches ppp =
    gexprCostLowerBound space specs pcm
      (groupCostLowerBound space useMaxCosting specs pcm fuel) caches ppp'

/-- No partial plan that is not cached yet costs something on an engine, unless the constant is
    taken off its cost. -/
def Untagged (caches : BoundCaches Poc Pds Rest) : Prop :=
  useMaxCosting = true → ∀ ppp, Asked space useMaxCosting fuel ppp →
    caches.ppartialplancostmap ppp = none → ∀ r,
    extractChildrenCosts space (groupCostLowerBound space useMaxCosting specs pcm fuel)
      caches ppp = some r →
    r.2 ≠ [] ∧ 1 < (modelCost specs pcm ppp r.2).dCost ∨
      (modelCost specs pcm ppp r.2).engineCostMap.keys = [eetAny]

variable {space useMaxCosting specs pcm fuel}

theorem Reached.sound (hpcm : ProperModel useMaxCosting pcm)
    (h : Reached space useMaxCosting specs pcm fuel caches) : SoundCaches specs caches := by
  induction h with
  | empty => exact .empty
  | group pgroup prpp _ hrank hcall ih =>
    obtain ⟨r, hr, hspec⟩ := groupCostLowerBound_spec hpcm fuel pgroup hrank _ prpp ih
    rw [Option.some.inj (hcall.symm.trans hr)]
    exact hspec.sound
  | gexpr ppp _ hasked hcall ih =>
    obtain ⟨r, hr, hspec⟩ := gexprCostLowerBound_spec hpcm ih hasked.known hasked.rank
      fun child hchild => groupCostLowerBound_spec hpcm fuel child (hasked.rank child hchild)
    rw [Option.some.inj (hcall.symm.trans hr)]
    exact hspec.sound

/-- A later call finds what was stored. -/
theorem gexprCostLowerBound_later {ppp : CPartialPlan Poc Pds Rest} {cost : CCost}
    {costLowerBound : BoundCaches Poc Pds Rest → ℕ → CReqdPropPlan Pds Rest →
      Option (BoundCaches Poc Pds Rest × CCost)}
    (hstored : caches.ppartialplancostmap ppp = some cost) (hlater : Extends caches caches') :
    gexprCostLowerBound space specs pcm costLowerBound caches' ppp = some (caches', cost) := by
  rw [gexprCostLowerBound, hlater.ppartialplancostmap _ _ hstored]

theorem groupCostLowerBound_later {pgroup : ℕ} {prpp : CReqdPropPlan Pds Rest} {cost : CCost}
    (hrank : space.rank pgroup < fuel) (hstored : caches.pcostmap pgroup prpp = some cost)
    (hlater : Extends caches caches') :
    groupCostLowerBound space useMaxCosting specs pcm fuel caches' pgroup prpp =
      some (caches', cost) := by
  cases fuel with
  | zero => exact absurd hrank (Nat.not_lt_zero _)
  | succ fuel => rw [groupCostLowerBound, hlater.pcostmap pgroup _ _ hstored]

/-- The first bound of an expression is tagged exactly when the cost of the cost model is and stays
    what it is. -/
theorem gexprCostLowerBound_plain_iff (hpcm : ProperModel useMaxCosting pcm)
    (hsound : SoundCaches specs caches) {ppp : CPartialPlan Poc Pds Rest}
    (hasked : Asked space useMaxCosting fuel ppp) {r : BoundCaches Poc Pds Rest × CCost}
    (hcall : gexprCostLowerBound space specs pcm
      (groupCostLowerBound space useMaxCosting specs pcm fuel) caches ppp = some r) :
    r.2.Plain useMaxCosting ↔ (useMaxCosting = true → caches.ppartialplancostmap ppp = none →
      ∀ r, extractChildrenCosts space (groupCostLowerBound space useMaxCosting specs pcm fuel)
        caches ppp = some r → r.2 ≠ [] ∧ 1 < (modelCost specs pcm ppp r.2).dCost ∨
          (modelCost specs pcm ppp r.2).engineCostMap.keys = [eetAny]) := by
  unfold gexprCostLowerBound at hcall
  cases hfind : caches.ppartialplancostmap ppp with
  | some cost =>
    rw [hfind] at hcall
    obtain rfl := Option.some.inj hcall
    obtain ⟨d, hd, rfl⟩ := hsound.ppartialplancostmap ppp cost hfind
    exact iff_of_true (CCost.ofDouble_plain hd) (by simp)
  | none =>
    rw [hfind] at hcall
    obtain ⟨children, hchildren, -, -, -, -, hproper⟩ := extractChildrenCosts_spec hsound
      hasked.known hasked.rank fun child hchild =>
        groupCostLowerBound_spec hpcm fuel child (hasked.rank child hchild)
    simp only [costCompute, hchildren, Option.map_some, Option.some.injEq] at hcall
    subst hcall
    have hmodel : (modelCost specs pcm ppp children.2).Proper useMaxCosting :=
      hpcm _ _ _ _ _ hproper
    refine (withoutConstant_plain_iff hmodel).trans ?_
    simp only [forall_const, hchildren, Option.some.injEq, forall_eq']

/-- **Cached bounds.** In every state that calls lead to, the caches of lower bounds are transparent
    exactly when, under `useMaxCosting`, no partial plan that is not cached has a tagged cost from
    the cost model, unless the constant is taken off. -/
theorem transparent_iff (space : SearchSpace Poc) (useMaxCosting : Bool)
    (specs : DistributionSpecs Pds) (pcm : PartialPlanCost Poc)
    (hpcm : ProperModel useMaxCosting pcm) (fuel : ℕ) (caches : BoundCaches Poc Pds Rest)
    (hreached : Reached space useMaxCosting specs pcm fuel caches) :
    Transparent space useMaxCosting specs pcm fuel caches ↔
      Untagged space useMaxCosting specs pcm fuel caches := by
  have hsound := hreached.sound hpcm
  constructor
  · intro h hmode ppp hasked
    obtain ⟨caches', cost, hcall, hagain⟩ := h.gexpr ppp hasked
    obtain ⟨r, hr, hspec⟩ := gexprCostLowerBound_spec hpcm hsound hasked.known hasked.rank
      fun child hchild => groupCostLowerBound_spec hpcm fuel child (hasked.rank child hchild)
    obtain rfl : r = (caches', cost) := Option.some.inj (hr.symm.trans hcall)
    obtain ⟨cost', hcall', hsame⟩ := hagain caches' (.refl _)
    rw [gexprCostLowerBound_later hspec.stored (.refl _)] at hcall'
    obtain rfl : CCost.ofDouble cost.dCost = cost' := congrArg Prod.snd (Option.some.inj hcall')
    have hplain := (CCost.sameComparisons_stored_iff hspec.proper).1 hsame
    exact (gexprCostLowerBound_plain_iff hpcm hsound hasked hcall).1 hplain hmode
  · intro h
    refine ⟨fun pgroup hrank prpp => ?_, fun pgroup hrank prpp prpp' heq =>
      groupCostLowerBound_congr hpcm fuel hrank hsound heq, fun ppp hasked => ?_,
      fun ppp ppp' heq => gexprCostLowerBound_congr hsound.ppartialplancostmap_respects heq⟩
    · obtain ⟨r, hr, hspec⟩ := groupCostLowerBound_spec hpcm fuel pgroup hrank caches prpp hsound
      refine ⟨r.1, r.2, hr, fun later hlater => ⟨_,
        groupCostLowerBound_later hrank hspec.stored hlater, ?_⟩⟩
      exact (CCost.sameComparisons_stored_iff hspec.plain.toProper).2 hspec.plain
    · obtain ⟨r, hr, hspec⟩ := gexprCostLowerBound_spec hpcm hsound hasked.known hasked.rank
        fun child hchild => groupCostLowerBound_spec hpcm fuel child (hasked.rank child hchild)
      refine ⟨r.1, r.2, hr, fun later hlater => ⟨_,
        gexprCostLowerBound_later hspec.stored hlater, ?_⟩⟩
      refine (CCost.sameComparisons_stored_iff hspec.proper).2 ?_
      exact (gexprCostLowerBound_plain_iff hpcm hsound hasked hr).2 fun hmode => h hmode ppp hasked

end Transparency

section Examples

/-- A group with one scan. -/
def oneScan : SearchSpace ℕ where
  pgroup poc := poc
  pcrsRequired _ := ∅
  ped _ := 0
  gexprs g := if g = 0 then [0] else []
  fEnforcer _ := false
  children _ := []
  fRightToLeft _ := false
  reqdCols _ _ _ := ∅
  ulConsumers _ := 0
  alternatives _ := []
  enforcers _ _ := []
  fCheckEnfdProps _ _ := true
  rank _ := 0
  mem_gexprs _ _ h := by cases h
  pgroup_pdrgpoc _ _ h := by cases h
  not_mem_pdrgpoc _ _ h := by cases h
  reqdCols_subset _ _ h := by cases h
  children_enforcer _ _ _ h := by cases h
  pcrs_enforcer _ _ h := by cases h
  rank_children _ _ _ _ _ h := by cases h

/-- Specs without columns are equal when their types are. -/
def byType : DistributionSpecs EDistributionType where
  equals pds pds' := pds = pds'
  edpt := EDistributionType.edpt
  equivalence := ⟨by simp, by simp [eq_comm], by simp +contextual⟩
  edpt_eq pds pds' h := by
    obtain rfl : pds = pds' := by simpa using h
    rfl

def scanPlan : CPartialPlan ℕ EDistributionType Unit := ⟨0, ⟨∅, none, none⟩, none⟩

/-- The scan costs 3 on the engine 0: the first call says so, and the second one does not know the
    engine any more. -/
theorem transparent_taggedScan :
    let call := gexprCostLowerBound oneScan byType (fun _ _ _ _ _ => .ofEngine 3 eetGP)
      (groupCostLowerBound oneScan true byType (fun _ _ _ _ _ => .ofEngine 3 eetGP) 1)
    (∃ caches', call .empty scanPlan = some (caches', .ofEngine 3 eetGP) ∧
      call caches' scanPlan = some (caches', .ofDouble 3)) ∧
      CCost.eq true (.ofEngine 3 eetGP) (.ofEngine 3 eetGP) = true ∧
      CCost.eq true (.ofDouble 3) (.ofEngine 3 eetGP) = false := by
  exact ⟨⟨_, rfl, rfl⟩, by decide, by decide⟩

/-- A cost model that tags no cost. -/
theorem transparent_iff_untagged :
    Transparent oneScan true byType (fun _ _ _ _ _ => .ofDouble 3) 1
      (.empty : BoundCaches ℕ EDistributionType Unit) :=
  (transparent_iff oneScan true byType (fun _ _ _ _ _ => .ofDouble 3)
    (fun _ _ _ _ _ _ => CCost.ofDouble_proper (by norm_num)) 1 .empty .empty).2
    fun _ _ _ _ _ _ => .inr rfl

end Examples

end CPartialPlan

end BossOptimizer

import BossOptimizer.Search.ContextOrder

/-!
# The context that a group keeps

`PccInsertBest` and `UpdateBestCost` over the contexts of one optimization context, in the order in
which they are costed. A context that is unbeaten is kept when it is costed first, and one that
beats all the others is kept whenever it is costed.
-/

namespace BossOptimizer

variable {Poc : Type} {useMaxCosting forceThreeStageScalarDQA : Bool}

section Kept

variable [DecidableEq Poc] {poc : COptimizationContext Poc} {pcc : CCostContext Poc}

/-- What `PccInsertBest` can do: keep the offered context, which may take the place of one that it
    beats, or keep the existing one. -/
theorem pccInsertBest_cases (useMaxCosting forceThreeStageScalarDQA : Bool)
    (poc : COptimizationContext Poc) (pcc : CCostContext Poc) :
    let inserted := pccInsertBest useMaxCosting forceThreeStageScalarDQA poc pcc
    (inserted.2 = pcc ∧ (∀ c ∈ inserted.1.sht, c = pcc ∨ c ∈ poc.sht) ∧
      (inserted.1.pccBest = poc.pccBest ∨ inserted.1.pccBest = some pcc ∧
        ∃ e ∈ poc.sht, poc.pccBest = some e ∧
          fBetterThan useMaxCosting forceThreeStageScalarDQA pcc e = true)) ∨
    (inserted.1 = poc ∧ inserted.2 ∈ poc.sht ∧
      fBetterThan useMaxCosting forceThreeStageScalarDQA pcc inserted.2 = false) := by
  intro inserted
  simp only [inserted, pccInsertBest]
  split
  · exact .inl ⟨rfl, fun c hc => List.mem_cons.1 hc, .inl rfl⟩
  next pccExisting hfind =>
  have hmem : pccExisting ∈ poc.sht := List.mem_of_find?_eq_some hfind
  split
  · next hbetter =>
    refine .inl ⟨rfl, fun c hc => (List.mem_cons.1 hc).imp id List.mem_of_mem_erase, ?_⟩
    simp only
    split
    · next heq => exact .inr ⟨rfl, pccExisting, hmem, heq, hbetter⟩
    · exact .inl rfl
  · next hnot => exact .inr ⟨rfl, hmem, Bool.eq_false_iff.2 hnot⟩

omit [DecidableEq Poc] in
/-- What is offered becomes the best or is no better than the best. -/
theorem updateBestCost_cases (forceThreeStageScalarDQA : Bool) (poc : COptimizationContext Poc)
    (hvalid : CCost.eq useMaxCosting .invalidCost pcc.cost = false) :
    let poc' := updateBestCost useMaxCosting forceThreeStageScalarDQA poc pcc
    poc'.sht = poc.sht ∧
      (poc'.pccBest = some pcc ∧
          (∀ b ∈ poc.pccBest, fBetterThan useMaxCosting forceThreeStageScalarDQA pcc b = true) ∨
        poc'.pccBest = poc.pccBest ∧ ∃ b ∈ poc.pccBest,
          fBetterThan useMaxCosting forceThreeStageScalarDQA pcc b = false) := by
  intro poc'
  simp only [poc', updateBestCost, hvalid, Bool.not_false, Bool.true_and]
  cases hbest : poc.pccBest with
  | none => simp
  | some b =>
    cases hbetter : fBetterThan useMaxCosting forceThreeStageScalarDQA pcc b with
    | true => simp [hbetter]
    | false => simp [hbetter, hbest]

/-- The tables and the best context hold what has been costed. -/
def Holds (seen : List (CCostContext Poc)) (poc : COptimizationContext Poc) : Prop :=
  (∀ c ∈ poc.sht, c ∈ seen) ∧ ∀ b ∈ poc.pccBest, b ∈ seen

variable {order seen : List (CCostContext Poc)} {top : CCostContext Poc}

/-- What the best context keeps when a costed context beats it is kept, and the tables hold what has
    been costed. -/
theorem computeCost_keeps {B : Option (CCostContext Poc) → Prop}
    (hseen : ∀ c ∈ seen, CCost.eq useMaxCosting .invalidCost c.cost = false)
    (hB : ∀ c ∈ seen, ∀ best, B best →
      (∀ b ∈ best, fBetterThan useMaxCosting forceThreeStageScalarDQA c b = true) → B (some c))
    (hpcc : pcc ∈ seen) (hsht : ∀ c ∈ poc.sht, c ∈ seen) (hbest : B poc.pccBest) :
    (∀ c ∈ (computeCost useMaxCosting forceThreeStageScalarDQA poc pcc).sht, c ∈ seen) ∧
      B (computeCost useMaxCosting forceThreeStageScalarDQA poc pcc).pccBest := by
  unfold computeCost
  split
  · exact ⟨hsht, hbest⟩
  have hcases := pccInsertBest_cases useMaxCosting forceThreeStageScalarDQA poc pcc
  generalize pccInsertBest useMaxCosting forceThreeStageScalarDQA poc pcc = inserted at hcases ⊢
  obtain ⟨poc₁, pccKept⟩ := inserted
  have hstep : pccKept ∈ seen ∧ (∀ c ∈ poc₁.sht, c ∈ seen) ∧ B poc₁.pccBest := by
    rcases hcases with ⟨hkept, hsht₁, hbest₁⟩ | ⟨hpoc, hkept, -⟩
    · obtain rfl : pccKept = pcc := hkept
      refine ⟨hpcc, fun c hc => (hsht₁ c hc).elim (· ▸ hpcc) (hsht c), ?_⟩
      rcases hbest₁ with hsame | ⟨hnew, e, -, he, hbeats⟩
      · exact hsame ▸ hbest
      · rw [show poc₁.pccBest = some pccKept from hnew]
        refine hB pccKept hpcc poc.pccBest hbest fun b hb => ?_
        exact Option.some.inj (he.symm.trans hb) ▸ hbeats
    · obtain rfl : poc₁ = poc := hpoc
      exact ⟨hsht pccKept hkept, hsht, hbest⟩
  obtain ⟨hkept, hsht₁, hbest₁⟩ := hstep
  obtain ⟨hsame, hupdate⟩ :=
    updateBestCost_cases forceThreeStageScalarDQA poc₁ (hseen pccKept hkept)
  refine ⟨hsame ▸ hsht₁, ?_⟩
  rcases hupdate with ⟨hnew, hbeats⟩ | ⟨hold, -⟩
  · exact hnew ▸ hB pccKept hkept poc₁.pccBest hbest₁ hbeats
  · exact hold ▸ hbest₁

/-- The best context stays as long as nothing that is costed beats it. -/
theorem computeCost_unbeaten
    (hr : ∀ c ∈ order, fBetterThan useMaxCosting forceThreeStageScalarDQA c top = false)
    (hvalid : ∀ c ∈ order, CCost.eq useMaxCosting .invalidCost c.cost = false)
    (hpcc : pcc ∈ order) (hsht : ∀ c ∈ poc.sht, c ∈ order) (hbest : poc.pccBest = some top) :
    let poc' := computeCost useMaxCosting forceThreeStageScalarDQA poc pcc
    (∀ c ∈ poc'.sht, c ∈ order) ∧ poc'.pccBest = some top := by
  refine computeCost_keeps (B := (· = some top)) hvalid (fun c hc best htop hbeats => ?_) hpcc hsht
    hbest
  exact absurd (hbeats top htop) (by simp [hr c hc])

theorem computeCost_holds (hseen : ∀ c ∈ seen, CCost.eq useMaxCosting .invalidCost c.cost = false)
    (hpcc : pcc ∈ seen) (h : Holds seen poc) :
    Holds seen (computeCost useMaxCosting forceThreeStageScalarDQA poc pcc) :=
  computeCost_keeps (B := fun best => ∀ b ∈ best, b ∈ seen) hseen
    (fun c hc _ _ _ b hb => by cases hb; exact hc) hpcc h.1 h.2

/-- A new context that beats all that was costed before becomes the best. -/
theorem computeCost_leads (h : Holds seen poc)
    (hnew : ∀ c ∈ seen, ¬(c.pgexpr = top.pgexpr ∧ c.pdrgpoc = top.pdrgpoc))
    (hbeats : ∀ c ∈ seen, fBetterThan useMaxCosting forceThreeStageScalarDQA top c = true)
    (hvalid : CCost.eq useMaxCosting .invalidCost top.cost = false) :
    (computeCost useMaxCosting forceThreeStageScalarDQA poc top).pccBest = some top := by
  obtain ⟨hsht, hbest⟩ := h
  have hfresh : ¬fCostContextExists top.toAlternative poc = true := by
    rw [fCostContextExists, List.any_eq_true]
    rintro ⟨c, hc, hsame⟩
    exact hnew c (hsht c hc) (by simpa using hsame)
  rw [computeCost, if_neg hfresh]
  have hcases := pccInsertBest_cases useMaxCosting forceThreeStageScalarDQA poc top
  generalize pccInsertBest useMaxCosting forceThreeStageScalarDQA poc top = inserted at hcases ⊢
  obtain ⟨poc₁, pccKept⟩ := inserted
  rcases hcases with ⟨hkept, -, hbest₁⟩ | ⟨-, hkept, hnot⟩
  · obtain rfl : pccKept = top := hkept
    obtain ⟨-, ⟨hnew, -⟩ | ⟨hold, b, hb, hnot⟩⟩ :=
        updateBestCost_cases forceThreeStageScalarDQA poc₁ hvalid
    · exact hnew
    · rcases hbest₁ with hsame | ⟨hnew, -⟩
      · exact absurd (hbeats b (hbest b (hsame ▸ hb))) (by simp [hnot])
      · exact hold.trans hnew
  · exact absurd (hbeats pccKept (hsht pccKept hkept)) (by simp [hnot])

/-- A run over contexts holds what it costed. -/
theorem foldl_holds (hseen : ∀ c ∈ seen, CCost.eq useMaxCosting .invalidCost c.cost = false)
    (run : List (CCostContext Poc)) (hrun : ∀ c ∈ run, c ∈ seen) (h : Holds seen poc) :
    Holds seen (run.foldl (computeCost useMaxCosting forceThreeStageScalarDQA) poc) := by
  induction run generalizing poc with
  | nil => exact h
  | cons c run ih =>
    exact ih (fun c' hc' => hrun c' (.tail _ hc')) (computeCost_holds hseen (hrun c (.head _)) h)

/-- In a run over contexts that do not beat it the best context stays. -/
theorem foldl_unbeaten
    (hr : ∀ c ∈ order, fBetterThan useMaxCosting forceThreeStageScalarDQA c top = false)
    (hvalid : ∀ c ∈ order, CCost.eq useMaxCosting .invalidCost c.cost = false)
    (run : List (CCostContext Poc)) (hrun : ∀ c ∈ run, c ∈ order) (hsht : ∀ c ∈ poc.sht, c ∈ order)
    (hbest : poc.pccBest = some top) :
    (run.foldl (computeCost useMaxCosting forceThreeStageScalarDQA) poc).pccBest = some top := by
  induction run generalizing poc with
  | nil => exact hbest
  | cons c run ih =>
    obtain ⟨hsht', hbest'⟩ := computeCost_unbeaten hr hvalid (hrun c (.head _)) hsht hbest
    exact ih (fun c' hc' => hrun c' (.tail _ hc')) hsht' hbest'

/-- A context that beats all that was costed before it, and is not beaten, is kept. -/
theorem keptOf_of_beats (before after : List (CCostContext Poc))
    (hbefore : ∀ c ∈ before, fBetterThan useMaxCosting forceThreeStageScalarDQA top c = true)
    (hunbeaten : ∀ c ∈ before ++ top :: after,
      fBetterThan useMaxCosting forceThreeStageScalarDQA c top = false)
    (hnew : ∀ c ∈ before, ¬(c.pgexpr = top.pgexpr ∧ c.pdrgpoc = top.pdrgpoc))
    (hvalid : ∀ c ∈ before ++ top :: after, CCost.eq useMaxCosting .invalidCost c.cost = false) :
    keptOf useMaxCosting forceThreeStageScalarDQA (before ++ top :: after) = some top := by
  have hin : ∀ c ∈ before, c ∈ before ++ top :: after := fun c hc => List.mem_append_left _ hc
  have htop : top ∈ before ++ top :: after := List.mem_append_right _ (.head _)
  have hholds : Holds before
      (before.foldl (computeCost useMaxCosting forceThreeStageScalarDQA) ⟨none, []⟩) :=
    foldl_holds (fun c hc => hvalid c (hin c hc)) before (fun _ hc => hc) ⟨by simp, by simp⟩
  rw [keptOf, List.foldl_append, List.foldl_cons]
  generalize before.foldl (computeCost useMaxCosting forceThreeStageScalarDQA) ⟨none, []⟩ = poc
    at hholds
  have hall : Holds (before ++ top :: after)
      (computeCost useMaxCosting forceThreeStageScalarDQA poc top) :=
    computeCost_holds hvalid htop
      ⟨fun c hc => hin c (hholds.1 c hc), fun b hb => hin b (hholds.2 b hb)⟩
  exact foldl_unbeaten hunbeaten hvalid after
    (fun c hc => List.mem_append_right _ (.tail top hc)) hall.1
    (computeCost_leads hholds hnew hbefore (hvalid top htop))

/-- No group expression is costed twice over the same contexts of its children: `PccComputeCost`
    leaves the second one out. -/
def CostedOnce (order : List (CCostContext Poc)) : Prop :=
  order.Pairwise fun a b => ¬(a.pgexpr = b.pgexpr ∧ a.pdrgpoc = b.pdrgpoc)

/-- The kept context does not depend on the order exactly when one context beats all the others. -/
theorem keptOf_perm_iff
    (hstrict : StrictOn (fun a b => fBetterThan useMaxCosting forceThreeStageScalarDQA a b = true)
      order) (honce : CostedOnce order)
    (hvalid : ∀ c ∈ order, CCost.eq useMaxCosting .invalidCost c.cost = false) :
    (∀ order', order'.Perm order → keptOf useMaxCosting forceThreeStageScalarDQA order' =
        keptOf useMaxCosting forceThreeStageScalarDQA order) ↔
      order = [] ∨ ∃ top, Leads
        (fun a b => fBetterThan useMaxCosting forceThreeStageScalarDQA a b = true) order top := by
  constructor
  · intro hsame
    by_cases hne : order = []
    · exact .inl hne
    refine .inr ((hstrict.exists_leads_iff hne).2 fun m m' hm hm' => ?_)
    -- an unbeaten context is kept when it is costed first
    have hkept : ∀ m, Unbeaten
        (fun a b => fBetterThan useMaxCosting forceThreeStageScalarDQA a b = true) order m →
        keptOf useMaxCosting forceThreeStageScalarDQA order = some m := by
      intro m hm
      have hperm : (m :: order.erase m).Perm order := (List.perm_cons_erase hm.1).symm
      rw [← hsame _ hperm]
      exact keptOf_of_beats [] (order.erase m) (by simp)
        (fun c hc => Bool.eq_false_iff.2 (hm.2 c (hperm.mem_iff.1 hc))) (by simp)
        (fun c hc => hvalid c (hperm.mem_iff.1 hc))
    exact Option.some.inj ((hkept m hm).symm.trans (hkept m' hm'))
  · rintro (rfl | ⟨top, htop⟩) order' hperm
    · rw [List.perm_nil.1 hperm]
    · have hkept : ∀ order', order'.Perm order →
          keptOf useMaxCosting forceThreeStageScalarDQA order' = some top := by
        intro order' hperm
        obtain ⟨before, after, rfl⟩ := List.append_of_mem (hperm.mem_iff.2 htop.1)
        have honce' : CostedOnce (before ++ top :: after) :=
          (List.Perm.pairwise_iff (fun hab hba => hab ⟨hba.1.symm, hba.2.symm⟩) hperm).2 honce
        have hnew : ∀ c ∈ before, ¬(c.pgexpr = top.pgexpr ∧ c.pdrgpoc = top.pdrgpoc) :=
          fun c hc => (List.pairwise_append.1 honce').2.2 c hc top (.head _)
        refine keptOf_of_beats before after (fun c hc => ?_) (fun c hc => ?_) hnew
          (fun c hc => hvalid c (hperm.mem_iff.1 hc))
        · refine htop.2 c (hperm.mem_iff.1 (List.mem_append_left _ hc)) ?_
          rintro rfl
          exact hnew c hc ⟨rfl, rfl⟩
        · exact Bool.eq_false_iff.2 ((htop.unbeaten hstrict).2 c (hperm.mem_iff.1 hc))
      rw [hkept order' hperm, hkept order (List.Perm.refl _)]

/-- `FBetterThan` orders the contexts strictly, and the kept one does not depend on the order in
    which they are costed. -/
structure ContextOrder (useMaxCosting forceThreeStageScalarDQA : Bool)
    (contexts : List (AnyContext Poc)) : Prop where
  answers : ∀ a ∈ contexts, ∀ b ∈ contexts, a ≠ b →
    (fBetterThanOrNull useMaxCosting forceThreeStageScalarDQA a b).isSome = true
  strict : StrictOn
    (fun a b => fBetterThanOrNull useMaxCosting forceThreeStageScalarDQA a b = some true) contexts
  kept : ∀ order, order.Perm (costed contexts) →
    keptOf useMaxCosting forceThreeStageScalarDQA order =
      keptOf useMaxCosting forceThreeStageScalarDQA (costed contexts)

/-! ## The order and the kept context -/

variable {contexts : List (AnyContext Poc)}

omit [DecidableEq Poc] in
theorem mem_costed {c : CCostContext Poc} :
    c ∈ costed contexts ↔ ∃ a ∈ contexts, a.fPruned = false ∧ a.toCCostContext = c := by
  simp [costed, and_assoc]

theorem ContextOrder.pruned (h : ContextOrder useMaxCosting forceThreeStageScalarDQA contexts) :
    ∀ a ∈ contexts, ∀ b ∈ contexts, a ≠ b → a.fPruned = true →
      tied useMaxCosting forceThreeStageScalarDQA a b = false := by
  intro a ha b hb hne hpruned
  refine Bool.eq_false_iff.2 fun htied => ?_
  have hsome := h.answers a ha b hb hne
  rw [fBetterThanOrNull, if_pos (by simp [htied, readsNull, hpruned])] at hsome
  cases hsome

theorem ContextOrder.joins (hcoherent : ∀ c ∈ contexts, c.traits.Coherent)
    (h : ContextOrder useMaxCosting forceThreeStageScalarDQA contexts) :
    ∀ a ∈ contexts, a.fPruned = false → ¬ShallowInner a.traits := by
  intro a ha hpruned hjoin
  have hforced : forced forceThreeStageScalarDQA a.traits a.traits = false :=
    Bool.eq_false_iff.2 fun h => Bool.false_ne_true ((forced_asymm (hcoherent a ha) h).symm.trans h)
  have hbetter : fBetterThan useMaxCosting forceThreeStageScalarDQA a.toCCostContext
      a.toCCostContext = true :=
    (fBetterThan_iff (hcoherent a ha)).2
      (.inr ⟨hforced, .inr ⟨costsSame_iff.2 rfl, breakTies_self hjoin⟩⟩)
  refine h.strict.irrefl ha ?_
  simp only [fBetterThanOrNull]
  rw [if_neg (by simp [readsNull, hpruned]), hbetter]

omit [DecidableEq Poc] in
/-- Among costed contexts the comparison is `Precedes`. -/
theorem NoConflict.fBetterThan_iff
    (h : NoConflict useMaxCosting forceThreeStageScalarDQA contexts)
    (hcoherent : ∀ c ∈ contexts, c.traits.Coherent) {a : CCostContext Poc}
    (ha : a ∈ costed contexts) (b : CCostContext Poc) :
    fBetterThan useMaxCosting forceThreeStageScalarDQA a b = true ↔
      Precedes useMaxCosting forceThreeStageScalarDQA a b := by
  obtain ⟨a, hmem, hpruned, rfl⟩ := mem_costed.1 ha
  exact fBetterThan_iff_precedes (hcoherent a hmem) fun _ => .inl (h.joins a hmem hpruned)

omit [DecidableEq Poc] in
theorem NoConflict.strictOn_costed
    (h : NoConflict useMaxCosting forceThreeStageScalarDQA contexts)
    (hcoherent : ∀ c ∈ contexts, c.traits.Coherent) :
    StrictOn (fun a b => fBetterThan useMaxCosting forceThreeStageScalarDQA a b = true)
      (costed contexts) := by
  have hprecedes := h.strictOn_precedes hcoherent
  constructor
  · intro a ha b hb
    rw [h.fBetterThan_iff hcoherent ha, h.fBetterThan_iff hcoherent hb]
    obtain ⟨a, hmemA, -, rfl⟩ := mem_costed.1 ha
    obtain ⟨b, hmemB, -, rfl⟩ := mem_costed.1 hb
    exact hprecedes.asymm a hmemA b hmemB
  · intro a ha b hb c hc
    rw [h.fBetterThan_iff hcoherent ha, h.fBetterThan_iff hcoherent hb,
      h.fBetterThan_iff hcoherent ha]
    obtain ⟨a, hmemA, -, rfl⟩ := mem_costed.1 ha
    obtain ⟨b, hmemB, -, rfl⟩ := mem_costed.1 hb
    obtain ⟨c, hmemC, -, rfl⟩ := mem_costed.1 hc
    exact hprecedes.trans a hmemA b hmemB c hmemC

/-- Without conflicts the kept context depends on the order unless one is ahead of all. -/
theorem NoConflict.kept_iff (h : NoConflict useMaxCosting forceThreeStageScalarDQA contexts)
    (hcoherent : ∀ c ∈ contexts, c.traits.Coherent) (honce : CostedOnce (costed contexts))
    (hvalid : ∀ c ∈ costed contexts, CCost.eq useMaxCosting .invalidCost c.cost = false) :
    (∀ order, order.Perm (costed contexts) →
      keptOf useMaxCosting forceThreeStageScalarDQA order =
        keptOf useMaxCosting forceThreeStageScalarDQA (costed contexts)) ↔
      (costed contexts = [] ∨ ∃ best, Leads
        (Precedes useMaxCosting forceThreeStageScalarDQA) (costed contexts) best) := by
  rw [keptOf_perm_iff (h.strictOn_costed hcoherent) honce hvalid]
  refine or_congr_right (exists_congr fun best => and_congr_right fun hbest => ?_)
  exact forall₂_congr fun c _ => imp_congr_right fun _ => h.fBetterThan_iff hcoherent hbest c

section Examples

/-- A join over children with the same rows, the deeper one outside. -/
def hashJoin (pgexpr : ℕ) : AnyContext ℕ where
  pgexpr := pgexpr
  ulOptReq := 0
  pdrgpoc := [10, 11]
  traits := .of (.join ⟨10, 10, 2, 1⟩) .edtSingleton false
  cost := .ofDouble 5
  fPruned := false

def tableScan (pgexpr : ℕ) (cost : ℚ) : AnyContext ℕ where
  pgexpr := pgexpr
  ulOptReq := 0
  pdrgpoc := []
  traits := .of .other .edtSingleton false
  cost := .ofDouble cost
  fPruned := false

end Examples

end Kept

end BossOptimizer

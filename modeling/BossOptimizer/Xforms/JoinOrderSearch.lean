import BossOptimizer.Xforms.JoinTrees
import BossOptimizer.Lib.Cheapest

/-!
# What the exhaustive search finds

The table maps a set of atoms to the expression of a cheapest split tree over it. The search fills
it from below, and returns NULL for a set without a split tree only. The recorded orders are the
cheapest of those offered.
-/

namespace BossOptimizer.CJoinOrderDP

variable {Op : Type} {jodp : JoinOrder Op} {s s' : State Op} {pbs : Finset ℕ}

/-! ## Solutions -/

/-- A result for a set is a split tree, and a cheapest one; NULL means that there is none. -/
structure Solved (jodp : JoinOrder Op) (pbs : Finset ℕ) (result : Option (CExpression Op)) :
    Prop where
  sound : ∀ pexpr, result = some pexpr →
    ∃ T, Split jodp T ∧ T.set = pbs ∧ T.expr jodp = pexpr
  best : ∀ T, Split jodp T → T.set = pbs → ∃ pexpr, result = some pexpr ∧
    (RowsBySet jodp → jodp.Cost pexpr ≤ jodp.Cost (T.expr jodp))

theorem solved_atom {ul : ℕ} (hul : ul < jodp.m_ulComps) :
    Solved jodp {ul} (some (jodp.m_rgpcomp ul)) := by
  constructor
  · rintro _ ⟨⟩
    exact ⟨.atom ul, .atom ul hul, rfl, rfl⟩
  · intro T hT hset
    rw [hT.eq_atom hset]
    exact ⟨_, rfl, fun _ => le_rfl⟩

/-- A set without edges has one split tree only. -/
theorem solved_crossTree (hne : pbs.Nonempty) (hpbs : pbs ⊆ Finset.range jodp.m_ulComps)
    (hcovered : PbsCovered jodp pbs = ∅) :
    Solved jodp pbs (some ((crossTree jodp pbs).expr jodp)) := by
  constructor
  · rintro _ ⟨⟩
    exact ⟨_, .product pbs hne hpbs hcovered, (exact_crossTree hne hpbs hcovered).2, rfl⟩
  · rintro T hT rfl
    rw [← hT.eq_crossTree hcovered]
    exact ⟨_, rfl, fun _ => le_rfl⟩

/-- The join of cheapest sides is as cheap as that of any trees over the same sets. -/
theorem Proper.cost_join_le (h : Proper jodp) {left right left' right' : JoinTree}
    {edges edges' : List ℕ} (hleft : left.Exact jodp) (hright : right.Exact jodp)
    (hleft' : left'.Exact jodp) (hright' : right'.Exact jodp) (hsetLeft : left.set = left'.set)
    (hsetRight : right.set = right'.set) (hrows : RowsBySet jodp)
    (hcostLeft : jodp.Cost (left.expr jodp) ≤ jodp.Cost (left'.expr jodp))
    (hcostRight : jodp.Cost (right.expr jodp) ≤ jodp.Cost (right'.expr jodp)) :
    jodp.Cost ((JoinTree.join edges left right).expr jodp) ≤
      jodp.Cost ((JoinTree.join edges' left' right').expr jodp) := by
  rw [h.cost_join hleft hright, h.cost_join hleft' hright', hrows left left' hleft hleft' hsetLeft,
    hrows right right' hright hright' hsetRight]
  gcongr

/-! ## The table -/

theorem pexprLookup_atom {ul : ℕ} (hul : ul < jodp.m_ulComps) :
    PexprLookup jodp s {ul} = some (some (jodp.m_rgpcomp ul)) := by
  have hbits : bits jodp {ul} = [ul] := by
    refine eq_singleton_of_nodup (nodup_bits _) (mem_bits.2 ⟨hul, Finset.mem_singleton_self ul⟩) ?_
    exact fun ul' hul' => Finset.mem_singleton.1 (mem_bits.1 hul').2
  rw [PexprLookup, if_pos (Finset.card_singleton ul), hbits]
  rfl

theorem pexprLookup_of_card_ne (h : pbs.card ≠ 1) :
    PexprLookup jodp s pbs = s.m_phmbsexpr pbs := if_neg h

/-- A set that is not found has at least two atoms and no entry. -/
theorem card_ne_of_pexprLookup_none (hpbs : pbs ⊆ Finset.range jodp.m_ulComps)
    (h : PexprLookup jodp s pbs = none) : pbs.card ≠ 1 ∧ s.m_phmbsexpr pbs = none := by
  have hcard : pbs.card ≠ 1 := by
    intro hone
    obtain ⟨ul, rfl⟩ := Finset.card_eq_one.1 hone
    rw [pexprLookup_atom (Finset.mem_range.1 (hpbs (Finset.mem_singleton_self ul)))] at h
    cases h
  exact ⟨hcard, pexprLookup_of_card_ne hcard ▸ h⟩

/-- The table has grown, by subsets of a set only. -/
structure Grows (pbs : Finset ℕ) (s s' : State Op) : Prop where
  keeps : ∀ key result, s.m_phmbsexpr key = some result → s'.m_phmbsexpr key = some result
  frame : ∀ key, ¬key ⊆ pbs → s'.m_phmbsexpr key = s.m_phmbsexpr key

theorem Grows.of_eq (h : s'.m_phmbsexpr = s.m_phmbsexpr) : Grows pbs s s' :=
  ⟨fun _ _ hkey => h ▸ hkey, fun _ _ => h ▸ rfl⟩

theorem Grows.refl (pbs : Finset ℕ) (s : State Op) : Grows pbs s s := .of_eq rfl

theorem Grows.trans {s'' : State Op} (h : Grows pbs s s') (h' : Grows pbs s' s'') :
    Grows pbs s s'' :=
  ⟨fun key result hkey => h'.keeps key result (h.keeps key result hkey),
    fun key hkey => (h'.frame key hkey).trans (h.frame key hkey)⟩

theorem Grows.mono {pbs' : Finset ℕ} (h : Grows pbs s s') (hsubset : pbs ⊆ pbs') :
    Grows pbs' s s' :=
  ⟨h.keeps, fun key hkey => h.frame key fun hkey' => hkey (hkey'.trans hsubset)⟩

theorem Grows.lookup (h : Grows pbs s s') {key : Finset ℕ} {result : Option (CExpression Op)}
    (hkey : PexprLookup jodp s key = some result) : PexprLookup jodp s' key = some result := by
  by_cases hcard : key.card = 1
  · rw [PexprLookup, if_pos hcard] at hkey ⊢
    exact hkey
  · rw [pexprLookup_of_card_ne hcard] at hkey ⊢
    exact h.keeps key result hkey

theorem grows_insert (s : State Op) (pbs : Finset ℕ) (result : Option (CExpression Op)) :
    Grows pbs s (s.insert pbs result) := by
  constructor
  · intro key old hkey
    have hcond : ¬(key = pbs ∧ s.m_phmbsexpr key = none) := by
      rintro ⟨-, hnone⟩
      rw [hnone] at hkey
      cases hkey
    exact (if_neg hcond).trans hkey
  · intro key hkey
    have hcond : ¬(key = pbs ∧ s.m_phmbsexpr key = none) := by
      rintro ⟨rfl, -⟩
      exact hkey subset_rfl
    exact if_neg hcond

theorem pexprLookup_insert {result : Option (CExpression Op)} (hcard : pbs.card ≠ 1)
    (h : s.m_phmbsexpr pbs = none) : PexprLookup jodp (s.insert pbs result) pbs = some result := by
  rw [pexprLookup_of_card_ne hcard]
  exact if_pos ⟨rfl, h⟩

/-! ## The invariant -/

/-- What holds between two steps of the search. -/
structure Inv (jodp : JoinOrder Op) (s : State Op) : Prop where
  table : ∀ pbs result, s.m_phmbsexpr pbs = some result → Solved jodp pbs result
  costs : jodp.Remembers s.m_phmexprcost
  offered : ∀ order ∈ s.offered, order.2 = jodp.Cost order.1 ∧
    ∃ T, Split jodp T ∧ T.set = Finset.range jodp.m_ulComps ∧ T.expr jodp = order.1
  kept : ∃ kept, kept.map Prod.fst = s.m_pdrgpexprTopKOrders ∧
    Cheapest.Kept Prod.snd topK kept s.offered
  found : ∀ pexpr ∈ s.m_pdrgpexprTopKOrders, (jodp.Find s.m_phmexprcost pexpr).isSome

theorem inv_new (jodp : JoinOrder Op) : Inv jodp State.new :=
  ⟨nofun, nofun, nofun, ⟨[], rfl, .nil⟩, nofun⟩

theorem Inv.insert (h : Inv jodp s) {result : Option (CExpression Op)}
    (hresult : Solved jodp pbs result) : Inv jodp (s.insert pbs result) := by
  refine ⟨fun key result' hkey => ?_, h.costs, h.offered, h.kept, h.found⟩
  rw [State.insert] at hkey
  dsimp only at hkey
  split_ifs at hkey with hcond
  · obtain ⟨rfl, -⟩ := hcond
    cases hkey
    exact hresult
  · exact h.table key result' hkey

theorem Inv.insertExpressionCost (h : Inv jodp s) {pexpr : CExpression Op} {dCost : ℚ}
    (hcost : dCost = jodp.Cost pexpr) :
    Inv jodp { s with
      m_phmexprcost := jodp.InsertExpressionCost pexpr dCost s.m_phmexprcost } :=
  ⟨h.table, h.costs.insert hcost, h.offered, h.kept,
    fun pexpr hpexpr => Costing.isSome_find_insert (h.found pexpr hpexpr)⟩

theorem Inv.lookup (h : Inv jodp s) (hpbs : pbs ⊆ Finset.range jodp.m_ulComps)
    {result : Option (CExpression Op)} (hlookup : PexprLookup jodp s pbs = some result) :
    Solved jodp pbs result := by
  by_cases hcard : pbs.card = 1
  · obtain ⟨ul, rfl⟩ := Finset.card_eq_one.1 hcard
    have hul := Finset.mem_range.1 (hpbs (Finset.mem_singleton_self ul))
    rw [pexprLookup_atom hul] at hlookup
    cases hlookup
    exact solved_atom hul
  · rw [pexprLookup_of_card_ne hcard] at hlookup
    exact h.table pbs result hlookup

/-! ## The recorded orders -/

/-- The loop of `AddJoinOrder` finds a most expensive order among those that cost more than the new
one, if there is one. -/
theorem replacePos_spec {m_phmexprcost : List (CExpression Op × ℚ)} {dCost : ℚ} :
    ∀ (orders : List (CExpression Op × ℕ)) (dmaxCost : ℚ) (iReplacePos : Option ℕ),
      (∀ order ∈ orders, jodp.Find m_phmexprcost order.1 = some (jodp.Cost order.1)) →
      Ensures (replacePos jodp m_phmexprcost dCost orders dmaxCost iReplacePos) fun result =>
        (result = iReplacePos ∧ ∀ order ∈ orders, jodp.Cost order.1 ≤ max dmaxCost dCost) ∨
        ∃ order ∈ orders, result = some order.2 ∧ dmaxCost < jodp.Cost order.1 ∧
          dCost < jodp.Cost order.1 ∧ ∀ other ∈ orders, jodp.Cost other.1 ≤ jodp.Cost order.1 := by
  intro orders
  induction orders with
  | nil => exact fun _ _ _ => .some (.inl ⟨rfl, nofun⟩)
  | cons order orders ih =>
    intro dmaxCost iReplacePos hfind
    obtain ⟨hfirst, hrest⟩ := List.forall_mem_cons.1 hfind
    rw [replacePos, hfirst, Option.bind_some]
    split_ifs with hworse
    · -- The order is the worst one so far.
      refine (ih _ _ hrest).mono fun result hresult => .inr ?_
      rcases hresult with ⟨rfl, hall⟩ | ⟨worst, hmem, rfl, hmax, hcost, hall⟩
      · refine ⟨order, List.mem_cons_self, rfl, hworse.1, hworse.2,
          List.forall_mem_cons.2 ⟨le_rfl, fun other hother => (hall other hother).trans ?_⟩⟩
        exact max_le le_rfl hworse.2.le
      · exact ⟨worst, List.mem_cons_of_mem _ hmem, rfl, hworse.1.trans hmax, hcost,
          List.forall_mem_cons.2 ⟨hmax.le, hall⟩⟩
    · have hle : jodp.Cost order.1 ≤ max dmaxCost dCost := by
        rw [le_max_iff]
        by_contra hcon
        rw [not_or, not_le, not_le] at hcon
        exact hworse hcon
      refine (ih _ _ hrest).mono fun result hresult => ?_
      rcases hresult with ⟨rfl, hall⟩ | ⟨worst, hmem, rfl, hmax, hcost, hall⟩
      · exact .inl ⟨rfl, List.forall_mem_cons.2 ⟨hle, hall⟩⟩
      · exact .inr ⟨worst, List.mem_cons_of_mem _ hmem, rfl, hmax, hcost,
          List.forall_mem_cons.2 ⟨hle.trans (max_le hmax.le hcost.le), hall⟩⟩

/-- **`AddJoinOrder` keeps the cheapest orders.** -/
theorem Inv.addJoinOrder (h : Inv jodp s) (hproper : Proper jodp) {T : JoinTree}
    (hsplit : Split jodp T) (hset : T.set = Finset.range jodp.m_ulComps) :
    Ensures (AddJoinOrder jodp (T.expr jodp) (jodp.Cost (T.expr jodp)) s) fun s' =>
      Inv jodp s' ∧ s'.m_phmbsexpr = s.m_phmbsexpr := by
  obtain ⟨kept, hkept, hcheapest⟩ := h.kept
  have hoffered : ∀ order ∈ s.offered ++ [(T.expr jodp, jodp.Cost (T.expr jodp))],
      order.2 = jodp.Cost order.1 ∧
        ∃ T, Split jodp T ∧ T.set = Finset.range jodp.m_ulComps ∧ T.expr jodp = order.1 := by
    intro order hmem
    rcases List.mem_append.1 hmem with hold | hnew
    · exact h.offered order hold
    · rw [List.mem_singleton.1 hnew]
      exact ⟨rfl, T, hsplit, hset, rfl⟩
  have hcost : ∀ order ∈ kept, order.2 = jodp.Cost order.1 := fun order horder =>
    (h.offered order (hcheapest.subset horder)).1
  have hlength : s.m_pdrgpexprTopKOrders.length = kept.length := by
    rw [← hkept, List.length_map]
  rw [AddJoinOrder]
  dsimp only
  split_ifs with hroom
  · refine .some ⟨⟨h.table, h.costs.insert rfl, hoffered,
      ⟨kept ++ [(T.expr jodp, jodp.Cost (T.expr jodp))], ?_, hcheapest.snoc (hlength ▸ hroom)⟩,
      fun pexpr hmem => ?_⟩, rfl⟩
    · rw [List.map_append, hkept, List.map_singleton]
    · rcases List.mem_append.1 hmem with hold | hnew
      · exact Costing.isSome_find_insert (h.found pexpr hold)
      · rw [List.mem_singleton.1 hnew]
        exact Costing.isSome_find_insert_self _ _
  · have hfull : topK ≤ kept.length := hlength ▸ not_lt.1 hroom
    have hfind : ∀ order ∈ s.m_pdrgpexprTopKOrders.zipIdx,
        jodp.Find s.m_phmexprcost order.1 = some (jodp.Cost order.1) := by
      intro order horder
      obtain ⟨d, hd⟩ := Option.isSome_iff_exists.1
        (h.found order.1 (List.fst_mem_of_mem_zipIdx horder))
      rw [hd, h.costs.find_eq hproper.lawful hd]
    have hrecorded : ∀ order ∈ kept, ∃ recorded ∈ s.m_pdrgpexprTopKOrders.zipIdx,
        order.2 = jodp.Cost recorded.1 := by
      intro order horder
      obtain ⟨i, hi⟩ := List.mem_iff_getElem?.1 (hkept ▸ List.mem_map_of_mem horder)
      exact ⟨(order.1, i), List.mk_mem_zipIdx_iff_getElem?.2 hi, hcost order horder⟩
    refine (replacePos_spec _ 0 none hfind).map fun result hresult => ?_
    rcases hresult with ⟨rfl, hall⟩ | ⟨worst, hmem, rfl, -, hworse, hall⟩
    · refine ⟨⟨h.table, h.costs, hoffered,
        ⟨kept, hkept, hcheapest.pass hfull fun order horder => ?_⟩, h.found⟩, rfl⟩
      obtain ⟨recorded, hmem, heq⟩ := hrecorded order horder
      rw [heq]
      exact (hall recorded hmem).trans (max_le (hproper.cost_nonneg _) le_rfl)
    · have hget := List.mk_mem_zipIdx_iff_getElem?.1 hmem
      rw [← hkept, List.getElem?_map, Option.map_eq_some_iff] at hget
      obtain ⟨order, horder, hfst⟩ := hget
      have horderCost : order.2 = jodp.Cost worst.1 :=
        hfst ▸ hcost order (List.mem_of_getElem? horder)
      refine ⟨⟨h.table, h.costs.insert rfl, hoffered,
        ⟨kept.set worst.2 (T.expr jodp, jodp.Cost (T.expr jodp)), ?_,
          hcheapest.replace hfull horder (fun other hother => ?_) ?_⟩, fun pexpr hpexpr => ?_⟩, rfl⟩
      · rw [List.map_set, hkept]
      · obtain ⟨recorded, hmem', heq⟩ := hrecorded other hother
        rw [heq, horderCost]
        exact hall recorded hmem'
      · rw [horderCost]
        exact hworse.le
      · rcases List.mem_or_eq_of_mem_set hpexpr with hold | rfl
        · exact Costing.isSome_find_insert (h.found pexpr hold)
        · exact Costing.isSome_find_insert_self _ _

end BossOptimizer.CJoinOrderDP

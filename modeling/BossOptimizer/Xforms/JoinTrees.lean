import BossOptimizer.Xforms.JoinCosting
import Mathlib.Algebra.Order.BigOperators.Group.List

/-!
# Join trees

A join order is read as a tree over the numbers of the atoms, in which every join names the edges
that it applies. An exact tree applies each edge where all its atoms come together. The search goes
over split trees: a set that edges cover is split where an edge connects the two sides; of any other
set, the covered part is joined with the product of the other atoms.
-/

namespace BossOptimizer.CJoinOrderDP

variable {Op : Type}

/-- A join order. -/
inductive JoinTree where
  | atom (ul : ℕ)
  | join (edges : List ℕ) (left right : JoinTree)

namespace JoinTree

/-- The set of atoms. -/
def set : JoinTree → Finset ℕ
  | atom ul => {ul}
  | join _ left right => left.set ∪ right.set

/-- The atoms, from left to right. -/
def atoms : JoinTree → List ℕ
  | atom ul => [ul]
  | join _ left right => left.atoms ++ right.atoms

/-- The edges that are applied. -/
def applied : JoinTree → List ℕ
  | atom _ => []
  | join edges left right => edges ++ (left.applied ++ right.applied)

/-- The expression of a join order. -/
def expr (jodp : JoinOrder Op) : JoinTree → CExpression Op
  | atom ul => jodp.m_rgpcomp ul
  | join edges left right =>
    PexprLogicalJoin jodp (left.expr jodp) (right.expr jodp) (edgePred jodp edges)

/-- Every join applies the edges that have all their atoms below it, but not all on one side. -/
def Lowest (jodp : JoinOrder Op) : JoinTree → Prop
  | atom _ => True
  | join edges left right =>
    (∀ ul, ul ∈ edges ↔ ∃ pedge, jodp.m_rgpedge[ul]? = some pedge ∧
        pedge.m_pbs ⊆ left.set ∪ right.set ∧ ¬pedge.m_pbs ⊆ left.set ∧
        ¬pedge.m_pbs ⊆ right.set) ∧
      left.Lowest jodp ∧ right.Lowest jodp

/-- A tree over distinct atoms whose joins apply the edges that connect their two sides. -/
def Exact (jodp : JoinOrder Op) : JoinTree → Prop
  | atom ul => ul < jodp.m_ulComps
  | join edges left right =>
    Disjoint left.set right.set ∧ edges = connectingEdges jodp left.set right.set ∧
      left.Exact jodp ∧ right.Exact jodp

/-- Edges connect the two sides of every join. -/
def Connected : JoinTree → Prop
  | atom _ => True
  | join edges left right => edges ≠ [] ∧ left.Connected ∧ right.Connected

end JoinTree

variable {jodp : JoinOrder Op} {T : JoinTree}

/-! ## Sets of atoms -/

variable {pbs : Finset ℕ}

theorem mem_bits {ul : ℕ} :
    ul ∈ bits jodp pbs ↔ ul < jodp.m_ulComps ∧ ul ∈ pbs := by
  rw [bits, List.mem_filter, List.mem_range, decide_eq_true_iff]

theorem nodup_bits (pbs : Finset ℕ) : (bits jodp pbs).Nodup :=
  List.nodup_range.filter _

theorem toFinset_bits (h : pbs ⊆ Finset.range jodp.m_ulComps) :
    (bits jodp pbs).toFinset = pbs := by
  ext ul
  rw [List.mem_toFinset, mem_bits]
  exact ⟨fun hul => hul.2, fun hul => ⟨Finset.mem_range.1 (h hul), hul⟩⟩

theorem length_bits (h : pbs ⊆ Finset.range jodp.m_ulComps) :
    (bits jodp pbs).length = pbs.card := by
  rw [← List.toFinset_card_of_nodup (nodup_bits pbs), toFinset_bits h]

namespace JoinTree

theorem set_nonempty (T : JoinTree) : T.set.Nonempty := by
  induction T with
  | atom ul => exact Finset.singleton_nonempty ul
  | join edges left right ihl _ => exact ihl.mono Finset.subset_union_left

theorem toFinset_atoms (T : JoinTree) : T.atoms.toFinset = T.set := by
  induction T with
  | atom ul => rfl
  | join edges left right ihl ihr => rw [atoms, List.toFinset_append, ihl, ihr, set]

theorem Exact.set_subset (h : T.Exact jodp) : T.set ⊆ Finset.range jodp.m_ulComps := by
  induction T with
  | atom ul => exact Finset.singleton_subset_iff.2 (Finset.mem_range.2 h)
  | join edges left right ihl ihr => exact Finset.union_subset (ihl h.2.2.1) (ihr h.2.2.2)

theorem Exact.nodup_atoms (h : T.Exact jodp) : T.atoms.Nodup := by
  induction T with
  | atom ul => exact List.nodup_singleton ul
  | join edges left right ihl ihr =>
    obtain ⟨hdisjoint, -, hleft, hright⟩ := h
    rw [atoms, List.nodup_append']
    refine ⟨ihl hleft, ihr hright, ?_⟩
    rw [← List.disjoint_toFinset_iff_disjoint, toFinset_atoms, toFinset_atoms]
    exact hdisjoint

/-- **An exact tree contains every atom of its set exactly once.** -/
theorem Exact.atoms_perm (h : T.Exact jodp) : T.atoms.Perm (bits jodp T.set) := by
  rw [List.perm_ext_iff_of_nodup h.nodup_atoms (nodup_bits _)]
  intro ul
  rw [← List.mem_toFinset, toFinset_atoms, ← List.mem_toFinset, toFinset_bits h.set_subset]

end JoinTree

/-! ## The edges that connect two sets -/

variable {pbsFst pbsSnd : Finset ℕ}

theorem mem_connectingEdges {ul : ℕ} :
    ul ∈ connectingEdges jodp pbsFst pbsSnd ↔ ∃ pedge, jodp.m_rgpedge[ul]? = some pedge ∧
      pedge.m_pbs ⊆ pbsFst ∪ pbsSnd ∧ ¬Disjoint pbsFst pedge.m_pbs ∧
      ¬Disjoint pbsSnd pedge.m_pbs := by
  rw [connectingEdges, List.mem_map]
  constructor
  · rintro ⟨⟨pedge, ul'⟩, hmem, rfl⟩
    obtain ⟨hget, hconnects⟩ := List.mem_filter.1 hmem
    exact ⟨pedge, List.mk_mem_zipIdx_iff_getElem?.1 hget, of_decide_eq_true hconnects⟩
  · rintro ⟨pedge, hget, hconnects⟩
    exact ⟨(pedge, ul), List.mem_filter.2 ⟨List.mk_mem_zipIdx_iff_getElem?.2 hget,
      decide_eq_true hconnects⟩, rfl⟩

theorem nodup_connectingEdges (pbsFst pbsSnd : Finset ℕ) :
    (connectingEdges jodp pbsFst pbsSnd).Nodup := by
  have hnodup : (jodp.m_rgpedge.zipIdx.map Prod.snd).Nodup := by
    rw [List.zipIdx_map_snd]
    exact List.nodup_range'
  exact hnodup.sublist (List.filter_sublist.map Prod.snd)

theorem connectingEdges_comm (pbsFst pbsSnd : Finset ℕ) :
    connectingEdges jodp pbsFst pbsSnd = connectingEdges jodp pbsSnd pbsFst := by
  rw [connectingEdges, connectingEdges]
  congr 1
  refine List.filter_congr fun pedge _ => decide_eq_decide.2 ?_
  rw [Finset.union_comm, and_comm (a := ¬Disjoint pbsFst pedge.1.m_pbs)]

/-- In a disjoint union, an edge that meets both sides is one that neither side contains. -/
theorem not_subset_iff_of_disjoint {s t pbs : Finset ℕ} (hst : Disjoint s t) (h : pbs ⊆ s ∪ t) :
    ¬Disjoint s pbs ↔ ¬pbs ⊆ t := by
  rw [not_iff_not]
  constructor
  · intro hdisjoint ul hul
    rcases Finset.mem_union.1 (h hul) with hs | ht
    · exact absurd hul (Finset.disjoint_left.1 hdisjoint hs)
    · exact ht
  · exact fun hsubset => Finset.disjoint_of_subset_right hsubset hst

/-- A set of at most one element is on one side. -/
theorem subset_or_subset_of_card {s t pbs : Finset ℕ} (hcard : pbs.card ≤ 1) (h : pbs ⊆ s ∪ t) :
    pbs ⊆ s ∨ pbs ⊆ t := by
  obtain ⟨a, ha⟩ := Finset.card_le_one_iff_subset_singleton.1 hcard
  rcases Finset.subset_singleton_iff.1 ha with rfl | rfl
  · exact .inl (Finset.empty_subset s)
  · rw [Finset.singleton_subset_iff, Finset.singleton_subset_iff]
    exact Finset.mem_union.1 (Finset.singleton_subset_iff.1 h)

theorem not_subset_of_disjoint {s t pbs : Finset ℕ} (hst : Disjoint s t) (hcard : 2 ≤ pbs.card)
    (h : pbs ⊆ s) : ¬pbs ⊆ t := by
  intro h'
  have hempty : pbs = ∅ := Finset.subset_empty.1 (hst h h')
  rw [hempty, Finset.card_empty] at hcard
  omega

theorem mem_connectingEdges_of_disjoint (hdisjoint : Disjoint pbsFst pbsSnd) {ul : ℕ} :
    ul ∈ connectingEdges jodp pbsFst pbsSnd ↔ ∃ pedge, jodp.m_rgpedge[ul]? = some pedge ∧
      pedge.m_pbs ⊆ pbsFst ∪ pbsSnd ∧ ¬pedge.m_pbs ⊆ pbsFst ∧ ¬pedge.m_pbs ⊆ pbsSnd := by
  rw [mem_connectingEdges]
  refine exists_congr fun pedge => and_congr_right fun _ => and_congr_right fun hsubset => ?_
  rw [not_subset_iff_of_disjoint hdisjoint hsubset,
    not_subset_iff_of_disjoint hdisjoint.symm (Finset.union_comm pbsFst pbsSnd ▸ hsubset), and_comm]

namespace JoinTree

theorem Exact.lowest (h : T.Exact jodp) : T.Lowest jodp := by
  induction T with
  | atom ul => trivial
  | join edges left right ihl ihr =>
    obtain ⟨hdisjoint, rfl, hleft, hright⟩ := h
    exact ⟨fun ul => mem_connectingEdges_of_disjoint hdisjoint, ihl hleft, ihr hright⟩

theorem count_connectingEdges {pbsFst pbsSnd : Finset ℕ} (hdisjoint : Disjoint pbsFst pbsSnd)
    {ul : ℕ} {pedge : SEdge Op} (hget : jodp.m_rgpedge[ul]? = some pedge) :
    (connectingEdges jodp pbsFst pbsSnd).count ul =
      if pedge.m_pbs ⊆ pbsFst ∪ pbsSnd ∧ ¬pedge.m_pbs ⊆ pbsFst ∧ ¬pedge.m_pbs ⊆ pbsSnd then 1
      else 0 := by
  have hmem : ul ∈ connectingEdges jodp pbsFst pbsSnd ↔
      pedge.m_pbs ⊆ pbsFst ∪ pbsSnd ∧ ¬pedge.m_pbs ⊆ pbsFst ∧ ¬pedge.m_pbs ⊆ pbsSnd := by
    rw [mem_connectingEdges_of_disjoint hdisjoint, hget]
    simp only [Option.some.injEq, exists_eq_left']
  split_ifs with h
  · exact List.count_eq_one_of_mem (nodup_connectingEdges _ _) (hmem.2 h)
  · exact List.count_eq_zero_of_not_mem fun hul => h (hmem.1 hul)

/-- **An exact tree applies every edge of two or more of its atoms exactly once**, and no other. -/
theorem Exact.count_applied (h : T.Exact jodp) {ul : ℕ} {pedge : SEdge Op}
    (hget : jodp.m_rgpedge[ul]? = some pedge) :
    T.applied.count ul = if 2 ≤ pedge.m_pbs.card ∧ pedge.m_pbs ⊆ T.set then 1 else 0 := by
  induction T with
  | atom ul' =>
    rw [if_neg]
    · rfl
    · rintro ⟨hcard, hsubset⟩
      have := Finset.card_le_card hsubset
      rw [set, Finset.card_singleton] at this
      omega
  | join edges left right ihl ihr =>
    obtain ⟨hdisjoint, rfl, hleft, hright⟩ := h
    rw [applied, List.count_append, List.count_append, count_connectingEdges hdisjoint hget,
      ihl hleft, ihr hright, set]
    -- The edge is too small, or below the left side, the right side, both only or neither.
    by_cases hcard : 2 ≤ pedge.m_pbs.card
    · by_cases hl : pedge.m_pbs ⊆ left.set
      · have hr := not_subset_of_disjoint hdisjoint hcard hl
        simp [hcard, hl, hr, hl.trans Finset.subset_union_left]
      · by_cases hr : pedge.m_pbs ⊆ right.set
        · simp [hcard, hl, hr, hr.trans Finset.subset_union_right]
        · simp [hcard, hl, hr]
    · have hside : pedge.m_pbs ⊆ left.set ∪ right.set →
          pedge.m_pbs ⊆ left.set ∨ pedge.m_pbs ⊆ right.set := subset_or_subset_of_card (by omega)
      rw [if_neg fun h => (hside h.1).elim h.2.1 h.2.2, if_neg fun h => hcard h.1,
        if_neg fun h => hcard h.1, if_neg fun h => hcard h.1]

end JoinTree

/-! ## Covered sets -/

theorem mem_pbsCovered {ul : ℕ} :
    ul ∈ PbsCovered jodp pbs ↔ ∃ pedge ∈ jodp.m_rgpedge, pedge.m_pbs ⊆ pbs ∧ ul ∈ pedge.m_pbs := by
  suffices key : ∀ (edges : List (SEdge Op)) (acc : Finset ℕ),
      ul ∈ edges.foldl (fun acc pedge => if pedge.m_pbs ⊆ pbs then acc ∪ pedge.m_pbs else acc) acc ↔
        ul ∈ acc ∨ ∃ pedge ∈ edges, pedge.m_pbs ⊆ pbs ∧ ul ∈ pedge.m_pbs by
    rw [PbsCovered, key]
    simp
  intro edges
  induction edges with
  | nil => simp
  | cons pedge edges ih =>
    intro acc
    rw [List.foldl_cons, ih]
    split_ifs with h
    · simp only [Finset.mem_union, List.mem_cons, exists_eq_or_imp, h, true_and, or_assoc]
    · simp only [List.mem_cons, exists_eq_or_imp, h, false_and, false_or]

theorem pbsCovered_subset (pbs : Finset ℕ) : PbsCovered jodp pbs ⊆ pbs := by
  intro ul hul
  obtain ⟨pedge, -, hsubset, hmem⟩ := mem_pbsCovered.1 hul
  exact hsubset hmem

theorem pbsCovered_mono {pbs pbs' : Finset ℕ} (h : pbs ⊆ pbs') :
    PbsCovered jodp pbs ⊆ PbsCovered jodp pbs' := by
  intro ul hul
  obtain ⟨pedge, hpedge, hsubset, hmem⟩ := mem_pbsCovered.1 hul
  exact mem_pbsCovered.2 ⟨pedge, hpedge, hsubset.trans h, hmem⟩

theorem subset_pbsCovered {pedge : SEdge Op} (hpedge : pedge ∈ jodp.m_rgpedge)
    (h : pedge.m_pbs ⊆ pbs) : pedge.m_pbs ⊆ PbsCovered jodp pbs :=
  fun _ hul => mem_pbsCovered.2 ⟨pedge, hpedge, h, hul⟩

/-- No edge is left in the uncovered part. -/
theorem pbsCovered_sdiff (pbs : Finset ℕ) :
    PbsCovered jodp (pbs \ PbsCovered jodp pbs) = ∅ := by
  refine Finset.eq_empty_of_forall_notMem fun ul hul => ?_
  obtain ⟨pedge, hpedge, hsubset, hmem⟩ := mem_pbsCovered.1 hul
  exact (Finset.mem_sdiff.1 (hsubset hmem)).2
    (subset_pbsCovered hpedge (hsubset.trans Finset.sdiff_subset) hmem)

/-- Edges do not reach across to a part that they do not cover. -/
theorem connectingEdges_eq_nil (h : Disjoint (PbsCovered jodp (pbsFst ∪ pbsSnd)) pbsSnd) :
    connectingEdges jodp pbsFst pbsSnd = [] := by
  refine List.eq_nil_iff_forall_not_mem.2 fun ul hul => ?_
  obtain ⟨pedge, hget, hsubset, -, hmeets⟩ := mem_connectingEdges.1 hul
  exact hmeets (Finset.disjoint_of_subset_right
    (subset_pbsCovered (List.mem_of_getElem? hget) hsubset) h.symm)

theorem pbsCovered_eq_empty {pbs pbs' : Finset ℕ} (hdisjoint : Disjoint pbs pbs')
    (hcovered : PbsCovered jodp (pbs ∪ pbs') = pbs) : PbsCovered jodp pbs' = ∅ := by
  have hsubset : PbsCovered jodp pbs' ⊆ PbsCovered jodp (pbs ∪ pbs') :=
    pbsCovered_mono Finset.subset_union_right
  rw [hcovered] at hsubset
  exact Finset.subset_empty.1 (hdisjoint hsubset (pbsCovered_subset pbs'))

/-! ## Split trees -/

/-- The product of some atoms, one after the other. -/
def crossTree (jodp : JoinOrder Op) (pbs : Finset ℕ) : JoinTree :=
  match bits jodp pbs with
  | [] => .atom 0
  | bit :: rest => rest.foldl (fun cross bit => .join [] (.atom bit) cross) (.atom bit)

/-- The trees that the search goes over. -/
inductive Split (jodp : JoinOrder Op) : JoinTree → Prop
  | atom (ul : ℕ) (hul : ul < jodp.m_ulComps) : Split jodp (.atom ul)
  | join (left right : JoinTree) (hleft : Split jodp left) (hright : Split jodp right)
      (hdisjoint : Disjoint left.set right.set)
      (hedges : connectingEdges jodp left.set right.set ≠ [])
      (hcovered : PbsCovered jodp (left.set ∪ right.set) = left.set ∪ right.set) :
      Split jodp (.join (connectingEdges jodp left.set right.set) left right)
  | product (pbs : Finset ℕ) (hne : pbs.Nonempty) (hpbs : pbs ⊆ Finset.range jodp.m_ulComps)
      (hcovered : PbsCovered jodp pbs = ∅) : Split jodp (crossTree jodp pbs)
  | cross (left : JoinTree) (hleft : Split jodp left) (pbs : Finset ℕ) (hne : pbs.Nonempty)
      (hpbs : pbs ⊆ Finset.range jodp.m_ulComps) (hdisjoint : Disjoint left.set pbs)
      (hcovered : PbsCovered jodp (left.set ∪ pbs) = left.set) :
      Split jodp (.join [] left (crossTree jodp pbs))

theorem exact_crossTree (hne : pbs.Nonempty) (hpbs : pbs ⊆ Finset.range jodp.m_ulComps)
    (hcovered : PbsCovered jodp pbs = ∅) :
    (crossTree jodp pbs).Exact jodp ∧ (crossTree jodp pbs).set = pbs := by
  -- The atoms that are still to come are not in the product so far.
  suffices key : ∀ (rest : List ℕ) (T : JoinTree), T.Exact jodp → rest.Nodup →
      (∀ ul ∈ rest, ul ∈ pbs ∧ ul ∉ T.set) → T.set ⊆ pbs →
      (rest.foldl (fun cross bit => .join [] (.atom bit) cross) T).Exact jodp ∧
        (rest.foldl (fun cross bit => .join [] (.atom bit) cross) T).set =
          T.set ∪ rest.toFinset by
    have hset : (bits jodp pbs).toFinset = pbs := toFinset_bits hpbs
    have hnodup : (bits jodp pbs).Nodup := nodup_bits pbs
    rw [crossTree]
    cases hbits : bits jodp pbs with
    | nil => exact absurd hset (by rw [hbits]; exact hne.ne_empty.symm)
    | cons bit rest =>
      rw [hbits] at hset hnodup
      have hmem : ∀ ul ∈ bit :: rest, ul ∈ pbs := fun ul hul => hset ▸ List.mem_toFinset.2 hul
      obtain ⟨hbit, hrest⟩ := List.nodup_cons.1 hnodup
      obtain ⟨hexact, hsets⟩ := key rest (.atom bit)
        (Finset.mem_range.1 (hpbs (hmem bit List.mem_cons_self))) hrest
        (fun ul hul => ⟨hmem ul (List.mem_cons_of_mem bit hul), fun heq => hbit
          (Finset.mem_singleton.1 heq ▸ hul)⟩)
        (Finset.singleton_subset_iff.2 (hmem bit List.mem_cons_self))
      refine ⟨hexact, hsets.trans ?_⟩
      rw [JoinTree.set, ← Finset.insert_eq, ← List.toFinset_cons, hset]
  intro rest
  induction rest with
  | nil => exact fun T hT _ _ _ => ⟨hT, (Finset.union_empty _).symm⟩
  | cons bit rest ih =>
    intro T hT hnodup hrest hsubset
    obtain ⟨hbit, hnodup⟩ := List.nodup_cons.1 hnodup
    obtain ⟨hmem, hnew⟩ := hrest bit List.mem_cons_self
    have hbitSubset : {bit} ∪ T.set ⊆ pbs :=
      Finset.union_subset (Finset.singleton_subset_iff.2 hmem) hsubset
    have hnone : connectingEdges jodp {bit} T.set = [] := by
      refine connectingEdges_eq_nil ?_
      have hempty : PbsCovered jodp ({bit} ∪ T.set) = ∅ :=
        Finset.subset_empty.1 (hcovered ▸ pbsCovered_mono hbitSubset)
      rw [hempty]
      exact Finset.disjoint_empty_left _
    have hjoin : (JoinTree.join [] (.atom bit) T).Exact jodp :=
      ⟨Finset.disjoint_singleton_left.2 hnew, hnone.symm, Finset.mem_range.1 (hpbs hmem), hT⟩
    rw [List.foldl_cons]
    obtain ⟨hexact, hsets⟩ := ih _ hjoin hnodup (fun ul hul =>
      ⟨(hrest ul (List.mem_cons_of_mem bit hul)).1, fun hul' => by
        rcases Finset.mem_union.1 hul' with heq | hold
        · exact hbit (Finset.mem_singleton.1 heq ▸ hul)
        · exact (hrest ul (List.mem_cons_of_mem bit hul)).2 hold⟩) hbitSubset
    refine ⟨hexact, hsets.trans ?_⟩
    rw [JoinTree.set, JoinTree.set, List.toFinset_cons, Finset.insert_eq, ← Finset.union_assoc,
      Finset.union_comm {bit} T.set]

theorem Split.exact (h : Split jodp T) : T.Exact jodp := by
  induction h with
  | atom ul hul => exact hul
  | join left right _ _ hdisjoint _ _ ihl ihr => exact ⟨hdisjoint, rfl, ihl, ihr⟩
  | product pbs hne hpbs hcovered => exact (exact_crossTree hne hpbs hcovered).1
  | cross left _ pbs hne hpbs hdisjoint hcovered ih =>
    obtain ⟨hexact, hset⟩ := exact_crossTree hne hpbs (pbsCovered_eq_empty hdisjoint hcovered)
    refine ⟨hset.symm ▸ hdisjoint, ?_, ih, hexact⟩
    rw [hset]
    exact (connectingEdges_eq_nil (hcovered.symm ▸ hdisjoint)).symm

/-! ### Connected trees are split trees -/

namespace JoinTree

/-- The side of a connecting edge in a connected tree is covered together with the other side. -/
theorem Connected.subset_pbsCovered {left right : JoinTree} (hleft : left.Exact jodp)
    (hcovered : (∃ ul, left = .atom ul) ∨ PbsCovered jodp left.set = left.set)
    (hedges : connectingEdges jodp left.set right.set ≠ []) :
    left.set ⊆ PbsCovered jodp (left.set ∪ right.set) := by
  rcases hcovered with ⟨ul, rfl⟩ | hcovered
  · obtain ⟨edge, hedge⟩ := List.exists_mem_of_ne_nil _ hedges
    obtain ⟨pedge, hget, hsubset, hmeets, -⟩ := mem_connectingEdges.1 hedge
    obtain ⟨ul', hul, hul'⟩ := Finset.not_disjoint_iff.1 hmeets
    rw [set, Finset.mem_singleton] at hul
    rw [set, Finset.singleton_subset_iff]
    exact CJoinOrderDP.subset_pbsCovered (List.mem_of_getElem? hget) hsubset (hul ▸ hul')
  · exact hcovered.symm.subset.trans (pbsCovered_mono Finset.subset_union_left)

theorem Connected.covered (h : T.Connected) (hexact : T.Exact jodp) :
    (∃ ul, T = .atom ul) ∨ PbsCovered jodp T.set = T.set := by
  induction T with
  | atom ul => exact .inl ⟨ul, rfl⟩
  | join edges left right ihl ihr =>
    obtain ⟨hedges, hleft, hright⟩ := h
    obtain ⟨-, rfl, hexactLeft, hexactRight⟩ := hexact
    refine .inr ((pbsCovered_subset _).antisymm (Finset.union_subset ?_ ?_))
    · exact subset_pbsCovered hexactLeft (ihl hleft hexactLeft) hedges
    · have hcomm := subset_pbsCovered hexactRight (ihr hright hexactRight)
        (connectingEdges_comm left.set right.set ▸ hedges)
      rwa [Finset.union_comm] at hcomm

/-- **Every tree whose splits are all connected by an edge is a split tree.** -/
theorem Connected.split (h : T.Connected) (hexact : T.Exact jodp) : Split jodp T := by
  induction T with
  | atom ul => exact .atom ul hexact
  | join edges left right ihl ihr =>
    have hcovered := (h.covered hexact).resolve_left (by rintro ⟨ul, heq⟩; cases heq)
    obtain ⟨hedges, hleft, hright⟩ := h
    obtain ⟨hdisjoint, rfl, hexactLeft, hexactRight⟩ := hexact
    exact .join left right (ihl hleft hexactLeft) (ihr hright hexactRight) hdisjoint hedges hcovered

end JoinTree

/-! ### The split trees of a set -/

theorem crossTree_singleton {ul : ℕ} (hul : ul < jodp.m_ulComps) :
    crossTree jodp {ul} = .atom ul := by
  have hbits : bits jodp {ul} = [ul] := by
    refine eq_singleton_of_nodup (nodup_bits _) (mem_bits.2 ⟨hul, Finset.mem_singleton_self ul⟩) ?_
    exact fun ul' hul' => Finset.mem_singleton.1 (mem_bits.1 hul').2
  rw [crossTree, hbits]
  rfl

theorem one_lt_card_union {s t : Finset ℕ} (hs : s.Nonempty) (ht : t.Nonempty)
    (h : Disjoint s t) : 1 < (s ∪ t).card := by
  rw [Finset.card_union_of_disjoint h]
  have := hs.card_pos
  have := ht.card_pos
  omega

theorem Split.cross_set {left : JoinTree} (hne : pbs.Nonempty)
    (hpbs : pbs ⊆ Finset.range jodp.m_ulComps) (hdisjoint : Disjoint left.set pbs)
    (hcovered : PbsCovered jodp (left.set ∪ pbs) = left.set) :
    (JoinTree.join [] left (crossTree jodp pbs)).set = left.set ∪ pbs := by
  rw [JoinTree.set, (exact_crossTree hne hpbs (pbsCovered_eq_empty hdisjoint hcovered)).2]

theorem Split.eq_atom (h : Split jodp T) {ul : ℕ} (hset : T.set = {ul}) : T = .atom ul := by
  have hcard : T.set.card = 1 := by rw [hset, Finset.card_singleton]
  cases h with
  | atom ul' hul => rw [Finset.singleton_injective hset]
  | join left right _ _ hdisjoint =>
    have hlt := one_lt_card_union left.set_nonempty right.set_nonempty hdisjoint
    exact absurd hcard hlt.ne'
  | product pbs hne hpbs hcovered =>
    rw [(exact_crossTree hne hpbs hcovered).2] at hset
    subst hset
    exact crossTree_singleton (Finset.mem_range.1 (hpbs (Finset.mem_singleton_self ul)))
  | cross left _ pbs hne hpbs hdisjoint hcovered =>
    rw [cross_set hne hpbs hdisjoint hcovered] at hcard
    exact absurd hcard (one_lt_card_union left.set_nonempty hne hdisjoint).ne'

/-- The product is the only split tree of a set without edges. -/
theorem Split.eq_crossTree (h : Split jodp T) (hcovered : PbsCovered jodp T.set = ∅) :
    T = crossTree jodp T.set := by
  cases h with
  | atom ul hul => exact (crossTree_singleton hul).symm
  | join left right _ _ _ _ hall =>
    exact absurd (hall.symm.trans hcovered)
      (left.set_nonempty.mono Finset.subset_union_left).ne_empty
  | product pbs hne hpbs hnone => rw [(exact_crossTree hne hpbs hnone).2]
  | cross left _ pbs hne hpbs hdisjoint hleft =>
    rw [cross_set hne hpbs hdisjoint hleft, hleft] at hcovered
    exact absurd hcovered left.set_nonempty.ne_empty

/-- The split trees of a set that is covered in part. -/
theorem Split.eq_cross (h : Split jodp T) (hne : PbsCovered jodp T.set ≠ ∅)
    (hcovered : PbsCovered jodp T.set ≠ T.set) (hcard : T.set.card ≠ 1) :
    ∃ left, Split jodp left ∧ left.set = PbsCovered jodp T.set ∧
      T = .join [] left (crossTree jodp (T.set \ PbsCovered jodp T.set)) := by
  cases h with
  | atom ul hul => exact absurd (Finset.card_singleton ul) hcard
  | join left right _ _ _ _ hall => exact absurd hall hcovered
  | product pbs hnonempty hpbs hnone =>
    rw [(exact_crossTree hnonempty hpbs hnone).2] at hne
    exact absurd hnone hne
  | cross left hleft pbs hnonempty hpbs hdisjoint hall =>
    rw [cross_set hnonempty hpbs hdisjoint hall, hall, Finset.union_sdiff_cancel_left hdisjoint]
    exact ⟨left, hleft, rfl, rfl⟩

/-- The split trees of a covered set. -/
theorem Split.eq_join (h : Split jodp T) (hcovered : PbsCovered jodp T.set = T.set)
    (hcard : T.set.card ≠ 1) :
    ∃ left right, Split jodp left ∧ Split jodp right ∧ Disjoint left.set right.set ∧
      connectingEdges jodp left.set right.set ≠ [] ∧
      T = .join (connectingEdges jodp left.set right.set) left right := by
  cases h with
  | atom ul hul => exact absurd (Finset.card_singleton ul) hcard
  | join left right hleft hright hdisjoint hedges _ =>
    exact ⟨left, right, hleft, hright, hdisjoint, hedges, rfl⟩
  | product pbs hne hpbs hnone =>
    rw [(exact_crossTree hne hpbs hnone).2, hnone] at hcovered
    exact absurd hcovered.symm hne.ne_empty
  | cross left _ pbs hne hpbs hdisjoint hall =>
    rw [cross_set hne hpbs hdisjoint hall, hall] at hcovered
    have hsubset : pbs ⊆ left.set := hcovered ▸ Finset.subset_union_right
    exact absurd (Finset.subset_empty.1 (hdisjoint hsubset subset_rfl)) hne.ne_empty

/-! ## What the search is given -/

/-- Atoms and conjuncts as the search relies on them. -/
structure Proper (jodp : JoinOrder Op) : Prop where
  lawful : jodp.Lawful
  rows_nonneg : ∀ pexpr, 0 ≤ jodp.Rows pexpr
  comps_pos : 0 < jodp.m_ulComps
  comps : ∀ ul < jodp.m_ulComps, jodp.Costable (jodp.m_rgpcomp ul)
  edges : ∀ pedge ∈ jodp.m_rgpedge, pedge.m_pbs ⊆ Finset.range jodp.m_ulComps
  innerJoin : jodp.FScalar jodp.CLogicalInnerJoin = false
  conjunction : ∀ edges, jodp.FScalar (edgePred jodp edges).Pop = true

/-- The estimated rows of an order depend on its set of atoms only. -/
def RowsBySet (jodp : JoinOrder Op) : Prop :=
  ∀ T T' : JoinTree, T.Exact jodp → T'.Exact jodp → T.set = T'.set →
    jodp.Rows (T.expr jodp) = jodp.Rows (T'.expr jodp)

variable {left right : JoinTree} {edges : List ℕ}

theorem Proper.costable (h : Proper jodp) (hexact : T.Exact jodp) :
    jodp.Costable (T.expr jodp) := by
  induction T with
  | atom ul => exact h.comps ul hexact
  | join edges left right ihl ihr =>
    refine .node _ [left.expr jodp, right.expr jodp] _ h.innerJoin le_rfl (fun pexpr hmem => ?_)
      (h.conjunction edges)
    rcases List.mem_pair.1 hmem with rfl | rfl
    · exact ihl hexact.2.2.1
    · exact ihr hexact.2.2.2

theorem Proper.cost_join (h : Proper jodp) (hleft : left.Exact jodp) (hright : right.Exact jodp) :
    jodp.Cost ((JoinTree.join edges left right).expr jodp) =
      (jodp.Cost (left.expr jodp) + jodp.Rows (left.expr jodp)) +
        (jodp.Cost (right.expr jodp) + jodp.Rows (right.expr jodp)) := by
  have hscalar : jodp.share (edgePred jodp edges) = 0 := if_pos (h.conjunction edges)
  rw [JoinTree.expr, PexprLogicalJoin, Costing.cost_node (by simp), List.map_cons, List.map_cons,
    List.map_singleton, (h.costable hleft).share_eq, (h.costable hright).share_eq, hscalar]
  simp [add_assoc]

theorem Proper.cost_nonneg (h : Proper jodp) (pexpr : CExpression Op) : 0 ≤ jodp.Cost pexpr := by
  induction pexpr using CExpression.induction with
  | node pop l ih =>
    rcases eq_or_ne l [] with rfl | hne
    · rw [Costing.cost_leaf]
      exact h.rows_nonneg _
    · rw [Costing.cost_node hne]
      refine List.sum_nonneg fun share hshare => ?_
      obtain ⟨pexpr, hmem, rfl⟩ := List.mem_map.1 hshare
      rw [Costing.share]
      split_ifs
      · exact le_rfl
      · exact add_nonneg (ih pexpr hmem) (h.rows_nonneg pexpr)

end BossOptimizer.CJoinOrderDP

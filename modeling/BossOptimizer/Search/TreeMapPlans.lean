import BossOptimizer.Lib.Acyclic
import BossOptimizer.Lib.Lists
import BossOptimizer.Search.TreeMapLinks
import BossOptimizer.Search.TreeMapUnrank

/-!
# Counting and enumerating plans

The plan trees that a set of links describes: each node takes one linked child for every
position. On acyclic links, `UllCount` is their number and `PrUnrank` maps the ranks below it one
to one onto them, unless a sum or product that the count forms does not fit 64 bits; then an
overflow is reported.
-/

namespace BossOptimizer

/-- A plan: an object with its children. -/
inductive PlanTree (α : Type) where
  | node (value : α) (children : List (PlanTree α))

namespace PlanTree

variable {α : Type}

def value : PlanTree α → α
  | node v _ => v

instance [Inhabited α] : Inhabited (PlanTree α) := ⟨node default []⟩

end PlanTree

namespace CTreeMap

open Ranking

variable {α : Type} {m : CTreeMap α}

/-! ## The hooked map -/

/-- The numbers of the nodes without an incoming link. -/
def rootIds (m : CTreeMap α) : List ℕ :=
  ((List.range m.nodes.length).filter fun i =>
    (m.nodes[i]?.map CTreeNode.m_ulIncoming).getD 0 = 0).map (· + 1)

theorem addAt_foldl (ids : List ℕ) (first : List ℕ) :
    ids.foldl (fun root i => addAt root 0 (i + 1)) [first] = [first ++ ids.map (· + 1)] := by
  induction ids generalizing first with
  | nil => simp
  | cons i ids ih =>
    rw [List.foldl_cons, addAt, ih]
    simp

theorem hookRoots_root (h : m.m_ptnRoot = []) :
    m.hookRoots.m_ptnRoot = if rootIds m = [] then [] else [rootIds m] := by
  unfold hookRoots rootIds
  rw [h]
  dsimp only
  cases (List.range m.nodes.length).filter fun i =>
    (m.nodes[i]?.map CTreeNode.m_ulIncoming).getD 0 = 0 with
  | nil => rfl
  | cons i ids => simp [addAt, addAt_foldl]

theorem hookRoots_children (m : CTreeMap α) (i : ℕ) :
    m.hookRoots.children (i + 1) = m.children (i + 1) := by
  simp only [children, hookRoots, List.getElem?_map, Option.map_map]
  refine congrArg (fun o => Option.getD o []) (congrArg (Option.map · _) (funext fun ptn => ?_))
  simp only [Function.comp_apply]
  split <;> rfl

theorem hookRoots_valueOf (m : CTreeMap α) (j : ℕ) :
    valueOf m.hookRoots.nodes j = valueOf m.nodes j := by
  cases j with
  | zero => rfl
  | succ i =>
    simp only [valueOf, hookRoots, List.getElem?_map, Option.map_map]
    refine congrArg (Option.map · _) (funext fun ptn => ?_)
    simp only [Function.comp_apply]
    split <;> rfl

variable [DecidableEq α]

/-! ## Plans -/

/-- A tree that the links describe: a linked child for every position. -/
inductive IsPlan (links : Finset (α × ℕ × α)) : PlanTree α → Prop
  | node (v : α) (ts : List (PlanTree α)) (hlen : ts.length = arity links v)
      (hlink : ∀ i t, ts[i]? = some t → (v, i, t.value) ∈ links)
      (hts : ∀ t ∈ ts, IsPlan links t) : IsPlan links (.node v ts)

/-- The plans of the children linked at a position. -/
def slotPlans (links : Finset (α × ℕ × α)) (v : α) (pos : ℕ) : Set (PlanTree α) :=
  {t | IsPlan links t ∧ (v, pos, t.value) ∈ links}

/-- The plans of the values without a parent: the trees of the whole map. -/
def rootPlans (links : Finset (α × ℕ × α)) : Set (PlanTree α) :=
  {t | IsPlan links t ∧ (∃ l ∈ links, l.1 = t.value ∨ l.2.2 = t.value) ∧
    ∀ l ∈ links, l.2.2 ≠ t.value}

/-- No value is linked below itself. -/
def Acyclic (links : Finset (α × ℕ × α)) : Prop :=
  ∀ v, ¬ Relation.TransGen (fun a b => ∃ pos, (a, pos, b) ∈ links) v v

/-- Everything that the count forms fits 64 bits: the number of plans of each position, the
products over the first positions of each value, and the total. -/
def CountsFit (links : Finset (α × ℕ × α)) : Prop :=
  (∀ v pos, (slotPlans links v pos).ncard ≤ ullong_max) ∧
  (∀ v k, k ≤ arity links v →
    ((List.range k).map fun pos => (slotPlans links v pos).ncard).prod ≤ ullong_max) ∧
  (rootPlans links).ncard ≤ ullong_max

variable {links : Finset (α × ℕ × α)}

theorem mem_rootIds (h : NodesOk m.nodes links) {j : ℕ} :
    j ∈ rootIds m ↔ ∃ v, valueOf m.nodes j = some v ∧ ∀ l ∈ links, l.2.2 ≠ v := by
  simp only [rootIds, List.mem_map, List.mem_filter, List.mem_range, decide_eq_true_eq]
  constructor
  · rintro ⟨i, ⟨hi, hin⟩, rfl⟩
    rw [List.getElem?_eq_getElem hi, Option.map_some, Option.getD_some] at hin
    refine ⟨m.nodes[i].m_value, ?_, (h.incoming _ (List.getElem_mem hi)).mp hin⟩
    rw [valueOf, List.getElem?_eq_getElem hi]
    rfl
  · rintro ⟨v, hv, hno⟩
    cases j with
    | zero => cases hv
    | succ i =>
      obtain ⟨ptn, hptn, rfl⟩ := Option.map_eq_some_iff.mp hv
      obtain ⟨hi, rfl⟩ := List.getElem?_eq_some_iff.mp hptn
      refine ⟨i, ⟨hi, ?_⟩, rfl⟩
      rw [List.getElem?_eq_getElem hi, Option.map_some, Option.getD_some]
      exact (h.incoming _ (List.getElem_mem hi)).mpr hno

/-- The child arrays of a node, described by the links. -/
theorem children_of_valueOf (h : NodesOk m.nodes links) {j : ℕ} {v : α}
    (hj : valueOf m.nodes j = some v) :
    (m.children j).length = arity links v ∧ ∀ (pos : ℕ) (pdrg : List ℕ),
      (m.children j)[pos]? = some pdrg → pdrg.Nodup ∧ ∀ ptn, ptn ∈ pdrg ↔
        ∃ c, valueOf m.nodes ptn = some c ∧ (v, pos, c) ∈ links := by
  cases j with
  | zero => cases hj
  | succ i =>
    obtain ⟨node, hnode, rfl⟩ := Option.map_eq_some_iff.mp hj
    have hmem := List.mem_of_getElem? hnode
    have hchildren : m.children (i + 1) = node.m_pdrgdrgptn := by simp [children, hnode]
    rw [hchildren]
    refine ⟨h.length node hmem, fun pos pdrg hpos => ?_⟩
    have hslot : slotOf node pos = pdrg := by rw [slotOf, hpos, Option.getD_some]
    rw [← hslot]
    exact ⟨h.slotNodup node hmem pos, fun ptn => h.slots node hmem pos ptn⟩

/-! ## Ranking the plans -/

/-- The plans of a node. -/
def nodePlans (m : CTreeMap α) (links : Finset (α × ℕ × α)) (j : ℕ) : Set (PlanTree α) :=
  {t | IsPlan links t ∧ valueOf m.nodes j = some t.value}

/-- The number of plans of a node; for the global root, that of its children. -/
noncomputable def planCount (m : CTreeMap α) (links : Finset (α × ℕ × α)) (j : ℕ) : ℕ :=
  match valueOf m.nodes j with
  | some _ => (nodePlans m links j).ncard
  | none => arityCount (fun i => (nodePlans m links i).ncard) (m.hookRoots.children j)

theorem planCount_eq {j : ℕ} {v : α} (hj : valueOf m.nodes j = some v) :
    planCount m links j = (nodePlans m links j).ncard := by
  rw [planCount, hj]

theorem nodePlans_disjoint (hnd : (m.nodes.map CTreeNode.m_value).Nodup) {i j : ℕ} (hij : i ≠ j) :
    Disjoint (nodePlans m links i) (nodePlans m links j) :=
  Set.disjoint_left.mpr fun _ hi hj => hij (valueOf_inj hnd hi.2 hj.2)

theorem exists_mem_nodePlans {pdrg : List ℕ} {v : α} {pos : ℕ}
    (hpdrg : ∀ ptn, ptn ∈ pdrg ↔ ∃ c, valueOf m.nodes ptn = some c ∧ (v, pos, c) ∈ links)
    (h : NodesOk m.nodes links) :
    {t | ∃ ptn ∈ pdrg, t ∈ nodePlans m links ptn} = slotPlans links v pos := by
  ext t
  constructor
  · rintro ⟨ptn, hptn, hplan, hval⟩
    obtain ⟨c, hc, hl⟩ := (hpdrg ptn).mp hptn
    rw [hval, Option.some.injEq] at hc
    exact ⟨hplan, hc ▸ hl⟩
  · rintro ⟨hplan, hl⟩
    obtain ⟨node, hnode, hv⟩ := List.mem_map.mp (h.ends _ hl).2
    obtain ⟨i, hi, rfl⟩ := List.mem_iff_getElem.mp hnode
    have hval : valueOf m.nodes (i + 1) = some t.value := by
      rw [valueOf, List.getElem?_eq_getElem hi]
      exact congrArg some hv
    exact ⟨i + 1, (hpdrg _).mpr ⟨_, hval, hl⟩, hplan, hval⟩

/-- The plans of a node are the choices of one plan for every position. -/
theorem bijOn_node (h : NodesOk m.nodes links) {j : ℕ} {v : α} (hj : valueOf m.nodes j = some v) :
    Set.BijOn (PlanTree.node v)
      {ts | List.Forall₂ (fun pdrg t => t ∈ {t | ∃ ptn ∈ pdrg, t ∈ nodePlans m links ptn})
        (m.children j) ts} (nodePlans m links j) := by
  obtain ⟨hlen, hslots⟩ := children_of_valueOf h hj
  have hslot : ∀ pos pdrg t, (m.children j)[pos]? = some pdrg →
      ((∃ ptn ∈ pdrg, t ∈ nodePlans m links ptn) ↔ IsPlan links t ∧ (v, pos, t.value) ∈ links) := by
    intro pos pdrg t hpos
    have hset := exists_mem_nodePlans (hslots pos pdrg hpos).2 h
    exact Set.ext_iff.mp hset t
  refine ⟨fun ts hts => ?_, fun ts _ ts' _ heq => ?_, fun t ht => ?_⟩
  · have hts' : List.Forall₂ _ _ ts := hts
    have hget : ∀ i t, ts[i]? = some t → IsPlan links t ∧ (v, i, t.value) ∈ links := by
      intro i t hi
      have hlt : i < (m.children j).length :=
        hts'.length_eq ▸ (List.getElem?_eq_some_iff.mp hi).1
      have hpos := List.getElem?_eq_getElem hlt
      exact (hslot i _ t hpos).mp (rel_of_getElem? hts' hpos hi)
    refine ⟨.node v ts (hts'.length_eq ▸ hlen) (fun i t hi => (hget i t hi).2) fun t ht => ?_, hj⟩
    obtain ⟨i, hi, rfl⟩ := List.mem_iff_getElem.mp ht
    exact (hget i _ (List.getElem?_eq_getElem hi)).1
  · injection heq
  · obtain ⟨hplan, hval⟩ := ht
    cases hplan with
    | node w ts hlenT hlink hplans =>
      have hvw : v = w := Option.some.inj (hj.symm.trans hval)
      subst hvw
      refine ⟨ts, forall₂_of_getElem? (hlen.trans hlenT.symm) fun i pdrg t hp ht => ?_, rfl⟩
      exact (hslot i pdrg t hp).mpr ⟨hplans t (List.mem_of_getElem? ht), hlink i t ht⟩

variable [Inhabited (PlanTree α)]

/-- The tree of a rank in a node. -/
noncomputable def planAt (m : CTreeMap α) (links : Finset (α × ℕ × α)) (fuel j : ℕ) :
    ℕ → PlanTree α :=
  treeAt m.hookRoots PlanTree.node (planCount m links) fuel j

theorem ranked_slot (hnd : (m.nodes.map CTreeNode.m_value).Nodup) {fuel : ℕ} {pdrg : List ℕ}
    (hpdrg : pdrg.Nodup) (hall : ∀ ptn ∈ pdrg,
      Ranked (planCount m links ptn) (planAt m links fuel ptn) (nodePlans m links ptn)) :
    Ranked (slotCount (planCount m links) pdrg)
      (sumAt (planCount m links) (planAt m links fuel) pdrg)
      {t | ∃ ptn ∈ pdrg, t ∈ nodePlans m links ptn} :=
  ranked_sum hall (hpdrg.imp fun hne => nodePlans_disjoint hnd hne)

/-- **Every node's plans are ranked** by the mixed-radix reading of the rank. -/
theorem ranked_node (h : NodesOk m.nodes links) {rank : α → ℕ}
    (hrank : ∀ a pos b, (a, pos, b) ∈ links → rank b < rank a) :
    ∀ fuel j v, valueOf m.nodes j = some v → rank v < fuel →
      planCount m links j = arityCount (planCount m links) (m.children j) ∧
      Ranked (planCount m links j) (planAt m links fuel j) (nodePlans m links j) := by
  intro fuel
  induction fuel with
  | zero => exact fun j v _ hlt => absurd hlt (by omega)
  | succ fuel ih =>
    intro j v hj hlt
    obtain ⟨-, hslots⟩ := children_of_valueOf h hj
    have hslot : ∀ pdrg ∈ m.children j, Ranked (slotCount (planCount m links) pdrg)
        (sumAt (planCount m links) (planAt m links fuel) pdrg)
        {t | ∃ ptn ∈ pdrg, t ∈ nodePlans m links ptn} := by
      intro pdrg hpdrg
      obtain ⟨pos, hpos⟩ := List.mem_iff_getElem?.mp hpdrg
      obtain ⟨hnd, hmem⟩ := hslots pos pdrg hpos
      refine ranked_slot h.nodup hnd fun ptn hptn => ?_
      obtain ⟨c, hc, hl⟩ := (hmem ptn).mp hptn
      have := hrank v pos c hl
      exact (ih ptn c hc (by omega)).2
    have hprod := ranked_prod hslot
    have hnode := (bijOn_node h hj).comp hprod
    have hcount : planCount m links j = arityCount (planCount m links) (m.children j) :=
      (planCount_eq hj).trans (Ranked.ncard hnode)
    refine ⟨hcount, ?_⟩
    rw [hcount]
    refine Ranked.congr hnode fun r _ => ?_
    obtain ⟨i, rfl⟩ : ∃ i, j = i + 1 := by
      cases j with
      | zero => cases hj
      | succ i => exact ⟨i, rfl⟩
    have hnodes : ∃ ptn, m.hookRoots.nodes[i]? = some ptn ∧ ptn.m_value = v := by
      rw [← hookRoots_valueOf] at hj
      exact Option.map_eq_some_iff.mp hj
    obtain ⟨ptn, hptn, hv⟩ := hnodes
    rw [planAt, treeAt, Nat.add_sub_cancel, hptn]
    simp only [hv, Function.comp_apply, hookRoots_children]
    rfl

/-! ## The hooked map satisfies the counting equations -/

/-- What the links of an acyclic map give: nodes, and a rank below a bound that links lower. -/
structure Setting (m : CTreeMap α) (links : Finset (α × ℕ × α)) (rank : α → ℕ) (bound : ℕ) :
    Prop where
  ok : MapOk m links
  lower : ∀ a pos b, (a, pos, b) ∈ links → rank b < rank a
  le : ∀ a, rank a ≤ bound

/-- The rank of a node number, the global root on top. -/
def rankOf (m : CTreeMap α) (rank : α → ℕ) (bound j : ℕ) : ℕ :=
  if j = 0 then bound + 1 else match valueOf m.nodes j with
    | some v => rank v
    | none => 0

section Setting

variable {rank : α → ℕ} {bound : ℕ} (hs : Setting m links rank bound)
include hs

omit [Inhabited (PlanTree α)] in
theorem hooked_children {j : ℕ} {pdrg : List ℕ} (hpdrg : pdrg ∈ m.hookRoots.children j) :
    (j = 0 ∧ pdrg = rootIds m) ∨
      ∃ (v : α) (pos : ℕ), valueOf m.nodes j = some v ∧ (m.children j)[pos]? = some pdrg := by
  cases j with
  | zero =>
    rw [children, hookRoots_root hs.ok.root] at hpdrg
    split at hpdrg
    · cases hpdrg
    · exact .inl ⟨rfl, List.mem_singleton.mp hpdrg⟩
  | succ i =>
    rw [hookRoots_children] at hpdrg
    obtain ⟨pos, hpos⟩ := List.mem_iff_getElem?.mp hpdrg
    cases hv : m.nodes[i]? with
    | none => simp [children, hv] at hpdrg
    | some node => exact .inr ⟨node.m_value, pos, by rw [valueOf, hv]; rfl, hpos⟩

omit [Inhabited (PlanTree α)] in
theorem hooked_children_none {j : ℕ} (hj : valueOf m.nodes j = none) :
    m.hookRoots.children j = [] ∨ m.hookRoots.children j = [rootIds m] := by
  cases j with
  | zero =>
    rw [children, hookRoots_root hs.ok.root]
    split
    · exact .inl rfl
    · exact .inr rfl
  | succ i =>
    rw [hookRoots_children]
    have hi : m.nodes[i]? = none := Option.map_eq_none_iff.mp hj
    exact .inl (by simp [children, hi])

omit [Inhabited (PlanTree α)] in
/-- Every candidate has a value. -/
theorem candidate_valueOf {j : ℕ} {pdrg : List ℕ} (hpdrg : pdrg ∈ m.hookRoots.children j)
    {ptn : ℕ} (hptn : ptn ∈ pdrg) : ∃ c, valueOf m.nodes ptn = some c := by
  rcases hooked_children hs hpdrg with ⟨-, rfl⟩ | ⟨v, pos, hv, hpos⟩
  · obtain ⟨c, hc, -⟩ := (mem_rootIds hs.ok.nodes).mp hptn
    exact ⟨c, hc⟩
  · obtain ⟨c, hc, -⟩ := (((children_of_valueOf hs.ok.nodes hv).2 pos pdrg hpos).2 ptn).mp hptn
    exact ⟨c, hc⟩

omit [Inhabited (PlanTree α)] in
theorem rankedBy_rankOf : RankedBy m.hookRoots (rankOf m rank bound) := by
  intro j pdrg hpdrg ptn hptn
  have hnz : ∀ {k c}, valueOf m.nodes k = some c → k ≠ 0 := by
    rintro k c hk rfl
    cases hk
  have hrank : ∀ {k c}, valueOf m.nodes k = some c → rankOf m rank bound k = rank c := by
    intro k c hk
    rw [rankOf, if_neg (hnz hk), hk]
  obtain ⟨c, hc⟩ := candidate_valueOf hs hpdrg hptn
  rw [hrank hc]
  rcases hooked_children hs hpdrg with ⟨rfl, -⟩ | ⟨v, pos, hv, hpos⟩
  · have := hs.le c
    rw [rankOf, if_pos rfl]
    omega
  · obtain ⟨c', hc', hl⟩ := (((children_of_valueOf hs.ok.nodes hv).2 pos pdrg hpos).2 ptn).mp hptn
    rw [hc, Option.some.injEq] at hc'
    rw [hrank hv, hc']
    exact hs.lower v pos c' hl

omit [Inhabited (PlanTree α)] in
theorem closed_hookRoots : Closed m.hookRoots := by
  intro j pdrg hpdrg ptn hptn
  obtain ⟨c, hc⟩ := candidate_valueOf hs hpdrg hptn
  rw [← hookRoots_valueOf] at hc
  cases ptn with
  | zero => cases hc
  | succ i =>
    obtain ⟨node, hnode, -⟩ := Option.map_eq_some_iff.mp hc
    rw [Nat.add_sub_cancel, hnode]
    rfl

theorem counts_planCount : Counts m.hookRoots (planCount m links) := by
  intro j
  cases hv : valueOf m.nodes j with
  | none =>
    rw [planCount, hv]
    refine congrArg List.prod (List.map_congr_left fun pdrg hpdrg => congrArg List.sum ?_)
    refine List.map_congr_left fun ptn hptn => ?_
    obtain ⟨c, hc⟩ := candidate_valueOf hs hpdrg hptn
    exact (planCount_eq hc).symm
  | some v =>
    cases j with
    | zero => cases hv
    | succ i =>
      rw [hookRoots_children]
      exact (ranked_node hs.ok.nodes hs.lower _ _ _ hv (Nat.lt_succ_self _)).1

/-- The plans of the map are those of its roots, ranked. -/
theorem ranked_roots {fuel : ℕ} (hfuel : bound < fuel) :
    Ranked (slotCount (planCount m links) (rootIds m))
      (sumAt (planCount m links) (planAt m links fuel) (rootIds m)) (rootPlans links) := by
  have hnd : (rootIds m).Nodup :=
    ((List.nodup_range).filter _).map fun _ _ h => Nat.succ_injective h
  have hranked := ranked_slot hs.ok.nodes.nodup hnd fun ptn hptn => by
    obtain ⟨c, hc, -⟩ := (mem_rootIds hs.ok.nodes).mp hptn
    exact (ranked_node hs.ok.nodes hs.lower fuel ptn c hc ((hs.le c).trans_lt hfuel)).2
  have hset : {t | ∃ ptn ∈ rootIds m, t ∈ nodePlans m links ptn} = rootPlans links := by
    ext t
    constructor
    · rintro ⟨ptn, hptn, hplan, hval⟩
      obtain ⟨c, hc, hno⟩ := (mem_rootIds hs.ok.nodes).mp hptn
      rw [hval, Option.some.injEq] at hc
      subst hc
      exact ⟨hplan, hs.ok.used _ (valueOf_mem hval), hno⟩
    · rintro ⟨hplan, ⟨l, hl, hend⟩, hno⟩
      have hmem : t.value ∈ m.nodes.map CTreeNode.m_value := by
        rcases hend with hend | hend
        · exact hend ▸ (hs.ok.nodes.ends l hl).1
        · exact hend ▸ (hs.ok.nodes.ends l hl).2
      obtain ⟨node, hnode, hv⟩ := List.mem_map.mp hmem
      obtain ⟨i, hi, rfl⟩ := List.mem_iff_getElem.mp hnode
      have hval : valueOf m.nodes (i + 1) = some t.value := by
        rw [valueOf, List.getElem?_eq_getElem hi]
        exact congrArg some hv
      exact ⟨i + 1, (mem_rootIds hs.ok.nodes).mpr ⟨_, hval, hno⟩, hplan, hval⟩
  exact hset ▸ hranked

/-- The number of plans of a position. -/
theorem slotCount_eq {j pos : ℕ} {v : α} {pdrg : List ℕ} (hv : valueOf m.nodes j = some v)
    (hpos : (m.children j)[pos]? = some pdrg) :
    slotCount (planCount m links) pdrg = (slotPlans links v pos).ncard := by
  obtain ⟨hnd, hmem⟩ := (children_of_valueOf hs.ok.nodes hv).2 pos pdrg hpos
  have hranked := ranked_slot hs.ok.nodes.nodup hnd fun ptn hptn => by
    obtain ⟨c, hc, -⟩ := (hmem ptn).mp hptn
    exact (ranked_node hs.ok.nodes hs.lower (bound + 1) ptn c hc (Nat.lt_succ_of_le (hs.le c))).2
  rw [exists_mem_nodePlans hmem hs.ok.nodes] at hranked
  exact hranked.ncard.symm

/-- When everything that the count forms fits, so do the numbers that the recursion forms. -/
theorem fits_of_countsFit (hfit : CountsFit links) : Fits m.hookRoots (planCount m links) := by
  obtain ⟨hslot, hprefix, htotal⟩ := hfit
  have hroot : slotCount (planCount m links) (rootIds m) ≤ ullong_max :=
    (ranked_roots hs (Nat.lt_succ_self bound)).ncard ▸ htotal
  intro j
  refine ⟨fun pdrg hpdrg => ?_, fun front rest hsplit => ?_⟩
  · rcases hooked_children hs hpdrg with ⟨-, rfl⟩ | ⟨v, pos, hv, hpos⟩
    · exact hroot
    · rw [slotCount_eq hs hv hpos]
      exact hslot v pos
  · cases hv : valueOf m.nodes j with
    | none =>
      -- the global root, with one position at most
      have hone : arityCount (planCount m links) [] ≤ ullong_max := by simp [arityCount, ullong_max]
      rcases hooked_children_none hs hv with hnil | hroots
      · rw [hnil] at hsplit
        rw [(List.append_eq_nil_iff.mp hsplit.symm).1]
        exact hone
      · rw [hroots] at hsplit
        rcases List.append_eq_singleton_iff.mp hsplit.symm with ⟨rfl, -⟩ | ⟨rfl, -⟩
        · exact hone
        · rwa [arityCount, List.map_singleton, List.prod_singleton]
    | some v =>
      obtain ⟨i, rfl⟩ : ∃ i, j = i + 1 := by
        cases j with
        | zero => cases hv
        | succ i => exact ⟨i, rfl⟩
      rw [hookRoots_children] at hsplit
      have hlen := (children_of_valueOf hs.ok.nodes hv).1
      have hmap : front.map (slotCount (planCount m links)) =
          (List.range front.length).map fun pos => (slotPlans links v pos).ncard := by
        apply List.ext_getElem (by simp)
        intro k hk _
        rw [List.length_map] at hk
        have hget : (m.children (i + 1))[k]? = some front[k] := by
          rw [hsplit, List.getElem?_append_left hk, List.getElem?_eq_getElem hk]
        simp [slotCount_eq hs hv hget]
      rw [arityCount, hmap]
      refine hprefix v _ ?_
      rw [← hlen, hsplit, List.length_append]
      omega

end Setting

/-! ## `UllCount` and `PrUnrank` -/

omit [Inhabited (PlanTree α)] in
theorem setting_insertAll (links : List (α × ℕ × α)) (hac : Acyclic links.toFinset) :
    ∃ rank, Setting (insertAll links) links.toFinset rank links.length := by
  have htargets : {b | ∃ a pos, (a, pos, b) ∈ links.toFinset} =
      ↑(links.toFinset.image fun l => l.2.2) := by
    ext b
    simp
  have hfin : {b | ∃ a pos, (a, pos, b) ∈ links.toFinset}.Finite := by
    rw [htargets]
    exact Finset.finite_toSet _
  obtain ⟨rank, hlower, hle⟩ := exists_rank hfin hac
  refine ⟨rank, insertAll_ok links, fun a pos b hl => hlower a b ⟨pos, hl⟩, fun a =>
    (hle a).trans ?_⟩
  rw [htargets, Set.ncard_coe_finset]
  exact Finset.card_image_le.trans (List.toFinset_card_le links)

omit [Inhabited (PlanTree α)] in
/-- Some value of a non-empty acyclic map has no parent. -/
theorem rootIds_ne_nil {rank : α → ℕ} {bound : ℕ} (hs : Setting m links rank bound)
    (hne : m.nodes ≠ []) : rootIds m ≠ [] := by
  obtain ⟨top, htop, hmax⟩ := (m.nodes.map CTreeNode.m_value).toFinset.exists_max_image rank (by
    simpa [Finset.nonempty_iff_ne_empty] using hne)
  rw [List.mem_toFinset] at htop
  obtain ⟨node, hnode, rfl⟩ := List.mem_map.mp htop
  obtain ⟨i, hi, rfl⟩ := List.mem_iff_getElem.mp hnode
  have hval : valueOf m.nodes (i + 1) = some m.nodes[i].m_value := by
    rw [valueOf, List.getElem?_eq_getElem hi]
    rfl
  refine List.ne_nil_of_mem ((mem_rootIds hs.ok.nodes).mpr ⟨_, hval, fun l hl heq => ?_⟩)
  have hlow := hs.lower l.1 l.2.1 l.2.2 hl
  have hge := hmax l.1 (List.mem_toFinset.mpr (hs.ok.nodes.ends l hl).1)
  rw [heq] at hlow
  omega

omit [DecidableEq α] in
theorem treeAt_counts (m : CTreeMap α) (counts : ℕ → Option ℕ) (N : ℕ → ℕ) :
    ∀ fuel j r, treeAt { m with m_counts := counts } PlanTree.node N fuel j r =
      treeAt m PlanTree.node N fuel j r := by
  intro fuel
  induction fuel with
  | zero => exact fun _ _ => rfl
  | succ fuel ih =>
    intro j r
    have hfun : treeAt { m with m_counts := counts } PlanTree.node N fuel =
        treeAt m PlanTree.node N fuel := funext fun i => funext (ih i)
    rw [treeAt, treeAt, hfun]
    rfl

/-- Unranking in the counted map builds the tree of the rank and changes nothing. -/
theorem PrUnrank_eq {rank : α → ℕ} {bound : ℕ} (hs : Setting m links rank bound) {fuel r : ℕ}
    (hfuel : bound + 1 < fuel) {counts : ℕ → Option ℕ}
    (hok : CountsOk m.hookRoots (planCount m links) counts)
    (hknown : Known (planCount m links) counts (rootIds m)) (hne : rootIds m ≠ [])
    (hr : r < slotCount (planCount m links) (rootIds m)) :
    PrUnrank { m.hookRoots with m_counts := counts } PlanTree.node fuel r =
      .ok (sumAt (planCount m links) (planAt m links fuel) (rootIds m) r,
        { m.hookRoots with m_counts := counts }) := by
  have hroot : m.hookRoots.m_ptnRoot.headD [] = rootIds m := by
    rw [hookRoots_root hs.ok.root, if_neg hne, List.headD_cons]
  have hunrank : Meets (rootUnrank { m.hookRoots with m_counts := counts } PlanTree.node fuel r)
      counts (fun t s => t = sumAt (planCount m links) (planAt m links fuel) (rootIds m) r ∧
        s = counts) (fun _ => False) := by
    rw [rootUnrank]
    dsimp only
    rw [hroot]
    refine Meets.bind (findCandidate_known (planAt m links fuel) hknown (fun _ => by omega) none r
      hr) fun res s hres => ?_
    obtain ⟨rfl, ptn, hptn, k, hk, rfl, hsum⟩ := hres
    obtain ⟨c, hc, -⟩ := (mem_rootIds hs.ok.nodes).mp hptn
    have hrankPtn : rankOf m rank bound ptn < fuel := by
      have hle := hs.le c
      rw [rankOf, hc]
      split
      · exact hfuel
      · dsimp only
        omega
    have hnode : (m.hookRoots.nodes[ptn - 1]?).isSome := by
      rw [← hookRoots_valueOf] at hc
      cases ptn with
      | zero => cases hc
      | succ i =>
        obtain ⟨node, hnode, -⟩ := Option.map_eq_some_iff.mp hc
        rw [Nat.add_sub_cancel, hnode]
        rfl
    have hcounts : Counts { m.hookRoots with m_counts := s } (planCount m links) :=
      counts_planCount hs
    have hranked : RankedBy { m.hookRoots with m_counts := s } (rankOf m rank bound) :=
      rankedBy_rankOf hs
    have hclosed : Closed { m.hookRoots with m_counts := s } := closed_hookRoots hs
    refine (nodeUnrank_known hcounts hranked hclosed hok fuel ptn k hrankPtn hnode
      (hknown ptn hptn) hk).mono fun t s' h => ⟨?_, h.2⟩
    rw [h.1, hsum, treeAt_counts]
    rfl
  rw [PrUnrank]
  unfold Meets at hunrank
  cases hx : rootUnrank { m.hookRoots with m_counts := counts } PlanTree.node fuel r counts with
  | error e =>
    rw [hx] at hunrank
    exact hunrank.elim
  | ok res =>
    rw [hx] at hunrank
    obtain ⟨h1, h2⟩ := hunrank
    change Except.ok (res.1, { m.hookRoots with m_counts := res.2 }) = _
    rw [h1, h2]

/-- The number of plan trees of the map is what the recursion returns for the global root. -/
theorem planCount_zero {rank : α → ℕ} {bound : ℕ} (hs : Setting m links rank bound)
    (hne : rootIds m ≠ []) :
    planCount m links 0 = slotCount (planCount m links) (rootIds m) := by
  rw [counts_planCount hs 0, children, hookRoots_root hs.ok.root, if_neg hne, arityCount,
    List.map_singleton, List.prod_singleton]

omit [Inhabited (PlanTree α)] in
/-- **The plan counter is exact.** On acyclic links, `UllCount` returns the number of plan trees
that the links describe, and `PrUnrank` maps the ranks below it one to one onto them; when it
reports an overflow, something that the count forms does not fit 64 bits. Recursion no deeper
than the number of links is enough. -/
theorem ullCount_exact (links : List (α × ℕ × α)) (hac : Acyclic links.toFinset) (fuel : ℕ)
    (hfuel : links.length + 2 ≤ fuel) :
    match (insertAll links).UllCount fuel with
    | .ok (n, m) => n ≤ ullong_max ∧ n = (rootPlans links.toFinset).ncard ∧
        ∃ tree : Fin n → PlanTree α, Function.Injective tree ∧
          Set.range tree = rootPlans links.toFinset ∧
          ∀ r : Fin n, m.PrUnrank PlanTree.node fuel r = .ok (tree r, m)
    | .error e => e = .overflow ∧ ¬ CountsFit links.toFinset := by
  obtain ⟨rank, hs⟩ := setting_insertAll links hac
  have hlen : (insertAll links).hookRoots.nodes.length = (insertAll links).nodes.length := by
    simp [hookRoots]
  by_cases hempty : (insertAll links).nodes = []
  · have hno : rootPlans links.toFinset = ∅ := by
      refine Set.eq_empty_iff_forall_notMem.mpr fun t ht => ?_
      obtain ⟨-, ⟨l, hl, -⟩, -⟩ := ht
      have hend := (hs.ok.nodes.ends l hl).1
      rw [hempty] at hend
      cases hend
    have hcount : (insertAll links).UllCount fuel = .ok (0, (insertAll links).hookRoots) := by
      rw [UllCount]
      exact if_pos (by rw [hlen, hempty, List.length_nil])
    rw [hcount, hno]
    refine ⟨Nat.zero_le _, Set.ncard_empty _ |>.symm, Fin.elim0, fun r => r.elim0, ?_,
      fun r => r.elim0⟩
    exact Set.range_eq_empty _
  · obtain ⟨node, -⟩ := List.exists_mem_of_ne_nil _ hempty
    have : Inhabited (PlanTree α) := ⟨.node node.m_value []⟩
    have hne := rootIds_ne_nil hs hempty
    have hfuel0 : rankOf (insertAll links) rank links.length 0 < fuel := by
      rw [rankOf, if_pos rfl]
      omega
    have hmeets := nodeCount_meets (counts_planCount hs) (rankedBy_rankOf hs) fuel 0
      (insertAll links).hookRoots.m_counts hfuel0 (by
        intro j n hn
        have hnone : (insertAll links).hookRoots.m_counts = fun _ => none := hs.ok.counts
        rw [hnone] at hn
        cases hn)
    have hcount : (insertAll links).UllCount fuel =
        (nodeCount (insertAll links).hookRoots fuel 0 (insertAll links).hookRoots.m_counts).map
          fun r => (r.1, { (insertAll links).hookRoots with m_counts := r.2 }) := by
      rw [UllCount]
      exact if_neg (by rw [hlen, List.length_eq_zero_iff]; exact hempty)
    rw [hcount]
    unfold Meets at hmeets
    cases hres : nodeCount (insertAll links).hookRoots fuel 0
        (insertAll links).hookRoots.m_counts with
    | error e =>
      rw [hres] at hmeets
      exact ⟨hmeets.1, fun hfit => hmeets.2 (fits_of_countsFit hs hfit)⟩
    | ok res =>
      obtain ⟨n, counts⟩ := res
      rw [hres] at hmeets
      obtain ⟨hn, hle, hok, -, hroot⟩ := hmeets
      dsimp only at hn hle hok hroot
      rw [planCount_zero hs hne] at hn
      have hranked := ranked_roots hs (show links.length < fuel by omega)
      rw [← hn] at hranked
      refine ⟨hle, hranked.ncard.symm, fun r => sumAt (planCount (insertAll links) links.toFinset)
        (planAt (insertAll links) links.toFinset fuel) (rootIds (insertAll links)) r, ?_, ?_, ?_⟩
      · exact fun r r' heq => Fin.ext (hranked.injOn r.isLt r'.isLt heq)
      · ext t
        constructor
        · rintro ⟨r, rfl⟩
          exact hranked.mapsTo r.isLt
        · intro ht
          obtain ⟨r, hr, rfl⟩ := hranked.surjOn ht
          exact ⟨⟨r, hr⟩, rfl⟩
      · intro r
        have hknown : Known (planCount (insertAll links) links.toFinset) counts
            (rootIds (insertAll links)) := by
          have hzero := planCount_zero hs hne
          refine @known_children α _ _ _ hok 0 ?_ ?_ _ ?_
          · rw [hroot, hzero, hn]
          · have := r.isLt
            omega
          · rw [children, hookRoots_root hs.ok.root, if_neg hne]
            exact List.mem_singleton_self _
        have hr : r.val < slotCount (planCount (insertAll links) links.toFinset)
            (rootIds (insertAll links)) := hn ▸ r.isLt
        exact PrUnrank_eq hs (by omega) hok hknown hne hr

omit [Inhabited (PlanTree α)] in
theorem acyclic_of_forall (links : List (α × ℕ × α)) (rank : α → ℕ)
    (h : ∀ l ∈ links, rank l.2.2 < rank l.1) : Acyclic links.toFinset := by
  refine acyclic_of_rank rank fun a b hab => ?_
  obtain ⟨pos, hl⟩ := hab
  exact h (a, pos, b) (List.mem_toFinset.mp hl)

/-- Two joins over a shared scan: the first position of 10 has the alternatives 1 and 2. -/
def sharedLinks : List (ℕ × ℕ × ℕ) :=
  [(10, 0, 1), (10, 0, 2), (10, 1, 3), (1, 0, 3), (2, 0, 3), (2, 0, 4)]

theorem ullCount_exact_sharedLinks : (rootPlans sharedLinks.toFinset).ncard = 3 := by
  have h := ullCount_exact sharedLinks
    (acyclic_of_forall sharedLinks (fun v => if v = 10 then 2 else if v < 3 then 1 else 0)
      (by decide)) 8 (by decide)
  have hcount : ((insertAll sharedLinks).UllCount 8).map Prod.fst = .ok 3 := by decide +kernel
  cases hres : (insertAll sharedLinks).UllCount 8 with
  | error e =>
    rw [hres] at hcount
    cases hcount
  | ok r =>
    rw [hres] at h hcount
    injection hcount with hcount
    exact h.2.1.symm.trans hcount

/-- The node 5 has 2^32 plans; 10 takes it twice and then asks for 20, which has no plan because
nothing is linked at its first position. -/
def overflowLinks : List (ℕ × ℕ × ℕ) :=
  [(0, 0, 100), (0, 0, 101), (1, 0, 0), (1, 1, 0), (2, 0, 1), (2, 1, 1), (3, 0, 2), (3, 1, 2),
    (4, 0, 3), (4, 1, 3), (5, 0, 4), (5, 1, 4), (10, 0, 5), (10, 1, 5), (10, 2, 20),
    (20, 1, 100)]

/-- An overflow is reported although there are no trees to count. -/
theorem ullCount_exact_overflowLinks :
    Acyclic overflowLinks.toFinset ∧ rootPlans overflowLinks.toFinset = ∅ ∧
      ((insertAll overflowLinks).UllCount 18).map Prod.fst = .error .overflow := by
  refine ⟨acyclic_of_forall overflowLinks
    (fun v => if v = 10 then 8 else if v = 20 then 1 else if v < 6 then v + 1 else 0) (by decide),
    Set.eq_empty_iff_forall_notMem.mpr ?_, by decide +kernel⟩
  rintro t ⟨hplan, ⟨l, hl, hend⟩, hno⟩
  have hroot : t.value = 10 := by
    have hvalues : ∀ l ∈ overflowLinks.toFinset, ∀ v, (l.1 = v ∨ l.2.2 = v) →
        v = 10 ∨ ∃ l' ∈ overflowLinks.toFinset, l'.2.2 = v := by
      rintro l hl v (rfl | rfl)
      · revert l hl
        decide
      · exact .inr ⟨l, hl, rfl⟩
    rcases hvalues l hl t.value hend with h | ⟨l', hl', h⟩
    · exact h
    · exact absurd h (hno l' hl')
  cases hplan with
  | node v ts hlen hlink hts =>
    obtain rfl : v = 10 := hroot
    have h3 : arity overflowLinks.toFinset 10 = 3 := by decide +kernel
    have hlt : 2 < ts.length := by omega
    have hget := List.getElem?_eq_getElem hlt
    have h20 : ∀ c, (10, 2, c) ∈ overflowLinks.toFinset → c = 20 := by
      intro c hc
      simpa [overflowLinks] using hc
    have hchild := h20 _ (hlink 2 _ hget)
    have hplan20 := hts _ (List.getElem_mem hlt)
    generalize ts[2] = t at hchild hplan20
    cases hplan20 with
    | node w us hlen' hlink' _ =>
      obtain rfl : w = 20 := hchild
      have h2 : arity overflowLinks.toFinset 20 = 2 := by decide +kernel
      have hlt' : 0 < us.length := by omega
      have hfirst := hlink' 0 _ (List.getElem?_eq_getElem hlt')
      simp [overflowLinks] at hfirst

end CTreeMap

end BossOptimizer

import BossOptimizer.Search.CTreeMap

/-!
# Inserting links into a tree map

The nodes that a sequence of `Insert`s builds, described by the set of links alone: a node has as
many child arrays as the largest position asks for, and the array of a position holds exactly
the nodes of the children linked there, each once.
-/

namespace BossOptimizer

namespace CTreeMap

variable {α : Type} {nodes : List (CTreeNode α)}

/-- The value of a node number. -/
def valueOf (nodes : List (CTreeNode α)) : ℕ → Option α
  | 0 => none
  | i + 1 => nodes[i]?.map CTreeNode.m_value

/-- The candidates of a position. -/
def slotOf (ptn : CTreeNode α) (pos : ℕ) : List ℕ := ptn.m_pdrgdrgptn[pos]?.getD []

theorem valueOf_mem {j : ℕ} {v : α} (h : valueOf nodes j = some v) :
    v ∈ nodes.map CTreeNode.m_value := by
  cases j with
  | zero => cases h
  | succ i =>
    obtain ⟨ptn, hptn, rfl⟩ := Option.map_eq_some_iff.mp h
    exact List.mem_map_of_mem (List.mem_of_getElem? hptn)

theorem valueOf_inj (hnd : (nodes.map CTreeNode.m_value).Nodup) {i j : ℕ} {v : α}
    (hi : valueOf nodes i = some v) (hj : valueOf nodes j = some v) : i = j := by
  cases i with
  | zero => cases hi
  | succ i =>
    cases j with
    | zero => cases hj
    | succ j =>
      rw [valueOf, ← List.getElem?_map] at hi hj
      obtain ⟨hlt, hget⟩ := List.getElem?_eq_some_iff.mp hi
      obtain ⟨hlt', hget'⟩ := List.getElem?_eq_some_iff.mp hj
      have := hnd.getElem_inj_iff.mp (hget.trans hget'.symm)
      omega

theorem valueOf_append (ext : List (CTreeNode α)) {j : ℕ} {v : α}
    (h : valueOf nodes j = some v) : valueOf (nodes ++ ext) j = some v := by
  cases j with
  | zero => cases h
  | succ i =>
    obtain ⟨ptn, hptn, rfl⟩ := Option.map_eq_some_iff.mp h
    rw [valueOf, List.getElem?_append_left (List.getElem?_eq_some_iff.mp hptn).1, hptn]
    rfl

theorem valueOf_concat {x : CTreeNode α} {j : ℕ} {v : α}
    (h : valueOf (nodes ++ [x]) j = some v) : valueOf nodes j = some v ∨ v = x.m_value := by
  cases j with
  | zero => cases h
  | succ i =>
    rw [valueOf] at h ⊢
    by_cases hi : i < nodes.length
    · rw [List.getElem?_append_left hi] at h
      exact .inl h
    · rw [List.getElem?_append_right (by omega)] at h
      obtain ⟨ptn, hptn, rfl⟩ := Option.map_eq_some_iff.mp h
      obtain rfl : ptn = x := by
        have := List.mem_of_getElem? hptn
        simpa using this
      exact .inr rfl

variable [DecidableEq α] {links : Finset (α × ℕ × α)}

/-- The number of child positions that the links give a value. -/
def arity (links : Finset (α × ℕ × α)) (value : α) : ℕ :=
  (links.filter fun l => l.1 = value).sup fun l => l.2.1 + 1

/-- The nodes are those that the links describe. -/
structure NodesOk (nodes : List (CTreeNode α)) (links : Finset (α × ℕ × α)) : Prop where
  nodup : (nodes.map CTreeNode.m_value).Nodup
  ends : ∀ l ∈ links, l.1 ∈ nodes.map CTreeNode.m_value ∧ l.2.2 ∈ nodes.map CTreeNode.m_value
  length : ∀ ptn ∈ nodes, ptn.m_pdrgdrgptn.length = arity links ptn.m_value
  slotNodup : ∀ ptn ∈ nodes, ∀ pos, (slotOf ptn pos).Nodup
  slots : ∀ ptn ∈ nodes, ∀ pos j, j ∈ slotOf ptn pos ↔
    ∃ c, valueOf nodes j = some c ∧ (ptn.m_value, pos, c) ∈ links
  incoming : ∀ ptn ∈ nodes, ptn.m_ulIncoming = 0 ↔ ∀ l ∈ links, l.2.2 ≠ ptn.m_value

theorem nodesOk_nil : NodesOk ([] : List (CTreeNode α)) ∅ :=
  ⟨List.nodup_nil, by simp, by simp, by simp, by simp, by simp⟩

/-! ## `Ptn` -/

/-- What `Ptn` returns: the number of the value's node, in nodes that describe the same links. -/
structure PtnSpec (nodes : List (CTreeNode α)) (links : Finset (α × ℕ × α)) (v : α)
    (r : ℕ × List (CTreeNode α)) : Prop where
  ok : NodesOk r.2 links
  value : valueOf r.2 r.1 = some v
  mem : ∀ w, w ∈ r.2.map CTreeNode.m_value ↔ w ∈ nodes.map CTreeNode.m_value ∨ w = v
  kept : ∀ j w, valueOf nodes j = some w → valueOf r.2 j = some w

theorem Ptn_spec (h : NodesOk nodes links) (v : α) : PtnSpec nodes links v (Ptn nodes v) := by
  unfold Ptn idOf?
  cases hidx : nodes.findIdx? fun ptn => ptn.m_value = v with
  | some i =>
    obtain ⟨hlt, hv, -⟩ := List.findIdx?_eq_some_iff_getElem.mp hidx
    have hval : valueOf nodes (i + 1) = some v := by
      rw [valueOf, List.getElem?_eq_getElem hlt]
      simpa using hv
    refine ⟨h, hval, fun w => (or_iff_left_of_imp ?_).symm, fun _ _ hj => hj⟩
    rintro rfl
    exact valueOf_mem hval
  | none =>
    have hfresh : v ∉ nodes.map CTreeNode.m_value := by
      rw [List.findIdx?_eq_none_iff] at hidx
      intro hmem
      obtain ⟨ptn, hptn, rfl⟩ := List.mem_map.mp hmem
      simpa using hidx ptn hptn
    have hnolink : ∀ l ∈ links, l.1 ≠ v ∧ l.2.2 ≠ v := fun l hl =>
      ⟨fun heq => hfresh (heq ▸ (h.ends l hl).1), fun heq => hfresh (heq ▸ (h.ends l hl).2)⟩
    have hval : ∀ {j c}, (∃ v', valueOf (nodes ++ [⟨v, [], 0⟩]) j = some c ∧ (v', c) ∈
        links.image fun l => (l.1, l.2.2)) → valueOf nodes j = some c := by
      rintro j c ⟨v', hj, hmem⟩
      rcases valueOf_concat hj with hj | rfl
      · exact hj
      · obtain ⟨l, hl, heq⟩ := Finset.mem_image.mp hmem
        exact absurd (congrArg Prod.snd heq) (hnolink l hl).2
    have hsplit : ∀ ptn, ptn ∈ nodes ++ [⟨v, [], 0⟩] → ptn ∈ nodes ∨ ptn = ⟨v, [], 0⟩ := by simp
    simp only [Option.map_none]
    refine ⟨⟨?_, ?_, ?_, ?_, ?_, ?_⟩, ?_, fun w => by simp, fun j w => valueOf_append _⟩
    · rw [List.map_append, List.nodup_append]
      refine ⟨h.nodup, by simp, ?_⟩
      rintro a ha b hb rfl
      simp only [List.map_cons, List.map_nil, List.mem_singleton] at hb
      exact hfresh (hb ▸ ha)
    · intro l hl
      simp only [List.map_append, List.mem_append]
      exact ⟨.inl (h.ends l hl).1, .inl (h.ends l hl).2⟩
    · intro ptn hptn
      rcases hsplit ptn hptn with hptn | rfl
      · exact h.length ptn hptn
      · refine (Finset.sup_eq_bot_iff _ _ |>.mpr fun l hl => ?_).symm
        exact absurd (Finset.mem_filter.mp hl).2 (hnolink l (Finset.mem_filter.mp hl).1).1
    · intro ptn hptn pos
      rcases hsplit ptn hptn with hptn | rfl
      · exact h.slotNodup ptn hptn pos
      · simp [slotOf]
    · intro ptn hptn pos j
      rcases hsplit ptn hptn with hptn | rfl
      · rw [h.slots ptn hptn pos j]
        refine exists_congr fun c => and_congr_left fun hl => ⟨valueOf_append _, fun hj => ?_⟩
        exact hval ⟨_, hj, Finset.mem_image.mpr ⟨_, hl, rfl⟩⟩
      · refine iff_of_false (by simp [slotOf]) ?_
        rintro ⟨c, -, hl⟩
        exact (hnolink _ hl).1 rfl
    · intro ptn hptn
      rcases hsplit ptn hptn with hptn | rfl
      · exact h.incoming ptn hptn
      · exact iff_of_true rfl fun l hl => (hnolink l hl).2
    · simp [valueOf]

/-! ## `Add` -/

theorem modify_eq_map (hnd : (nodes.map CTreeNode.m_value).Nodup) {i : ℕ} {v : α}
    (hi : valueOf nodes i = some v) (f : CTreeNode α → CTreeNode α) :
    nodes.modify (i - 1) f = nodes.map fun ptn => if ptn.m_value = v then f ptn else ptn := by
  cases i with
  | zero => cases hi
  | succ i =>
    apply List.ext_getElem?
    intro k
    rw [Nat.add_sub_cancel, List.getElem?_modify, List.getElem?_map]
    cases hk : nodes[k]? with
    | none => rfl
    | some ptn =>
      have hkv : valueOf nodes (k + 1) = some ptn.m_value := by rw [valueOf, hk]; rfl
      by_cases hv : ptn.m_value = v
      · have hik := valueOf_inj hnd hi (hv ▸ hkv)
        have hik' : i = k := by omega
        simp [hv, hik']
      · have hik : i ≠ k := by
          rintro rfl
          rw [hi, Option.some.injEq] at hkv
          exact hv hkv.symm
        simp [hv, hik]

theorem addAt_length (pdrgdrg : List (List ℕ)) (pos ul : ℕ) :
    (addAt pdrgdrg pos ul).length = max pdrgdrg.length (pos + 1) := by
  induction pos generalizing pdrgdrg with
  | zero => cases pdrgdrg <;> simp [addAt]
  | succ pos ih => cases pdrgdrg <;> simp [addAt, ih]

theorem addAt_getElem? (pdrgdrg : List (List ℕ)) (pos ul q : ℕ) :
    ((addAt pdrgdrg pos ul)[q]?).getD [] =
      if q = pos then (pdrgdrg[q]?).getD [] ++ [ul] else (pdrgdrg[q]?).getD [] := by
  induction pos generalizing pdrgdrg q with
  | zero =>
    cases pdrgdrg <;> cases q <;> simp [addAt]
  | succ pos ih =>
    cases pdrgdrg <;> cases q <;> simp [addAt, ih]

/-- The node after a link from `p` at `pos` to the node `ul` of `c`. -/
def linked (p : α) (pos ul : ℕ) (c : α) (ptn : CTreeNode α) : CTreeNode α where
  m_value := ptn.m_value
  m_pdrgdrgptn := if ptn.m_value = p then addAt ptn.m_pdrgdrgptn pos ul else ptn.m_pdrgdrgptn
  m_ulIncoming := if ptn.m_value = c then ptn.m_ulIncoming + 1 else ptn.m_ulIncoming

theorem valueOf_map_linked (p : α) (pos ul : ℕ) (c : α) (j : ℕ) :
    valueOf (nodes.map (linked p pos ul c)) j = valueOf nodes j := by
  cases j with
  | zero => rfl
  | succ i =>
    rw [valueOf, valueOf, List.getElem?_map, Option.map_map]
    rfl

theorem Add_eq_map (hnd : (nodes.map CTreeNode.m_value).Nodup) {i j pos : ℕ} {p c : α}
    (hi : valueOf nodes i = some p) (hj : valueOf nodes j = some c) :
    Add nodes i pos j = nodes.map (linked p pos j c) := by
  have hval : ∀ f : CTreeNode α → CTreeNode α, (∀ ptn, (f ptn).m_value = ptn.m_value) → ∀ k,
      valueOf (nodes.map f) k = valueOf nodes k := by
    intro f hf k
    cases k with
    | zero => rfl
    | succ k =>
      rw [valueOf, valueOf, List.getElem?_map, Option.map_map]
      exact congrArg (Option.map · _) (funext hf)
  have hinc : ∀ ptn : CTreeNode α, (if ptn.m_value = c then
      { ptn with m_ulIncoming := ptn.m_ulIncoming + 1 } else ptn).m_value = ptn.m_value := by
    intro ptn
    split <;> rfl
  rw [Add, modify_eq_map hnd hj, modify_eq_map (v := p)]
  · rw [List.map_map]
    refine List.map_congr_left fun ptn _ => ?_
    simp only [Function.comp_apply, linked]
    by_cases hc : ptn.m_value = c
    · rw [if_pos hc, if_pos hc]
      dsimp only
      split <;> rfl
    · rw [if_neg hc, if_neg hc]
      split <;> rfl
  · rw [List.map_map, show (CTreeNode.m_value ∘ _) = CTreeNode.m_value from funext hinc]
    exact hnd
  · rw [hval _ hinc, hi]

theorem arity_insert (p : α) (pos : ℕ) (c v : α) :
    arity (insert (p, pos, c) links) v =
      if v = p then max (arity links v) (pos + 1) else arity links v := by
  unfold arity
  rw [Finset.filter_insert]
  by_cases hv : v = p
  · rw [if_pos hv.symm, if_pos hv, Finset.sup_insert, max_comm]
  · rw [if_neg (fun h => hv h.symm), if_neg hv]

/-- **One new link** keeps the nodes those that the links describe. -/
theorem Add_ok (h : NodesOk nodes links) {i j pos : ℕ} {p c : α} (hi : valueOf nodes i = some p)
    (hj : valueOf nodes j = some c) (hnew : (p, pos, c) ∉ links) :
    NodesOk (Add nodes i pos j) (insert (p, pos, c) links) := by
  rw [Add_eq_map h.nodup hi hj]
  have hvalues : (nodes.map (linked p pos j c)).map CTreeNode.m_value =
      nodes.map CTreeNode.m_value := by
    rw [List.map_map]
    rfl
  have hslot : ∀ ptn q, slotOf (linked p pos j c ptn) q =
      if ptn.m_value = p ∧ q = pos then slotOf ptn q ++ [j] else slotOf ptn q := by
    intro ptn q
    unfold slotOf linked
    by_cases hp : ptn.m_value = p
    · simp [hp, addAt_getElem?]
    · simp [hp]
  refine ⟨hvalues ▸ h.nodup, ?_, ?_, ?_, ?_, ?_⟩
  · rw [hvalues]
    intro l hl
    rcases Finset.mem_insert.mp hl with rfl | hl
    · exact ⟨valueOf_mem hi, valueOf_mem hj⟩
    · exact h.ends l hl
  · intro ptn' hptn'
    obtain ⟨ptn, hptn, rfl⟩ := List.mem_map.mp hptn'
    have hlen := h.length ptn hptn
    rw [arity_insert]
    change (if ptn.m_value = p then addAt ptn.m_pdrgdrgptn pos j else ptn.m_pdrgdrgptn).length =
      if ptn.m_value = p then max (arity links ptn.m_value) (pos + 1) else arity links ptn.m_value
    by_cases hp : ptn.m_value = p
    · rw [if_pos hp, if_pos hp, addAt_length, hlen]
    · rw [if_neg hp, if_neg hp, hlen]
  · intro ptn' hptn' q
    obtain ⟨ptn, hptn, rfl⟩ := List.mem_map.mp hptn'
    rw [hslot]
    split
    · next hc =>
      rw [List.nodup_append]
      refine ⟨h.slotNodup ptn hptn q, by simp, ?_⟩
      rintro a ha b hb rfl
      rw [List.mem_singleton] at hb
      obtain ⟨c', hc', hl⟩ := (h.slots ptn hptn q a).mp ha
      rw [hb, hj, Option.some.injEq] at hc'
      rw [hc.1, hc.2, ← hc'] at hl
      exact hnew hl
    · exact h.slotNodup ptn hptn q
  · intro ptn' hptn' q k
    obtain ⟨ptn, hptn, rfl⟩ := List.mem_map.mp hptn'
    have hk := h.slots ptn hptn q k
    have hvalue : (linked p pos j c ptn).m_value = ptn.m_value := rfl
    simp only [valueOf_map_linked, Finset.mem_insert, Prod.mk.injEq, hvalue, hslot]
    constructor
    · intro hmem
      split at hmem
      · next hc =>
        rcases List.mem_append.mp hmem with hmem | hmem
        · obtain ⟨c', hc', hl⟩ := hk.mp hmem
          exact ⟨c', hc', .inr hl⟩
        · rw [List.mem_singleton.mp hmem]
          exact ⟨c, hj, .inl ⟨hc.1, hc.2, rfl⟩⟩
      · obtain ⟨c', hc', hl⟩ := hk.mp hmem
        exact ⟨c', hc', .inr hl⟩
    · rintro ⟨c', hc', ⟨hp, hq, rfl⟩ | hl⟩
      · rw [if_pos ⟨hp, hq⟩, valueOf_inj h.nodup hc' hj]
        simp
      · have hmem := hk.mpr ⟨c', hc', hl⟩
        split
        · exact List.mem_append_left _ hmem
        · exact hmem
  · intro ptn' hptn'
    obtain ⟨ptn, hptn, rfl⟩ := List.mem_map.mp hptn'
    have hin := h.incoming ptn hptn
    simp only [linked, Finset.forall_mem_insert]
    split
    · next hc => simp [hc]
    · next hc =>
      rw [hin]
      exact (and_iff_right fun heq => hc heq.symm).symm

/-! ## `Insert` -/

/-- The map that a set of links describes, before anything is counted. -/
structure MapOk (m : CTreeMap α) (links : Finset (α × ℕ × α)) : Prop where
  nodes : NodesOk m.nodes links
  used : ∀ v ∈ m.nodes.map CTreeNode.m_value, ∃ l ∈ links, l.1 = v ∨ l.2.2 = v
  linkmap : ∀ l, l ∈ m.m_plinkmap ↔ l ∈ links
  root : m.m_ptnRoot = []
  counts : m.m_counts = fun _ => none

theorem mapOk_new : MapOk (new : CTreeMap α) ∅ :=
  ⟨nodesOk_nil, by simp [new], by simp [new], rfl, rfl⟩

/-- **`Insert` adds its link**, unless it exists. -/
theorem Insert_ok {m : CTreeMap α} (h : MapOk m links) (p : α) (pos : ℕ) (c : α) :
    MapOk (m.Insert p pos c) (insert (p, pos, c) links) := by
  unfold Insert
  split
  · next hmem => rwa [Finset.insert_eq_of_mem ((h.linkmap _).mp hmem)]
  · next hmem =>
    have hparent := Ptn_spec h.nodes p
    have hchild := Ptn_spec hparent.ok c
    have hnew : (p, pos, c) ∉ links := fun hl => hmem ((h.linkmap _).mpr hl)
    have hp := hchild.kept _ _ hparent.value
    refine ⟨Add_ok hchild.ok hp hchild.value hnew, fun v hv => ?_, fun l => ?_, h.root, h.counts⟩
    · change v ∈ (Add (Ptn (Ptn m.nodes p).2 c).2 (Ptn m.nodes p).1 pos
        (Ptn (Ptn m.nodes p).2 c).1).map CTreeNode.m_value at hv
      rw [Add_eq_map hchild.ok.nodup hp hchild.value, List.map_map] at hv
      have hv' : v ∈ (Ptn (Ptn m.nodes p).2 c).2.map CTreeNode.m_value := hv
      rw [hchild.mem, hparent.mem] at hv'
      rcases hv' with (hv' | rfl) | rfl
      · obtain ⟨l, hl, hlv⟩ := h.used v hv'
        exact ⟨l, Finset.mem_insert_of_mem hl, hlv⟩
      · exact ⟨_, Finset.mem_insert_self _ _, .inl rfl⟩
      · exact ⟨_, Finset.mem_insert_self _ _, .inr rfl⟩
    · simp [h.linkmap, or_comm]

/-- The map after inserting links one by one. -/
def insertAll (links : List (α × ℕ × α)) : CTreeMap α :=
  links.foldl (fun m l => m.Insert l.1 l.2.1 l.2.2) new

theorem insertAll_ok (links : List (α × ℕ × α)) : MapOk (insertAll links) links.toFinset := by
  suffices key : ∀ (links : List (α × ℕ × α)) (m : CTreeMap α) (done : Finset (α × ℕ × α)),
      MapOk m done → MapOk (links.foldl (fun m l => m.Insert l.1 l.2.1 l.2.2) m)
        (done ∪ links.toFinset) by
    simpa [insertAll] using key links new ∅ mapOk_new
  intro links
  induction links with
  | nil =>
    intro m done h
    simpa using h
  | cons l links ih =>
    intro m done h
    have hstep := ih _ _ (Insert_ok h l.1 l.2.1 l.2.2)
    rwa [Finset.insert_union, ← Finset.union_insert, ← List.toFinset_cons] at hstep

end CTreeMap

end BossOptimizer

import BossOptimizer.Search.TreeMapCount

/-!
# Unranking with the counts of a tree map

When the counts are known, `nodeUnrank` changes nothing and builds the tree that the mixed-radix
reading of the rank describes (`treeAt`).
-/

namespace BossOptimizer

namespace CTreeMap

open Ranking

variable {α R : Type} {m : CTreeMap α} {N rank : ℕ → ℕ} {counts : ℕ → Option ℕ}

/-- The tree of a rank, read off the counts `N`. -/
def treeAt [Inhabited R] (m : CTreeMap α) (prfn : α → List R → R) (N : ℕ → ℕ) : ℕ → ℕ → ℕ → R
  | 0, _, _ => default
  | fuel + 1, ul, ullRank =>
    match m.nodes[ul - 1]? with
    | some ptn => prfn ptn.m_value
        (digitsAt (slotCount N) (sumAt N (treeAt m prfn N fuel)) (m.children ul) ullRank)
    | none => default

/-- The candidates of a child are counted. -/
def Known (N : ℕ → ℕ) (counts : ℕ → Option ℕ) (pdrg : List ℕ) : Prop :=
  ∀ ptn ∈ pdrg, counts ptn = some (N ptn)

theorem nodeCount_known {ul n fuel : ℕ} (h : counts ul = some n) :
    nodeCount m (fuel + 1) ul counts = .ok (n, counts) := by
  simp only [nodeCount, bind, StateT.bind, get, getThe, MonadStateOf.get, StateT.get, pure,
    Except.pure, Except.bind, h, StateT.pure]

/-- Counting known candidates reads the sum and changes nothing. -/
theorem sumCounts_known {fuel : ℕ} {pdrg : List ℕ} (h : Known N counts pdrg)
    (hfuel : pdrg ≠ [] → 0 < fuel) :
    ∀ acc, acc + slotCount N pdrg ≤ ullong_max →
      Meets (sumCounts (nodeCount m fuel) pdrg acc) counts
        (fun n s => n = acc + slotCount N pdrg ∧ s = counts) (fun _ => False) := by
  induction pdrg with
  | nil => exact fun acc _ => Meets.pure ⟨rfl, rfl⟩
  | cons ptn rest ih =>
    intro acc hle
    obtain ⟨fuel, rfl⟩ := Nat.exists_eq_succ_of_ne_zero (hfuel (List.cons_ne_nil ptn rest)).ne'
    have hcons : slotCount N (ptn :: rest) = N ptn + slotCount N rest := by simp [slotCount]
    rw [hcons] at hle ⊢
    refine Meets.bind (Meets.of_eq (nodeCount_known (h ptn List.mem_cons_self))
      (P := fun n s => n = N ptn ∧ s = counts) ⟨rfl, rfl⟩) ?_
    rintro n s ⟨rfl, rfl⟩
    refine Meets.bind (P := fun b s' => b = acc + N ptn ∧ s' = s)
      (Meets.lift (fun b hb => ?_) fun e he => ?_) ?_
    · exact ⟨((gposAdd_eq_ok (by omega)).mp hb).1, rfl⟩
    · have := (gposAdd_eq_error he).2
      omega
    · rintro b s' ⟨rfl, rfl⟩
      refine (ih (fun p hp => h p (List.mem_cons_of_mem ptn hp)) (fun _ => Nat.succ_pos fuel)
        (acc + N ptn) (by omega)).mono fun n s h => ?_
      exact ⟨by omega, h.2⟩

/-- Among known candidates, a rank below their sum finds its candidate. -/
theorem findCandidate_known [Inhabited R] (F : ℕ → ℕ → R) {fuel : ℕ} {pdrg : List ℕ}
    (h : Known N counts pdrg) (hfuel : pdrg ≠ [] → 0 < fuel) :
    ∀ last ullRank, ullRank < slotCount N pdrg →
      Meets (findCandidate (nodeCount m fuel) pdrg last ullRank) counts
        (fun r s => s = counts ∧ ∃ ptn ∈ pdrg, ∃ k < N ptn, r = (some ptn, k) ∧
          sumAt N F pdrg ullRank = F ptn k) (fun _ => False) := by
  induction pdrg with
  | nil => exact fun last r hr => absurd hr (by simp [slotCount])
  | cons ptn rest ih =>
    intro last ullRank hr
    obtain ⟨fuel, rfl⟩ := Nat.exists_eq_succ_of_ne_zero (hfuel (List.cons_ne_nil ptn rest)).ne'
    have hcons : slotCount N (ptn :: rest) = N ptn + slotCount N rest := by simp [slotCount]
    refine Meets.bind (Meets.of_eq (nodeCount_known (h ptn List.mem_cons_self))
      (P := fun n s => n = N ptn ∧ s = counts) ⟨rfl, rfl⟩) ?_
    rintro n s ⟨rfl, rfl⟩
    split
    · next hlt =>
      exact Meets.pure ⟨rfl, ptn, List.mem_cons_self, ullRank, hlt, rfl, if_pos hlt⟩
    · next hge =>
      refine (ih (fun p hp => h p (List.mem_cons_of_mem ptn hp)) (fun _ => Nat.succ_pos fuel)
        (some ptn) (ullRank - N ptn) (by omega)).mono fun r s' hres => ?_
      obtain ⟨hs, p, hp, k, hk, hrk, hsum⟩ := hres
      exact ⟨hs, p, List.mem_cons_of_mem ptn hp, k, hk, hrk, by rw [sumAt, if_neg hge, hsum]⟩

/-- The candidates of a counted node with trees are counted. -/
theorem known_children (hok : CountsOk m N counts) {ul : ℕ} (hul : counts ul = some (N ul))
    (hpos : N ul ≠ 0) : ∀ pdrg ∈ m.children ul, Known N counts pdrg := by
  intro pdrg hpdrg ptn hptn
  obtain ⟨n, hn⟩ := Option.isSome_iff_exists.mp ((hok ul _ hul).2.2 hpos pdrg hpdrg ptn hptn)
  rw [hn, (hok ptn n hn).1]

theorem slotCount_le {pdrgdrg : List (List ℕ)} {pdrg : List ℕ} (hpos : arityCount N pdrgdrg ≠ 0)
    (hmem : pdrg ∈ pdrgdrg) : slotCount N pdrg ≠ 0 ∧ slotCount N pdrg ≤ arityCount N pdrgdrg := by
  have hdvd : slotCount N pdrg ∣ arityCount N pdrgdrg :=
    List.dvd_prod (List.mem_map_of_mem hmem)
  exact ⟨fun h0 => hpos (Nat.eq_zero_of_zero_dvd (h0 ▸ hdvd)),
    Nat.le_of_dvd (Nat.pos_of_ne_zero hpos) hdvd⟩

/-- The loop over the children reads the digits of the rank. -/
theorem unrankChildren_known [Inhabited R] {fuel : ℕ} {unrank : ℕ → ℕ → CountM R}
    {F : ℕ → ℕ → R} {rest : List (List ℕ)}
    (hknown : ∀ pdrg ∈ rest, Known N counts pdrg ∧ slotCount N pdrg ≠ 0 ∧
      slotCount N pdrg ≤ ullong_max ∧ (pdrg ≠ [] → 0 < fuel))
    (hunrank : ∀ pdrg ∈ rest, ∀ ptn ∈ pdrg, ∀ k < N ptn,
      Meets (unrank ptn k) counts (fun t s => t = F ptn k ∧ s = counts) (fun _ => False)) :
    ∀ ullRank, Meets (unrankChildren (nodeCount m fuel) unrank rest ullRank) counts
      (fun ts s => ts = digitsAt (slotCount N) (sumAt N F) rest ullRank ∧ s = counts)
      (fun _ => False) := by
  induction rest with
  | nil => exact fun _ => Meets.pure ⟨rfl, rfl⟩
  | cons pdrg rest ih =>
    intro ullRank
    obtain ⟨hpdrg, hnz, hle, hfuel⟩ := hknown pdrg List.mem_cons_self
    have hih := ih (fun p hp => hknown p (List.mem_cons_of_mem pdrg hp))
      fun p hp => hunrank p (List.mem_cons_of_mem pdrg hp)
    refine Meets.bind (sumCounts_known hpdrg hfuel 0 (by omega)) fun n s hn => ?_
    obtain ⟨hn, rfl⟩ := hn
    rw [Nat.zero_add] at hn
    subst hn
    have hdigit : ullRank % slotCount N pdrg < slotCount N pdrg :=
      Nat.mod_lt _ (Nat.pos_of_ne_zero hnz)
    refine Meets.bind (findCandidate_known F hpdrg hfuel none _ hdigit) fun r s' hr => ?_
    obtain ⟨rfl, ptn, hptn, k, hk, rfl, hsum⟩ := hr
    refine Meets.bind (hunrank pdrg List.mem_cons_self ptn hptn k hk) fun t s ht => ?_
    obtain ⟨rfl, rfl⟩ := ht
    refine Meets.bind (hih (ullRank / slotCount N pdrg)) fun ts s' hts => ?_
    obtain ⟨rfl, rfl⟩ := hts
    exact Meets.pure ⟨by rw [digitsAt, hsum], rfl⟩

/-- Every candidate is a node with a value. -/
def Closed (m : CTreeMap α) : Prop :=
  ∀ ul, ∀ pdrg ∈ m.children ul, ∀ ptn ∈ pdrg, (m.nodes[ptn - 1]?).isSome

/-- **Unranking a counted node** builds the tree of the rank and changes nothing. -/
theorem nodeUnrank_known [Inhabited R] {prfn : α → List R → R} (hN : Counts m N)
    (hrank : RankedBy m rank) (hclosed : Closed m) (hok : CountsOk m N counts) :
    ∀ fuel ul ullRank, rank ul < fuel → (m.nodes[ul - 1]?).isSome → counts ul = some (N ul) →
      ullRank < N ul → Meets (nodeUnrank m prfn fuel ul ullRank) counts
        (fun t s => t = treeAt m prfn N fuel ul ullRank ∧ s = counts) (fun _ => False) := by
  intro fuel
  induction fuel with
  | zero => exact fun ul r hlt => absurd hlt (by omega)
  | succ fuel ih =>
    intro ul ullRank hlt hnode hul hr
    have hpos : N ul ≠ 0 := by omega
    have hknown := known_children hok hul hpos
    have hle : N ul ≤ ullong_max := (hok ul _ hul).2.1
    have hslots : ∀ pdrg ∈ m.children ul, Known N counts pdrg ∧ slotCount N pdrg ≠ 0 ∧
        slotCount N pdrg ≤ ullong_max ∧ (pdrg ≠ [] → 0 < fuel) := by
      intro pdrg hpdrg
      rw [hN ul] at hpos hle
      obtain ⟨h1, h2⟩ := slotCount_le hpos hpdrg
      refine ⟨hknown pdrg hpdrg, h1, by omega, fun hne => ?_⟩
      obtain ⟨ptn, hptn⟩ := List.exists_mem_of_ne_nil pdrg hne
      have := hrank ul pdrg hpdrg ptn hptn
      omega
    have hunrank : ∀ pdrg ∈ m.children ul, ∀ ptn ∈ pdrg, ∀ k < N ptn,
        Meets (nodeUnrank m prfn fuel ptn k) counts
          (fun t s => t = treeAt m prfn N fuel ptn k ∧ s = counts) (fun _ => False) := by
      intro pdrg hpdrg ptn hptn k hk
      have := hrank ul pdrg hpdrg ptn hptn
      exact ih ptn k (by omega) (hclosed ul pdrg hpdrg ptn hptn) (hknown pdrg hpdrg ptn hptn) hk
    obtain ⟨node, hnode⟩ := Option.isSome_iff_exists.mp hnode
    refine Meets.bind (unrankChildren_known hslots hunrank ullRank) fun ts s hts => ?_
    obtain ⟨rfl, rfl⟩ := hts
    rw [hnode]
    exact Meets.pure ⟨by rw [treeAt, hnode], rfl⟩

end CTreeMap

end BossOptimizer

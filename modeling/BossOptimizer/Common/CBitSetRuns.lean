import BossOptimizer.Common.CBitSetElements

/-!
# Runs over bit sets

Several `CBitSet`s of one vector size, changed by any sequence of operations, next to the finite
sets that the same operations build. Which positions a set holds, whether two sets are disjoint
and what an iterator visits always agree. `Equals`, `HashValue` and `ContainsAll` compare links,
and `Intersection` keeps a link whose last bit it cleared (CBitSet.cpp:437-440), unlike
`ExchangeClear`: they agree in runs whose intersections empty no link.
-/

namespace BossOptimizer

namespace CBitSet

variable {vs : VectorSize}

/-- A bit set that holds the positions of a finite set. -/
structure Represents (s : CBitSet vs) (A : Finset ℕ) : Prop where
  ok : LinksOk s.m_bsllist
  holds : ∀ p, Holds s.m_bsllist p ↔ p ∈ A
  bound : ∀ p ∈ A, p < 2 ^ 32
  size : s.m_size = A.card % 2 ^ 32

theorem card_elements {links : List (CBitSetLink vs)} {A : Finset ℕ} (h : LinksOk links)
    (hA : ∀ p, Holds links p ↔ p ∈ A) : (elements links).length = A.card := by
  have hnodup : (elements links).Nodup := (elements_sorted h).imp fun hlt => hlt.ne
  rw [← List.toFinset_card_of_nodup hnodup]
  congr 1
  ext p
  rw [List.mem_toFinset, mem_elements h, hA]

theorem represents_recompute {links : List (CBitSetLink vs)} {A : Finset ℕ} (h : LinksOk links)
    (hA : ∀ p, Holds links p ↔ p ∈ A) (hbound : ∀ p ∈ A, p < 2 ^ 32) :
    Represents (RecomputeSize links) A :=
  ⟨h, hA, hbound, by rw [RecomputeSize_size, card_elements h hA]⟩

theorem represents_new : Represents (new vs) ∅ :=
  ⟨linksOk_nil, fun p => by simp [new, Holds], by simp, rfl⟩

theorem represents_Clear (s : CBitSet vs) : Represents s.Clear ∅ :=
  represents_recompute linksOk_nil (fun p => by simp [Holds]) (by simp)

namespace Represents

variable {s t : CBitSet vs} {A B : Finset ℕ}

theorem Get (h : Represents s A) (p : ℕ) : s.Get p = decide (p ∈ A) := by
  rw [Bool.eq_iff_iff, Get_iff h.ok, h.holds, decide_eq_true_eq]

theorem ExchangeSet (h : Represents s A) {pos : ℕ} (hpos : pos < 2 ^ 32) :
    Represents (s.ExchangeSet pos).2 (insert pos A) := by
  have hspec := ExchangeSet_spec h.ok pos
  refine ⟨hspec.ok, fun p => ?_, ?_, ?_⟩
  · rw [hspec.holds, h.holds, Finset.mem_insert]
  · rw [Finset.forall_mem_insert]
    exact ⟨hpos, h.bound⟩
  · rw [hspec.size, h.Get, h.size]
    by_cases hp : pos ∈ A
    · simp [hp]
    · simp [hp, Finset.card_insert_of_notMem]

theorem ExchangeClear (h : Represents s A) (pos : ℕ) :
    Represents (s.ExchangeClear pos).2 (A.erase pos) := by
  have hspec := ExchangeClear_spec h.ok pos
  refine ⟨hspec.ok, fun p => ?_, fun p hp => h.bound p (Finset.mem_of_mem_erase hp), ?_⟩
  · rw [hspec.holds, h.holds, Finset.mem_erase]
  · rw [hspec.size, h.Get, h.size]
    by_cases hp : pos ∈ A
    · have hcard := Finset.card_erase_of_mem hp
      have hpos := Finset.card_pos.mpr ⟨pos, hp⟩
      simp only [hp, decide_true, if_true]
      omega
    · simp [hp, Finset.erase_eq_of_notMem]

theorem Union (h : Represents s A) (h' : Represents t B) : Represents (s.Union t) (A ∪ B) := by
  have hspec := Union_spec h.ok h'.ok
  refine represents_recompute hspec.ok (fun p => ?_) fun p hp => ?_
  · rw [Finset.mem_union, ← h.holds, ← h'.holds]
    exact hspec.holds p
  · exact (Finset.mem_union.mp hp).elim (h.bound p) (h'.bound p)

theorem copy (h : Represents s A) : Represents s.copy A := by
  have hcopy : Represents ((new vs).Union s) (∅ ∪ A) := represents_new.Union h
  rwa [Finset.empty_union] at hcopy

theorem Intersection (h : Represents s A) (h' : Represents t B) :
    Represents (s.Intersection (some t)) (A ∩ B) := by
  have hspec := Intersection_spec h.ok h'.ok
  refine represents_recompute hspec.ok (fun p => ?_) fun p hp => ?_
  · rw [Finset.mem_inter, ← h.holds, ← h'.holds]
    exact hspec.holds p
  · exact h.bound p (Finset.mem_inter.mp hp).1

theorem mem_elements (h : Represents s A) {p : ℕ} : p ∈ elements s.m_bsllist ↔ p ∈ A := by
  rw [CBitSet.mem_elements h.ok, h.holds]

theorem iterate (h : Represents s A) : s.iterate = some (A.sort (· ≤ ·)) := by
  rw [iterate_eq fun p hp => h.bound p (h.mem_elements.mp hp)]
  have hs : SortedList.Sorted id (elements s.m_bsllist) := elements_sorted h.ok
  have hs' : SortedList.Sorted id (A.sort (· ≤ ·)) := A.sortedLT_sort.pairwise
  rw [SortedList.sorted_ext hs hs' fun p => by rw [h.mem_elements, Finset.mem_sort]]

theorem clearAll (l : List ℕ) : ∀ {s : CBitSet vs} {A : Finset ℕ}, Represents s A →
    Represents (l.foldl (fun s pos => (s.ExchangeClear pos).2) s) (A \ l.toFinset) := by
  induction l with
  | nil =>
    intro s A h
    simpa using h
  | cons pos l ih =>
    intro s A h
    have hrec := ih (h.ExchangeClear pos)
    rwa [Finset.erase_sdiff_comm, ← Finset.sdiff_insert, ← List.toFinset_cons] at hrec

theorem IsDisjoint (h : Represents s A) (h' : Represents t B) :
    s.IsDisjoint t = true ↔ Disjoint A B := by
  rw [IsDisjoint_iff h.ok h'.ok, Finset.disjoint_left]
  simp only [h.holds, h'.holds]

theorem Difference (h : Represents s A) (h' : Represents t B) :
    ∃ s', s.Difference t = some s' ∧ Represents s' (A \ B) := by
  unfold CBitSet.Difference
  split
  · next hdis =>
    have hAB := (h.IsDisjoint h').mp hdis
    rw [Finset.sdiff_eq_self_of_disjoint hAB]
    exact ⟨s, rfl, h⟩
  · rw [h'.iterate]
    refine ⟨_, rfl, ?_⟩
    simpa using clearAll (B.sort (· ≤ ·)) h

end Represents

/-- An operation on numbered bit sets. A `Difference` is taken with another set. -/
inductive Op where
  | exchangeSet (i : ℕ) (pos : Fin (2 ^ 32))
  | exchangeClear (i : ℕ) (pos : Fin (2 ^ 32))
  | union (i j : ℕ)
  | intersection (i : ℕ) (j : Option ℕ)
  | difference (i j : ℕ) (hne : i ≠ j)
  | copy (i j : ℕ)
  | clear (i : ℕ)

/-- The bit sets after an operation: `i` is changed, and a copy replaces it by a new object. -/
def exec (sets : ℕ → CBitSet vs) : Op → Option (ℕ → CBitSet vs)
  | .exchangeSet i pos => some (Function.update sets i ((sets i).ExchangeSet pos).2)
  | .exchangeClear i pos => some (Function.update sets i ((sets i).ExchangeClear pos).2)
  | .union i j => some (Function.update sets i ((sets i).Union (sets j)))
  | .intersection i j => some (Function.update sets i ((sets i).Intersection (j.map sets)))
  | .difference i j _ => ((sets i).Difference (sets j)).map (Function.update sets i)
  | .copy i j => some (Function.update sets i (sets j).copy)
  | .clear i => some (Function.update sets i (sets i).Clear)

/-- The mathematical sets after an operation. -/
def specExec (A : ℕ → Finset ℕ) : Op → ℕ → Finset ℕ
  | .exchangeSet i pos => Function.update A i (insert pos.val (A i))
  | .exchangeClear i pos => Function.update A i ((A i).erase pos.val)
  | .union i j => Function.update A i (A i ∪ A j)
  | .intersection i (some j) => Function.update A i (A i ∩ A j)
  | .intersection _ none => A
  | .difference i j _ => Function.update A i (A i \ A j)
  | .copy i j => Function.update A i (A j)
  | .clear i => Function.update A i ∅

/-- The bit sets after a sequence of operations on new ones. -/
def run (vs : VectorSize) (ops : List Op) : Option (ℕ → CBitSet vs) :=
  ops.foldlM exec fun _ => new vs

/-- The mathematical sets after the same operations. -/
def specRun (ops : List Op) : ℕ → Finset ℕ := ops.foldl specExec fun _ => ∅

/-- An operation that leaves no link empty and does not fill the set with all 2^32 positions:
a condition on the sets before it. -/
def Safe (sets : ℕ → CBitSet vs) (A : ℕ → Finset ℕ) : Op → Prop
  | .exchangeSet i pos => (insert pos.val (A i)).card < 2 ^ 32
  | .union i j => (A i ∪ A j).card < 2 ^ 32
  | .intersection i (some j) => MeetsShareBit (sets i).m_bsllist (sets j).m_bsllist
  | _ => True

/-- Every operation of the sequence is safe when its turn comes. -/
def SafeRun (sets : ℕ → CBitSet vs) (A : ℕ → Finset ℕ) : List Op → Prop
  | [] => True
  | op :: ops => Safe sets A op ∧
      match exec sets op with
      | some sets' => SafeRun sets' (specExec A op) ops
      | none => True

instance decidableSafe (sets : ℕ → CBitSet vs) (A : ℕ → Finset ℕ) (op : Op) :
    Decidable (Safe sets A op) :=
  match op with
  | .exchangeSet i pos => inferInstanceAs (Decidable ((insert pos.val (A i)).card < 2 ^ 32))
  | .union i j => inferInstanceAs (Decidable ((A i ∪ A j).card < 2 ^ 32))
  | .intersection i (some j) => inferInstanceAs (Decidable (∀ l ∈ (sets i).m_bsllist,
      ∀ l' ∈ (sets j).m_bsllist, l.m_offset = l'.m_offset → l.m_vec.IsDisjoint l'.m_vec = false))
  | .intersection _ none => isTrue trivial
  | .exchangeClear _ _ => isTrue trivial
  | .difference _ _ _ => isTrue trivial
  | .copy _ _ => isTrue trivial
  | .clear _ => isTrue trivial

instance decidableSafeRun (ops : List Op) : ∀ (sets : ℕ → CBitSet vs) (A : ℕ → Finset ℕ),
    Decidable (SafeRun sets A ops) :=
  match ops with
  | [] => fun _ _ => isTrue trivial
  | op :: ops => fun sets A =>
    have : Decidable (match exec sets op with
        | some sets' => SafeRun sets' (specExec A op) ops
        | none => True) :=
      match exec sets op with
      | some sets' => decidableSafeRun ops sets' (specExec A op)
      | none => isTrue trivial
    inferInstanceAs (Decidable (_ ∧ _))

/-- The form of bit sets in a safe run. -/
def Canonical (sets : ℕ → CBitSet vs) (A : ℕ → Finset ℕ) : Prop :=
  ∀ i, NoEmptyLink (sets i).m_bsllist ∧ (A i).card < 2 ^ 32

attribute [local simp] exec specExec in
theorem represents_update {sets : ℕ → CBitSet vs} {A : ℕ → Finset ℕ} {i : ℕ} {s : CBitSet vs}
    {B : Finset ℕ} (h : ∀ k, Represents (sets k) (A k)) (hs : Represents s B) (k : ℕ) :
    Represents (Function.update sets i s k) (Function.update A i B k) := by
  by_cases hk : k = i
  · subst hk
    rwa [Function.update_self, Function.update_self]
  · rw [Function.update_of_ne hk, Function.update_of_ne hk]
    exact h k

/-- **One operation** does to the bit sets what it does to the mathematical sets. -/
theorem exec_represents {sets : ℕ → CBitSet vs} {A : ℕ → Finset ℕ}
    (h : ∀ k, Represents (sets k) (A k)) (op : Op) :
    ∃ sets', exec sets op = some sets' ∧ ∀ k, Represents (sets' k) (specExec A op k) := by
  cases op with
  | exchangeSet i pos => exact ⟨_, rfl, represents_update h ((h i).ExchangeSet pos.isLt)⟩
  | exchangeClear i pos => exact ⟨_, rfl, represents_update h ((h i).ExchangeClear pos)⟩
  | union i j => exact ⟨_, rfl, represents_update h ((h i).Union (h j))⟩
  | intersection i j =>
    cases j with
    | none =>
      refine ⟨_, rfl, fun k => ?_⟩
      rw [Option.map_none, Intersection, Function.update_eq_self]
      exact h k
    | some j => exact ⟨_, rfl, represents_update h ((h i).Intersection (h j))⟩
  | difference i j hne =>
    obtain ⟨s', hs', hrep⟩ := (h i).Difference (h j)
    exact ⟨_, by rw [exec, hs', Option.map_some], represents_update h hrep⟩
  | copy i j => exact ⟨_, rfl, represents_update h (h j).copy⟩
  | clear i => exact ⟨_, rfl, represents_update h (represents_Clear (sets i))⟩

theorem noEmptyLink_nil : NoEmptyLink ([] : List (CBitSetLink vs)) :=
  fun l hl => absurd hl (List.not_mem_nil (a := l))

theorem noEmptyLink_clearAll (l : List ℕ) : ∀ {s : CBitSet vs}, LinksOk s.m_bsllist →
    NoEmptyLink s.m_bsllist →
    NoEmptyLink (l.foldl (fun s pos => (s.ExchangeClear pos).2) s).m_bsllist := by
  induction l with
  | nil => exact fun _ hne => hne
  | cons pos l ih =>
    intro s h hne
    have hspec := ExchangeClear_spec h pos
    exact ih hspec.ok (hspec.noEmpty hne)

theorem noEmptyLink_Difference {s t s' : CBitSet vs} (h : LinksOk s.m_bsllist)
    (hne : NoEmptyLink s.m_bsllist) (hd : s.Difference t = some s') :
    NoEmptyLink s'.m_bsllist := by
  unfold Difference at hd
  split at hd
  · cases hd
    exact hne
  · obtain ⟨l, -, rfl⟩ := Option.map_eq_some_iff.mp hd
    exact noEmptyLink_clearAll l h hne

theorem canonical_update {sets : ℕ → CBitSet vs} {A : ℕ → Finset ℕ} {i : ℕ} {s : CBitSet vs}
    {B : Finset ℕ} (h : Canonical sets A) (hs : NoEmptyLink s.m_bsllist) (hB : B.card < 2 ^ 32) :
    Canonical (Function.update sets i s) (Function.update A i B) := by
  intro k
  by_cases hk : k = i
  · subst hk
    rw [Function.update_self, Function.update_self]
    exact ⟨hs, hB⟩
  · rw [Function.update_of_ne hk, Function.update_of_ne hk]
    exact h k

/-- **One safe operation** keeps every link non-empty. -/
theorem exec_canonical {sets sets' : ℕ → CBitSet vs} {A : ℕ → Finset ℕ} {op : Op}
    (h : ∀ k, Represents (sets k) (A k)) (hc : Canonical sets A) (hsafe : Safe sets A op)
    (hexec : exec sets op = some sets') : Canonical sets' (specExec A op) := by
  have hle : ∀ {i : ℕ} {B : Finset ℕ}, B ⊆ A i → B.card < 2 ^ 32 := fun hsub =>
    (Finset.card_le_card hsub).trans_lt (hc _).2
  cases op with
  | exchangeSet i pos =>
    cases hexec
    exact canonical_update hc ((ExchangeSet_spec (h i).ok pos).noEmpty (hc i).1) hsafe
  | exchangeClear i pos =>
    cases hexec
    exact canonical_update hc ((ExchangeClear_spec (h i).ok pos).noEmpty (hc i).1)
      (hle (Finset.erase_subset _ _))
  | union i j =>
    cases hexec
    exact canonical_update hc ((Union_spec (h i).ok (h j).ok).noEmpty (hc i).1 (hc j).1) hsafe
  | intersection i j =>
    cases hexec
    cases j with
    | none =>
      rw [Option.map_none, Intersection, Function.update_eq_self]
      exact hc
    | some j =>
      exact canonical_update hc (Intersection_noEmpty (h i).ok (h j).ok hsafe)
        (hle Finset.inter_subset_left)
  | difference i j hne =>
    obtain ⟨s', hs', rfl⟩ := Option.map_eq_some_iff.mp hexec
    exact canonical_update hc (noEmptyLink_Difference (h i).ok (hc i).1 hs')
      (hle Finset.sdiff_subset)
  | copy i j =>
    cases hexec
    exact canonical_update hc ((Union_spec linksOk_nil (h j).ok).noEmpty noEmptyLink_nil (hc j).1)
      (hc j).2
  | clear i =>
    cases hexec
    exact canonical_update hc noEmptyLink_nil (by simp)

/-- The run lemma: from related sets, every sequence ends in related sets, canonical ones if
every operation was safe. -/
theorem foldlM_exec (ops : List Op) : ∀ {sets : ℕ → CBitSet vs} {A : ℕ → Finset ℕ},
    (∀ k, Represents (sets k) (A k)) →
    ∃ sets', ops.foldlM exec sets = some sets' ∧
      (∀ k, Represents (sets' k) (ops.foldl specExec A k)) ∧
      (Canonical sets A → SafeRun sets A ops → Canonical sets' (ops.foldl specExec A)) := by
  induction ops with
  | nil => exact fun h => ⟨_, rfl, h, fun hc _ => hc⟩
  | cons op ops ih =>
    intro sets A h
    obtain ⟨next, hnext, hrep⟩ := exec_represents h op
    obtain ⟨sets', hsets', hrep', hcan⟩ := ih hrep
    refine ⟨sets', ?_, hrep', fun hc hsafe => ?_⟩
    · rw [List.foldlM_cons, hnext]
      exact hsets'
    · obtain ⟨hop, hrest⟩ := hsafe
      rw [hnext] at hrest
      exact hcan (exec_canonical h hc hop hnext) hrest

/-- **Bit sets are finite sets.** After every sequence of operations, `Get`, `IsDisjoint` and the
iterator agree with the sets that the operations build, and sets that compare `Equals` have the
same hash value. If moreover every operation of the sequence is safe, `Size` and `ContainsAll`
agree as well, and `Equals` holds exactly of equal sets. -/
theorem bitSet_faithful (vs : VectorSize) (ops : List Op) :
    ∃ sets, run vs ops = some sets ∧
      (∀ i p, (sets i).Get p = decide (p ∈ specRun ops i)) ∧
      (∀ i, (sets i).iterate = some ((specRun ops i).sort (· ≤ ·))) ∧
      (∀ i j, (sets i).IsDisjoint (sets j) = true ↔ Disjoint (specRun ops i) (specRun ops j)) ∧
      (∀ i j, (sets i).Equals (sets j) = true → (sets i).HashValue = (sets j).HashValue) ∧
      (SafeRun (fun _ => new vs) (fun _ => ∅) ops →
        (∀ i, (sets i).Size = (specRun ops i).card) ∧
        (∀ i j, (sets i).ContainsAll (sets j) = true ↔ specRun ops j ⊆ specRun ops i) ∧
        (∀ i j, (sets i).Equals (sets j) = true ↔ specRun ops i = specRun ops j)) := by
  obtain ⟨sets, hrun, hrep, hcan⟩ := foldlM_exec ops fun _ => (represents_new : Represents (new vs) ∅)
  have hlinks : ∀ i j, (sets i).Equals (sets j) = true →
      (sets i).m_bsllist = (sets j).m_bsllist := by
    intro i j heq
    unfold Equals at heq
    split at heq
    · cases heq
    · exact equalLinks_iff.mp heq
  refine ⟨sets, hrun, fun i => (hrep i).Get, fun i => (hrep i).iterate,
    fun i j => (hrep i).IsDisjoint (hrep j), fun i j heq => ?_, fun hsafe => ?_⟩
  · rw [HashValue, HashValue, hlinks i j heq]
  · have hc : Canonical sets (specRun ops) :=
      hcan (fun _ => ⟨noEmptyLink_nil, by simp⟩) hsafe
    have hsize : ∀ i, (sets i).Size = (specRun ops i).card := fun i =>
      (hrep i).size.trans (Nat.mod_eq_of_lt (hc i).2)
    refine ⟨hsize, fun i j => ?_, fun i j => ⟨fun heq => ?_, fun heq => ?_⟩⟩
    · have hsub : (∀ p, Holds (sets j).m_bsllist p → Holds (sets i).m_bsllist p) ↔
          specRun ops j ⊆ specRun ops i :=
        forall_congr' fun p => by rw [(hrep j).holds, (hrep i).holds]; rfl
      rw [ContainsAll_iff (hrep i).ok (hrep j).ok (hc j).1, hsub]
      intro hall
      rw [hsize, hsize]
      exact Finset.card_le_card (hsub.mp hall)
    · ext p
      have hp := (hrep i).holds p
      rw [hlinks i j heq, (hrep j).holds] at hp
      exact hp.symm
    · have hext := links_ext (hrep i).ok (hrep j).ok (hc i).1 (hc j).1 fun p => by
        rw [(hrep i).holds, (hrep j).holds, ← specRun, heq]
      rw [Equals, if_neg (by rw [hsize, hsize, heq]; simp)]
      exact equalLinks_iff.mpr hext

/-- The default vector size. -/
def defaultSize : VectorSize := ⟨256, by decide, by decide⟩

/-- `{0, 256}` is intersected with `{0, 300}`, after 300 has joined it. -/
def sharedBits : List Op :=
  [.exchangeSet 0 0, .exchangeSet 0 256, .exchangeSet 0 300, .exchangeSet 1 0,
    .exchangeSet 1 300, .intersection 0 (some 1)]

theorem bitSet_faithful_sharedBits :
    ∃ sets, run defaultSize sharedBits = some sets ∧ (sets 0).Equals (sets 1) = true := by
  obtain ⟨sets, hrun, -, -, -, -, hsafe⟩ := bitSet_faithful defaultSize sharedBits
  obtain ⟨-, -, hEquals⟩ := hsafe (by decide +kernel)
  exact ⟨sets, hrun, (hEquals 0 1).mpr (by decide +kernel)⟩

/-- `{0, 256}` is intersected with `{0, 257}`: the link of 256 stays, without a bit. -/
def emptiedLink : List Op :=
  [.exchangeSet 0 0, .exchangeSet 0 256, .exchangeSet 1 0, .exchangeSet 1 257,
    .intersection 0 (some 1), .exchangeSet 2 0]

/-- Two sets with the element 0 only that do not compare `Equals`, have different hash values,
and of which one does not contain the other. -/
theorem bitSet_faithful_emptiedLink :
    specRun emptiedLink 0 = specRun emptiedLink 2 ∧
      ((run defaultSize emptiedLink).map fun sets =>
        ((sets 0).Equals (sets 2), (sets 2).ContainsAll (sets 0),
          (sets 0).HashValue == (sets 2).HashValue)) = some (false, false, false) := by
  decide +kernel

end CBitSet

end BossOptimizer

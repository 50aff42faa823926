import BossOptimizer.Common.CHashMap
import BossOptimizer.Lib.Lists

/-!
# Runs of hash maps

A hash map stands for a finite map from classes of equal keys to values. `Find` reads it off the
chains, and deleting keeps that up; `Size` and the iterator read the key array, which follows the
chains until the first entry is deleted, and until a NULL value, which `Find` takes for no entry,
is inserted over.
-/

namespace BossOptimizer

namespace HashKeys

variable {K : Type} (fns : HashKeys K)

def setoid : Setoid K where
  r k k' := fns.EqFn k k' = true
  iseqv := ⟨fns.refl, fun h => fns.symm _ _ h, fun h h' => fns.trans _ _ _ h h'⟩

/-- A key up to `EqFn`. -/
abbrev Class : Type := Quotient fns.setoid

instance : DecidableEq fns.Class :=
  @Quotient.decidableEq K fns.setoid fun k k' => inferInstanceAs (Decidable (fns.EqFn k k' = true))

def cls (k : K) : fns.Class := Quotient.mk fns.setoid k

theorem cls_eq {k k' : K} : fns.cls k = fns.cls k' ↔ fns.EqFn k k' = true := Quotient.eq

end HashKeys

namespace CHashMap

variable {K T : Type} {fns : HashKeys K} {m : CHashMap K T}

/-- A finite map, which may store NULL. -/
abbrev Spec (fns : HashKeys K) (T : Type) : Type := fns.Class → Option (Option T)

/-- The chains hold the entries of the map, each one in the chain of its key. -/
structure Represents (fns : HashKeys K) (m : CHashMap K T) (μ : Spec fns T) : Prop where
  home : ∀ i, ∀ e ∈ m.m_chains i, m.GetChain fns e.m_key = i
  distinct : ∀ i, Classes.Distinct (fun e => fns.cls e.m_key) (m.m_chains i)
  value : ∀ k v, μ (fns.cls k) = some v ↔
    ∃ e ∈ m.m_chains (m.GetChain fns k), fns.cls e.m_key = fns.cls k ∧ e.m_value = v

/-- The key array holds a live pointer for each entry, and nothing else. -/
def KeysOk (fns : HashKeys K) (m : CHashMap K T) (μ : Spec fns T) : Prop :=
  ∃ ks : List K, m.m_keys = ks.map some ∧ Classes.Distinct fns.cls ks ∧
    (∀ k, (∃ k' ∈ ks, fns.cls k' = fns.cls k) ↔ μ (fns.cls k) ≠ none) ∧
    m.m_size = ks.length ∧ ks.length < 2 ^ 32

/-! ## Lookups -/

variable {μ : Spec fns T}

theorem GetChain_congr {k k' : K} (h : fns.cls k = fns.cls k') :
    m.GetChain fns k = m.GetChain fns k' := by
  rw [GetChain, GetChain, fns.hash_eq k k' (fns.cls_eq.1 h)]

theorem Represents.lookup (h : Represents fns m μ) {k : K} {e : CHashMapElem K T} :
    m.Lookup fns k = some e ↔
      e ∈ m.m_chains (m.GetChain fns k) ∧ fns.cls e.m_key = fns.cls k :=
  (h.distinct _).find?_eq_some_iff fun _ => fns.cls_eq.symm

theorem Represents.lookup_value (h : Represents fns m μ) (k : K) :
    (m.Lookup fns k).map (·.m_value) = μ (fns.cls k) := by
  ext v
  rw [h.value, Option.map_eq_some_iff]
  simp only [h.lookup, and_assoc]

theorem Represents.find (h : Represents fns m μ) (k : K) :
    m.Find fns k = (μ (fns.cls k)).join := by
  rw [Find, ← h.lookup_value k]
  cases m.Lookup fns k <;> rfl

theorem Represents.lookup_isSome (h : Represents fns m μ) (k : K) :
    (m.Lookup fns k).isSome = (μ (fns.cls k)).isSome := by
  rw [← h.lookup_value k, Option.isSome_map]

/-! ## One chain changes -/

/-- The entries of one chain are replaced by others that belong there. -/
theorem Represents.update_chain (h : Represents fns m μ) {i : ℕ} {chain : List (CHashMapElem K T)}
    {m' : CHashMap K T} {μ' : Spec fns T} (hm : m'.m_chains = Function.update m.m_chains i chain)
    (hn : m'.m_num_chains = m.m_num_chains) (hhome : ∀ e ∈ chain, m.GetChain fns e.m_key = i)
    (hdistinct : Classes.Distinct (fun e => fns.cls e.m_key) chain)
    (hsame : ∀ k, m.GetChain fns k ≠ i → μ' (fns.cls k) = μ (fns.cls k))
    (hvalue : ∀ k v, m.GetChain fns k = i →
      (μ' (fns.cls k) = some v ↔ ∃ e ∈ chain, fns.cls e.m_key = fns.cls k ∧ e.m_value = v)) :
    Represents fns m' μ' := by
  have hget : ∀ k, m'.GetChain fns k = m.GetChain fns k := fun k => by rw [GetChain, GetChain, hn]
  refine ⟨fun j e he => ?_, fun j => ?_, fun k v => ?_⟩
  · rw [hget]
    rw [hm] at he
    by_cases hj : j = i
    · subst hj
      rw [Function.update_self] at he
      exact hhome e he
    · rw [Function.update_of_ne hj] at he
      exact h.home j e he
  · rw [hm]
    by_cases hj : j = i
    · subst hj
      rwa [Function.update_self]
    · rw [Function.update_of_ne hj]
      exact h.distinct j
  · rw [hget, hm]
    by_cases hk : m.GetChain fns k = i
    · rw [hk, Function.update_self]
      exact hvalue k v hk
    · rw [Function.update_of_ne hk, hsame k hk]
      exact h.value k v

/-- The map with the value of one key set, or taken away. -/
def Spec.set (μ : Spec fns T) (key : K) (value : Option (Option T)) : Spec fns T :=
  Function.update μ (fns.cls key) value

theorem Spec.set_of_eq {key k : K} {value : Option (Option T)} (h : fns.cls k = fns.cls key) :
    μ.set key value (fns.cls k) = value := by
  rw [h, Spec.set, Function.update_self]

theorem Spec.set_of_ne {key k : K} {value : Option (Option T)} (h : fns.cls k ≠ fns.cls key) :
    μ.set key value (fns.cls k) = μ (fns.cls k) := by
  rw [Spec.set, Function.update_of_ne h]

theorem insert_of_none {key : K} {value : Option T} (h : m.Find fns key = none) :
    (m.Insert fns key value).2 = { m with
      m_chains := Function.update m.m_chains (m.GetChain fns key)
        (m.m_chains (m.GetChain fns key) ++ [⟨key, value⟩])
      m_size := (m.m_size + 1) % 2 ^ 32
      m_keys := m.m_keys ++ [some key] } := by
  rw [Insert, if_neg (by simp [h])]

/-- A key that is not present is added at the end of its chain. -/
theorem Represents.insert_new (h : Represents fns m μ) {key : K} (value : Option T)
    (hnew : μ (fns.cls key) = none) :
    Represents fns (m.Insert fns key value).2 (μ.set key (some value)) := by
  have habsent : ∀ e ∈ m.m_chains (m.GetChain fns key), fns.cls e.m_key ≠ fns.cls key := by
    intro e he hcls
    have hvalue := (h.value key e.m_value).2 ⟨e, he, hcls, rfl⟩
    rw [hnew] at hvalue
    cases hvalue
  rw [insert_of_none (by rw [h.find, hnew]; rfl)]
  refine h.update_chain rfl rfl ?_ ?_ ?_ ?_
  · intro e he
    rcases List.mem_append.1 he with he | he
    · exact h.home _ e he
    · rw [List.mem_singleton.1 he]
  · exact Classes.distinct_concat.2 ⟨h.distinct _, habsent⟩
  · exact fun k hk => Spec.set_of_ne fun hcls => hk (GetChain_congr hcls)
  · intro k v hk
    by_cases hcls : fns.cls k = fns.cls key
    · rw [Spec.set_of_eq hcls]
      constructor
      · rintro ⟨⟩
        exact ⟨_, List.mem_append_right _ (List.mem_singleton_self _), hcls.symm, rfl⟩
      · rintro ⟨e, he, hek, rfl⟩
        rcases List.mem_append.1 he with he | he
        · exact absurd (hek.trans hcls) (habsent e he)
        · rw [List.mem_singleton.1 he]
    · rw [Spec.set_of_ne hcls, h.value, hk]
      constructor
      · rintro ⟨e, he, hev⟩
        exact ⟨e, List.mem_append_left _ he, hev⟩
      · rintro ⟨e, he, hek, hv⟩
        rcases List.mem_append.1 he with he | he
        · exact ⟨e, he, hek, hv⟩
        · rw [List.mem_singleton.1 he] at hek
          exact absurd hek.symm hcls

theorem mem_replaceFirst {key : K} {ptNew : Option T} {chain : List (CHashMapElem K T)}
    (h : Classes.Distinct (fun e => fns.cls e.m_key) chain) {e : CHashMapElem K T} :
    e ∈ replaceFirst fns key ptNew chain ↔ (e ∈ chain ∧ fns.cls e.m_key ≠ fns.cls key) ∨
      ∃ e' ∈ chain, fns.cls e'.m_key = fns.cls key ∧ e = ⟨e'.m_key, ptNew⟩ := by
  induction chain with
  | nil => simp [replaceFirst]
  | cons head rest ih =>
    obtain ⟨hhead, hrest⟩ := List.pairwise_cons.1 h
    rw [replaceFirst]
    split
    · next heq =>
      have heq := fns.cls_eq.2 heq
      have hne : ∀ e ∈ rest, fns.cls e.m_key ≠ fns.cls key := fun e he hcls =>
        hhead e he (heq.trans hcls.symm)
      simp only [List.mem_cons]
      constructor
      · rintro (rfl | he)
        · exact .inr ⟨head, .inl rfl, heq, rfl⟩
        · exact .inl ⟨.inr he, hne e he⟩
      · rintro (⟨rfl | he, hcls⟩ | ⟨e', rfl | he', hcls, rfl⟩)
        · exact absurd heq hcls
        · exact .inr he
        · exact .inl rfl
        · exact absurd hcls (hne e' he')
    · next hne =>
      have hne : fns.cls head.m_key ≠ fns.cls key := fun hcls => hne (fns.cls_eq.1 hcls)
      rw [List.mem_cons, ih hrest]
      simp only [List.mem_cons]
      constructor
      · rintro (rfl | ⟨he, hcls⟩ | ⟨e', he', hcls, rfl⟩)
        · exact .inl ⟨.inl rfl, hne⟩
        · exact .inl ⟨.inr he, hcls⟩
        · exact .inr ⟨e', .inr he', hcls, rfl⟩
      · rintro (⟨rfl | he, hcls⟩ | ⟨e', rfl | he', hcls, rfl⟩)
        · exact .inl rfl
        · exact .inr (.inl ⟨he, hcls⟩)
        · exact absurd hcls hne
        · exact .inr (.inr ⟨e', he', hcls, rfl⟩)

theorem replaceFirst_keys (key : K) (ptNew : Option T) (chain : List (CHashMapElem K T)) :
    (replaceFirst fns key ptNew chain).map (·.m_key) = chain.map (·.m_key) := by
  induction chain with
  | nil => rfl
  | cons head rest ih =>
    rw [replaceFirst]
    split
    · rfl
    · rw [List.map_cons, List.map_cons, ih]

/-- The value of a present key is replaced. -/
theorem Represents.replace_present (h : Represents fns m μ) {key : K} (ptNew : Option T)
    (hpresent : μ (fns.cls key) ≠ none) :
    Represents fns (m.Replace fns key ptNew).2 (μ.set key (some ptNew)) := by
  rw [Replace, if_pos (by rw [h.lookup_isSome, Option.isSome_iff_ne_none]; exact hpresent)]
  have hmem := fun e => @mem_replaceFirst K T fns key ptNew _ (h.distinct (m.GetChain fns key)) e
  refine h.update_chain rfl rfl ?_ ?_ ?_ ?_
  · intro e he
    obtain ⟨he, -⟩ | ⟨e', he', -, rfl⟩ := (hmem e).1 he
    · exact h.home _ e he
    · exact h.home _ e' he'
  · have hkeys := congrArg (List.map fns.cls)
      (@replaceFirst_keys K T fns key ptNew (m.m_chains (m.GetChain fns key)))
    rw [List.map_map, List.map_map] at hkeys
    have hnodup := Classes.distinct_iff_nodup.1 (h.distinct (m.GetChain fns key))
    exact Classes.distinct_iff_nodup.2 (hkeys ▸ hnodup)
  · exact fun k hk => Spec.set_of_ne fun hcls => hk (GetChain_congr hcls)
  · intro k v hk
    by_cases hcls : fns.cls k = fns.cls key
    · rw [Spec.set_of_eq hcls]
      obtain ⟨v', hv'⟩ := Option.ne_none_iff_exists'.1 hpresent
      obtain ⟨e', he', hek', -⟩ := (h.value key v').1 hv'
      constructor
      · rintro ⟨⟩
        exact ⟨_, (hmem _).2 (.inr ⟨e', he', hek', rfl⟩), hek'.trans hcls.symm, rfl⟩
      · rintro ⟨e, he, hek, rfl⟩
        obtain ⟨-, hne⟩ | ⟨e', -, -, rfl⟩ := (hmem e).1 he
        · exact absurd (hek.trans hcls) hne
        · rfl
    · rw [Spec.set_of_ne hcls, h.value, hk]
      constructor
      · rintro ⟨e, he, hek, hv⟩
        exact ⟨e, (hmem e).2 (.inl ⟨he, fun hc => hcls (hek.symm.trans hc)⟩), hek, hv⟩
      · rintro ⟨e, he, hek, hv⟩
        obtain ⟨he, -⟩ | ⟨e', -, hc, rfl⟩ := (hmem e).1 he
        · exact ⟨e, he, hek, hv⟩
        · exact absurd (hek.symm.trans hc) hcls

/-- The entry of a present key is removed from its chain. -/
theorem Represents.delete_present (h : Represents fns m μ) {key : K} {ul : ℕ}
    (hul : (m.m_chains (m.GetChain fns key)).findIdx? (fun e => fns.EqFn e.m_key key) = some ul)
    (keys : List (Option K)) :
    Represents fns { m with
      m_chains := Function.update m.m_chains (m.GetChain fns key)
        (Classes.swapRemove (m.m_chains (m.GetChain fns key)) ul)
      m_keys := keys } (μ.set key none) := by
  obtain ⟨hlt, hkey, -⟩ := List.findIdx?_eq_some_iff_getElem.1 hul
  have hkey := fns.cls_eq.2 hkey
  have hperm := Classes.swapRemove_perm hlt
  have hdist := (h.distinct _).perm hperm
  obtain ⟨hother, hrest⟩ := List.pairwise_cons.1 hdist
  have hmem : ∀ e, e ∈ m.m_chains (m.GetChain fns key) ↔
      e = (m.m_chains (m.GetChain fns key))[ul] ∨
        e ∈ Classes.swapRemove (m.m_chains (m.GetChain fns key)) ul := fun e => by
    rw [← hperm.mem_iff, List.mem_cons]
  refine h.update_chain rfl rfl (fun e he => h.home _ e ((hmem e).2 (.inr he))) hrest ?_ ?_
  · exact fun k hk => Spec.set_of_ne fun hcls => hk (GetChain_congr hcls)
  · intro k v hk
    by_cases hcls : fns.cls k = fns.cls key
    · rw [Spec.set_of_eq hcls]
      refine iff_of_false (by simp) ?_
      rintro ⟨e, he, hek, -⟩
      exact hother e he (hkey.trans (hek.trans hcls).symm)
    · rw [Spec.set_of_ne hcls, h.value, hk]
      refine exists_congr fun e => ?_
      rw [hmem]
      constructor
      · rintro ⟨rfl | he, hek, hv⟩
        · exact absurd (hek.symm.trans hkey) hcls
        · exact ⟨he, hek, hv⟩
      · exact fun ⟨he, hek, hv⟩ => ⟨.inr he, hek, hv⟩

/-! ## The key array -/

theorem KeysOk.insert_new (hk : KeysOk fns m μ) (h : Represents fns m μ) {key : K}
    (value : Option T) (hnew : μ (fns.cls key) = none) (hsize : m.m_size + 1 < 2 ^ 32) :
    KeysOk fns (m.Insert fns key value).2 (μ.set key (some value)) := by
  obtain ⟨ks, hkeys, hdist, hpresent, hlen, -⟩ := hk
  rw [insert_of_none (by rw [h.find, hnew]; rfl)]
  refine ⟨ks ++ [key], by simp [hkeys], ?_, fun k => ?_, ?_, by simpa [← hlen] using hsize⟩
  · refine Classes.distinct_concat.2 ⟨hdist, fun k hk hcls => ?_⟩
    exact (hpresent key).1 ⟨k, hk, hcls⟩ hnew
  · by_cases hcls : fns.cls k = fns.cls key
    · rw [Spec.set_of_eq hcls]
      exact iff_of_true ⟨key, by simp, hcls.symm⟩ (by simp)
    · rw [Spec.set_of_ne hcls, ← hpresent]
      simp [or_and_right, exists_or, Ne.symm hcls]
  · rw [Nat.mod_eq_of_lt hsize, hlen, List.length_append, List.length_singleton]

theorem KeysOk.replace_present (hk : KeysOk fns m μ) {m' : CHashMap K T} {key : K}
    {ptNew : Option T} (hpresent : μ (fns.cls key) ≠ none) (hkeys : m'.m_keys = m.m_keys)
    (hsize : m'.m_size = m.m_size) : KeysOk fns m' (μ.set key (some ptNew)) := by
  obtain ⟨ks, hks, hdist, hpres, hlen, hlt⟩ := hk
  refine ⟨ks, hkeys.trans hks, hdist, fun k => ?_, hsize.trans hlen, hlt⟩
  rw [hpres]
  by_cases hcls : fns.cls k = fns.cls key
  · rw [Spec.set_of_eq hcls, hcls]
    exact iff_of_true hpresent (by simp)
  · rw [Spec.set_of_ne hcls]

/-- The present keys. -/
def Spec.support (μ : Spec fns T) : Set fns.Class := {c | μ c ≠ none}

theorem KeysOk.ncard_support (hk : KeysOk fns m μ) : m.Size = μ.support.ncard := by
  obtain ⟨ks, -, hdist, hpres, hlen, -⟩ := hk
  have hset : μ.support = {c | ∃ k ∈ ks, fns.cls k = c} := by
    ext c
    obtain ⟨k, rfl⟩ := Quotient.exists_rep c
    exact (hpres k).symm
  rw [hset, hdist.ncard_eq, Size, hlen]

/-- The entry that the iterator finds for a key. -/
def visit (fns : HashKeys K) (m : CHashMap K T) (k : K) : Option K × Option T :=
  ((m.Lookup fns k).map (·.m_key), (m.Lookup fns k).bind (·.m_value))

theorem visits_eq {ks : List K} (hkeys : m.m_keys = ks.map some) {fuel idx : ℕ}
    (hidx : idx ≤ ks.length) (hfuel : ks.length - idx < fuel) :
    CHashMapIter.visits fns m fuel ⟨idx⟩ = some ((ks.drop idx).map (visit fns m)) := by
  induction fuel generalizing idx with
  | zero => omega
  | succ fuel ih =>
    rw [CHashMapIter.visits, CHashMapIter.Advance, hkeys, List.length_map]
    by_cases hlt : idx < ks.length
    · have hget : CHashMapIter.Get fns m ⟨idx + 1⟩ = some (m.Lookup fns ks[idx]) := by
        simp [CHashMapIter.Get, hkeys, List.getElem?_eq_getElem hlt]
      rw [if_pos hlt, List.drop_eq_getElem_cons hlt, List.map_cons]
      simp only [CHashMapIter.Key, CHashMapIter.Value, hget, ih hlt (by omega)]
      rfl
    · rw [if_neg hlt, List.drop_eq_nil_of_le (Nat.le_of_not_lt hlt)]
      rfl

/-- The iterator visits the entries of a list. -/
def Visits (fns : HashKeys K) (m : CHashMap K T) (l : List (K × Option T)) : Prop :=
  m.iterate fns = some (l.map fun p => (some p.1, p.2))

theorem Represents.visits (h : Represents fns m μ) (hk : KeysOk fns m μ) :
    ∃ es : List (CHashMapElem K T), Visits fns m (es.map fun e => (e.m_key, e.m_value)) ∧
      Classes.Distinct (fun e => fns.cls e.m_key) es ∧
      ∀ k v, (∃ e ∈ es, fns.cls e.m_key = fns.cls k ∧ e.m_value = v) ↔ μ (fns.cls k) = some v := by
  obtain ⟨ks, hkeys, hdist, hpres, -, -⟩ := hk
  have hfound : ∀ k ∈ ks, ∃ e, m.Lookup fns k = some e := fun k hmem => by
    rw [← Option.isSome_iff_exists, h.lookup_isSome, Option.isSome_iff_ne_none]
    exact (hpres k).1 ⟨k, hmem, rfl⟩
  obtain ⟨es, hes⟩ := forall₂_of_forall_exists hfound
  have hcls : ks.map fns.cls = es.map fun e => fns.cls e.m_key :=
    map_eq_map_of_forall₂ hes fun k _ e he => (h.lookup.1 he).2.symm
  have hvisit : ks.map (visit fns m) = es.map fun e => (some e.m_key, e.m_value) :=
    map_eq_map_of_forall₂ hes fun k _ e he => by rw [visit, he]; rfl
  refine ⟨es, ?_, ?_, fun k v => ⟨?_, fun hv => ?_⟩⟩
  · rw [Visits, iterate, visits_eq hkeys (Nat.zero_le _) (by rw [hkeys, List.length_map]; omega),
      List.drop_zero, hvisit, List.map_map]
    rfl
  · exact Classes.distinct_iff_nodup.2 (hcls ▸ Classes.distinct_iff_nodup.1 hdist)
  · rintro ⟨e, he, hek, rfl⟩
    obtain ⟨k', -, hk'⟩ := exists_of_forall₂_right hes he
    rw [← hek, (h.lookup.1 hk').2, ← h.lookup_value, hk']
    rfl
  · obtain ⟨k', hk', hkk'⟩ := (hpres k).2 (by rw [hv]; simp)
    obtain ⟨e, he, hlook⟩ := exists_of_forall₂_left hes hk'
    have hvalue := h.lookup_value k'
    rw [hlook, hkk', hv] at hvalue
    exact ⟨e, he, (h.lookup.1 hlook).2.trans hkk', Option.some.inj hvalue⟩

/-! ## What is kept of the map -/

/-- **The hash map behaves as the finite map**: `Find` returns the stored value, `Size` counts the
present keys and the iterator visits each of them once, with its value. -/
structure Faithful (fns : HashKeys K) (m : CHashMap K T) (μ : Spec fns T) : Prop where
  find : ∀ k, m.Find fns k = (μ (fns.cls k)).join
  size : m.Size = μ.support.ncard
  visits : ∃ l : List (K × Option T), Visits fns m l ∧
    Classes.Distinct (fun p => fns.cls p.1) l ∧
    ∀ k v, (∃ p ∈ l, fns.cls p.1 = fns.cls k ∧ p.2 = v) ↔ μ (fns.cls k) = some v

theorem Represents.faithful (h : Represents fns m μ) (hk : KeysOk fns m μ) : Faithful fns m μ := by
  refine ⟨h.find, hk.ncard_support, ?_⟩
  obtain ⟨es, hes, hdist, hvalue⟩ := h.visits hk
  refine ⟨_, hes, List.pairwise_map.2 hdist, fun k v => ?_⟩
  rw [← hvalue]
  simp

theorem Represents.new (fns : HashKeys K) (n : ℕ) :
    Represents fns (CHashMap.new n : CHashMap K T) fun _ => none where
  home _ e he := by cases he
  distinct _ := List.Pairwise.nil
  value k v := by simp [CHashMap.new]

theorem KeysOk.new (fns : HashKeys K) (n : ℕ) :
    KeysOk fns (CHashMap.new n : CHashMap K T) fun _ => none :=
  ⟨[], rfl, List.Pairwise.nil, by simp, rfl, by simp⟩

/-! ## Runs -/

/-- A call that changes the map. -/
inductive Op (K T : Type) where
  | insert (key : K) (value : Option T)
  | replace (key : K) (ptNew : Option T)
  | delete (key : K)
  deriving DecidableEq, Repr

/-- A call on the hash map: its result and the map after it. -/
def call (fns : HashKeys K) (m : CHashMap K T) : Op K T → Bool × CHashMap K T
  | .insert key value => m.Insert fns key value
  | .replace key ptNew => m.Replace fns key ptNew
  | .delete key => m.Delete fns key

/-- The call on a finite map: `Insert` adds an absent key, `Replace` and `Delete` change the entry
of a present one. -/
def Spec.call (μ : Spec fns T) : Op K T → Bool × Spec fns T
  | .insert key value =>
    if (μ (fns.cls key)).isSome then (false, μ) else (true, μ.set key (some value))
  | .replace key ptNew =>
    if (μ (fns.cls key)).isSome then (true, μ.set key (some ptNew)) else (false, μ)
  | .delete key => if (μ (fns.cls key)).isSome then (true, μ.set key none) else (false, μ)

/-- The calls that the map gets right: no `Insert` over a NULL value or of more keys than `m_size`
can count, and no `Delete` of a present key. -/
def Spec.Allows (μ : Spec fns T) : Op K T → Prop
  | .insert key _ => μ (fns.cls key) ≠ some none ∧
    (μ (fns.cls key) = none → μ.support.ncard + 1 < 2 ^ 32)
  | .replace _ _ => True
  | .delete key => μ (fns.cls key) = none

def run (fns : HashKeys K) (m : CHashMap K T) (ops : List (Op K T)) : CHashMap K T :=
  ops.foldl (fun m op => (m.call fns op).2) m

def Spec.run (μ : Spec fns T) (ops : List (Op K T)) : Spec fns T :=
  ops.foldl (fun μ op => (μ.call op).2) μ

/-- Each call of the run is one that the map gets right. -/
def Spec.AllowsRun (μ : Spec fns T) : List (Op K T) → Prop
  | [] => True
  | op :: ops => μ.Allows op ∧ Spec.AllowsRun (μ.call op).2 ops

@[simp] theorem run_cons (op : Op K T) (ops : List (Op K T)) :
    run fns m (op :: ops) = run fns (m.call fns op).2 ops := rfl

@[simp] theorem Spec.run_cons (op : Op K T) (ops : List (Op K T)) :
    μ.run (op :: ops) = Spec.run (μ.call op).2 ops := rfl

theorem delete_of_present (h : Represents fns m μ) {key : K} (hpresent : μ (fns.cls key) ≠ none) :
    ∃ ul, (m.m_chains (m.GetChain fns key)).findIdx? (fun e => fns.EqFn e.m_key key) = some ul := by
  obtain ⟨v, hv⟩ := Option.ne_none_iff_exists'.1 hpresent
  obtain ⟨e, he, hek, -⟩ := (h.value key v).1 hv
  rw [← Option.isSome_iff_exists, List.findIdx?_isSome, List.any_eq_true]
  exact ⟨e, he, fns.cls_eq.1 hek⟩

theorem delete_of_absent (h : Represents fns m μ) {key : K} (habsent : μ (fns.cls key) = none) :
    m.Delete fns key = (false, m) := by
  have hnone : (m.m_chains (m.GetChain fns key)).findIdx? (fun e => fns.EqFn e.m_key key) = none := by
    refine List.findIdx?_eq_none_iff.2 fun e he => ?_
    rw [Bool.eq_false_iff]
    intro heq
    have hv := (h.value key e.m_value).2 ⟨e, he, fns.cls_eq.2 heq, rfl⟩
    rw [habsent] at hv
    cases hv
  rw [Delete, hnone]

/-- The chains follow the finite map over every call but an `Insert` over NULL, and so do the
results of the calls. -/
theorem Represents.call (h : Represents fns m μ) {op : Op K T}
    (hnull : ∀ key value, op = .insert key value → μ (fns.cls key) ≠ some none) :
    (m.call fns op).1 = (μ.call op).1 ∧ Represents fns (m.call fns op).2 (μ.call op).2 := by
  cases op with
  | insert key value =>
    rw [CHashMap.call, Spec.call]
    cases hkey : μ (fns.cls key) with
    | none =>
      refine ⟨?_, h.insert_new value hkey⟩
      rw [Insert, if_neg (by simp [h.find, hkey])]
      rfl
    | some v =>
      obtain ⟨t, rfl⟩ : ∃ t, v = some t :=
        Option.ne_none_iff_exists'.1 fun hv => hnull key value rfl (by rw [hkey, hv])
      rw [Insert, if_pos (by simp [h.find, hkey])]
      exact ⟨rfl, h⟩
  | replace key ptNew =>
    rw [CHashMap.call, Spec.call]
    by_cases hkey : μ (fns.cls key) = none
    · rw [Replace, h.lookup_isSome, hkey]
      exact ⟨rfl, h⟩
    · have hsome := Option.isSome_iff_ne_none.2 hkey
      rw [if_pos hsome]
      refine ⟨?_, h.replace_present ptNew hkey⟩
      rw [Replace, h.lookup_isSome, if_pos hsome]
  | delete key =>
    rw [CHashMap.call, Spec.call]
    by_cases hkey : μ (fns.cls key) = none
    · rw [delete_of_absent h hkey, hkey]
      exact ⟨rfl, h⟩
    · obtain ⟨ul, hul⟩ := delete_of_present h hkey
      rw [if_pos (Option.isSome_iff_ne_none.2 hkey), Delete]
      dsimp only
      rw [hul]
      exact ⟨rfl, h.delete_present hul _⟩

/-! ### One call -/

theorem KeysOk.support_finite (hk : KeysOk fns m μ) : μ.support.Finite := by
  obtain ⟨ks, -, -, hpres, -, -⟩ := hk
  refine (List.finite_toSet (ks.map fns.cls)).subset fun c hc => ?_
  obtain ⟨k, rfl⟩ := Quotient.exists_rep c
  obtain ⟨k', hk', hcls⟩ := (hpres k).2 hc
  exact List.mem_map.2 ⟨k', hk', hcls⟩

theorem KeysOk.m_size_lt (hk : KeysOk fns m μ) : m.m_size < 2 ^ 32 := by
  obtain ⟨ks, -, -, -, hlen, hlt⟩ := hk
  rwa [hlen]

theorem KeysOk.call (hk : KeysOk fns m μ) (h : Represents fns m μ) {op : Op K T}
    (hallows : μ.Allows op) : KeysOk fns (m.call fns op).2 (μ.call op).2 := by
  cases op with
  | insert key value =>
    rw [CHashMap.call, Spec.call]
    cases hkey : μ (fns.cls key) with
    | none =>
      refine hk.insert_new h value hkey ?_
      rw [← Size, hk.ncard_support]
      exact hallows.2 hkey
    | some v =>
      obtain ⟨t, rfl⟩ : ∃ t, v = some t :=
        Option.ne_none_iff_exists'.1 fun hv => hallows.1 (by rw [hkey, hv])
      rw [Insert, if_pos (by simp [h.find, hkey])]
      exact hk
  | replace key ptNew =>
    rw [CHashMap.call, Spec.call, Replace, h.lookup_isSome]
    by_cases hkey : μ (fns.cls key) = none
    · rw [hkey]
      exact hk
    · rw [if_pos (Option.isSome_iff_ne_none.2 hkey), if_pos (Option.isSome_iff_ne_none.2 hkey)]
      exact hk.replace_present hkey rfl rfl
  | delete key =>
    rw [CHashMap.call, Spec.call, delete_of_absent h hallows, show μ (fns.cls key) = none from hallows]
    exact hk

theorem Spec.support_set_some {key : K} (value : Option T) :
    (μ.set key (some value)).support = insert (fns.cls key) μ.support := by
  ext c
  simp only [Spec.support, Spec.set, Set.mem_ofPred_eq, Set.mem_insert_iff, Function.update_apply]
  split <;> simp_all

theorem Spec.support_set_none (key : K) :
    (μ.set key none).support = μ.support \ {fns.cls key} := by
  ext c
  simp only [Spec.support, Spec.set, Set.mem_ofPred_eq, Set.mem_sdiff, Set.mem_singleton_iff,
    Function.update_apply]
  split <;> simp_all

/-- A call that the map does not get right leaves `Size` off. -/
theorem KeysOk.size_of_not_allows (hk : KeysOk fns m μ) (h : Represents fns m μ) {op : Op K T}
    (hallows : ¬μ.Allows op) : (m.call fns op).2.Size ≠ (μ.call op).2.support.ncard := by
  have hsize := hk.ncard_support
  have hlt := hk.m_size_lt
  rw [Size] at hsize
  cases op with
  | insert key value =>
    rw [CHashMap.call, Spec.call]
    have hnone : m.Find fns key = none := by
      rw [h.find]
      cases hkey : μ (fns.cls key) with
      | none => rfl
      | some v =>
        cases v with
        | none => rfl
        | some t => exact absurd ⟨by simp [hkey], by simp [hkey]⟩ hallows
    rw [insert_of_none hnone, Size]
    cases hkey : μ (fns.cls key) with
    | none =>
      -- more keys than the counter holds
      have hmany : ¬μ.support.ncard + 1 < 2 ^ 32 := fun hfew =>
        hallows ⟨by simp [hkey], fun _ => hfew⟩
      rw [if_neg (by simp), Spec.support_set_some,
        Set.ncard_insert_of_notMem (by simp [Spec.support, hkey]) hk.support_finite]
      dsimp only
      omega
    | some v =>
      -- the entry with the NULL value is counted a second time
      rw [if_pos (by simp), ← hsize]
      dsimp only
      omega
  | replace key ptNew => exact absurd trivial hallows
  | delete key =>
    rw [CHashMap.call, Spec.call]
    have hkey : μ (fns.cls key) ≠ none := hallows
    obtain ⟨ul, hul⟩ := delete_of_present h hkey
    rw [if_pos (Option.isSome_iff_ne_none.2 hkey), Spec.support_set_none, Delete]
    rw [hul, Size]
    dsimp only
    have hpos := Set.ncard_sdiff_singleton_add_one (show fns.cls key ∈ μ.support from hkey)
      hk.support_finite
    omega

/-! ### Every run -/

theorem faithful_run_iff_of (h : Represents fns m μ) (hk : KeysOk fns m μ) (ops : List (Op K T)) :
    (∀ pre, pre <+: ops → Faithful fns (m.run fns pre) (μ.run pre)) ↔ μ.AllowsRun ops := by
  induction ops generalizing m μ with
  | nil =>
    refine iff_of_true (fun pre hpre => ?_) trivial
    rw [List.prefix_nil.1 hpre]
    exact h.faithful hk
  | cons op ops ih =>
    rw [Spec.AllowsRun]
    by_cases hallows : μ.Allows op
    · rw [← ih (h.call ?_).2 (hk.call h hallows), and_iff_right hallows]
      · constructor
        · intro hall pre hpre
          exact hall (op :: pre) (List.cons_prefix_cons.2 ⟨rfl, hpre⟩)
        · intro hall pre hpre
          cases pre with
          | nil => exact h.faithful hk
          | cons op' pre =>
            obtain ⟨rfl, hrest⟩ := List.cons_prefix_cons.1 hpre
            exact hall pre hrest
      · rintro key value rfl
        exact hallows.1
    · refine iff_of_false (fun hall => ?_) fun hboth => hallows hboth.1
      exact hk.size_of_not_allows h hallows (hall [op] (List.prefix_append [op] ops)).size

/-- **A hash map behaves as a finite map through exactly the runs that delete no present key,
insert over no NULL value and keep fewer than 2^32 keys.** -/
theorem faithful_run_iff (fns : HashKeys K) (n : ℕ) (ops : List (Op K T)) :
    (∀ pre, pre <+: ops → Faithful fns ((CHashMap.new n).run fns pre)
      (Spec.run (fun _ => none : Spec fns T) pre)) ↔ Spec.AllowsRun (fun _ => none : Spec fns T) ops :=
  faithful_run_iff_of (.new fns n) (.new fns n) ops

theorem beq_self_nat : ∀ k : ℕ, (k == k) = true := by simp

theorem beq_symm_nat : ∀ k k' : ℕ, (k == k') = true → (k' == k) = true := by simp

theorem beq_trans_nat : ∀ k k' k'' : ℕ, (k == k') = true → (k' == k'') = true →
    (k == k'') = true := by simp

/-- Numbers as keys. -/
def natKeys : HashKeys ℕ where
  HashFn k := k
  EqFn k k' := k == k'
  refl := beq_self_nat
  symm := beq_symm_nat
  trans := beq_trans_nat
  hash_eq := by simp

/-- After an `Insert` and a `Delete` of one key the map is empty, but `Size` is 1 and the iterator
looks at the key that was destroyed. -/
theorem unfaithful_after_delete :
    let m : CHashMap ℕ ℕ := (CHashMap.new 127).run natKeys [.insert 1 (some 10), .delete 1]
    let μ := Spec.run (fun _ => none : Spec natKeys ℕ) [.insert 1 (some 10), .delete 1]
    m.Size = 1 ∧ m.iterate natKeys = none ∧ μ.support = ∅ ∧ ¬Faithful natKeys m μ := by
  have hempty : (Spec.run (fun _ => none : Spec natKeys ℕ)
      [.insert 1 (some 10), .delete 1]).support = ∅ := by
    simp [Spec.run, Spec.call, Spec.set, Spec.support]
  refine ⟨rfl, rfl, hempty, fun hfaithful => ?_⟩
  have hsize := hfaithful.size
  rw [hempty, Set.ncard_empty] at hsize
  cases hsize

end CHashMap

end BossOptimizer

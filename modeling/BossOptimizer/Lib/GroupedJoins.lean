import BossOptimizer.Lib.Groups
import BossOptimizer.Lib.Joins

/-!
# Groups of a join

When the left rows of a group have the same match, and only one, the groups of the join are those
of the left rows that have a match: grouping can be done before the join.
-/

namespace Joins

variable {α β γ κ κ' : Type*} [DecidableEq κ] [DecidableEq κ']

theorem flatMap_ite_singleton {q : α → Prop} [DecidablePred q] {f : α → γ} (l : List α) :
    (l.flatMap fun a => if q a then [f a] else []) = (l.filter (q ·)).map f := by
  induction l with
  | nil => rfl
  | cons a l ih =>
    rw [List.flatMap_cons, ih, List.filter_cons]
    by_cases ha : q a <;> simp [ha]

/-- A join builds its rows from the pairs that match. -/
theorem inner_eq_map (p : α → β → Bool) (pair : α → β → γ) (l : List α) (r : List β) :
    inner p pair l r = (inner p Prod.mk l r).map fun ab => pair ab.1 ab.2 := by
  rw [inner, inner, List.map_flatMap]
  refine List.flatMap_congr fun a _ => ?_
  rw [List.map_map]
  rfl

/-- The rows of a group of left rows have one match, the same for all, and the groups of the join
    are those of the left rows. -/
structure MatchesByGroup (p : α → β → Bool) (pair : α → β → γ) (groupKey : α → κ) (key : γ → κ')
    (l : List α) (r : List β) : Prop where
  congr : ∀ a ∈ l, ∀ a' ∈ l, groupKey a = groupKey a' → r.filter (p a) = r.filter (p a')
  unique : ∀ a ∈ l, ∀ b ∈ r, p a b = true → r.filter (p a) = [b]
  key_of_groupKey : ∀ a ∈ l, ∀ a' ∈ l, ∀ b ∈ r, groupKey a = groupKey a' →
    key (pair a b) = key (pair a' b)
  groupKey_of_key : ∀ a ∈ l, ∀ a' ∈ l, ∀ b ∈ r, ∀ b' ∈ r, key (pair a b) = key (pair a' b') →
    groupKey a = groupKey a'

namespace MatchesByGroup

variable {p : α → β → Bool} {pair : α → β → γ} {groupKey : α → κ} {key : γ → κ'} {l : List α}
  {r : List β}

/-- A group of the join is a group of left rows, each with the match. -/
theorem filter_inner (h : MatchesByGroup p pair groupKey key l r) {a : α} (ha : a ∈ l) {b : β}
    (hb : b ∈ r) (hab : p a b = true) :
    (inner p pair l r).filter (fun c => key c = key (pair a b)) =
      (l.filter fun a' => groupKey a' = groupKey a).map (pair · b) := by
  have hblock : ∀ a' ∈ l, ((r.filter (p a')).map (pair a')).filter
      (fun c => key c = key (pair a b)) = if groupKey a' = groupKey a then [pair a' b] else [] := by
    intro a' ha'
    split
    · next heq =>
      rw [h.congr a' ha' a ha heq, h.unique a ha b hb hab, List.map_singleton]
      exact List.filter_eq_self.2 fun c hc => by
        rw [List.mem_singleton.1 hc]
        exact decide_eq_true (h.key_of_groupKey a' ha' a ha b hb heq)
    · next hne =>
      refine List.filter_eq_nil_iff.2 fun c hc hkey => hne ?_
      obtain ⟨b', hb', rfl⟩ := List.mem_map.1 hc
      exact h.groupKey_of_key a' ha' a ha b' (List.mem_of_mem_filter hb') b hb
        (of_decide_eq_true hkey)
  rw [inner, List.filter_flatMap, List.flatMap_congr hblock, flatMap_ite_singleton]

/-- **The groups of the join are the groups of left rows** that have a match. -/
theorem perm_keys (h : MatchesByGroup p pair groupKey key l r) :
    ((Groups.representatives key (inner p pair l r)).map key).Perm
      ((inner p pair (Groups.representatives groupKey l) r).map key) := by
  have hmem : ∀ {a}, a ∈ Groups.representatives groupKey l → a ∈ l :=
    Groups.mem_of_mem_representatives
  have hnodup : ((inner p pair (Groups.representatives groupKey l) r).map key).Nodup := by
    have hapart := Groups.nodup_map_representatives groupKey l
    rw [inner, List.map_flatMap, List.nodup_flatMap]
    constructor
    · intro a ha
      by_cases hnil : r.filter (p a) = []
      · simp [hnil]
      · obtain ⟨b, hb⟩ := List.exists_mem_of_ne_nil _ hnil
        rw [h.unique a (hmem ha) b (List.mem_filter.1 hb).1 (List.mem_filter.1 hb).2]
        exact List.nodup_singleton _
    · refine (List.pairwise_map.1 hapart).imp_of_mem fun {a a'} ha ha' hne => ?_
      simp only [List.map_map]
      intro k hk hk'
      obtain ⟨b, hb, hkey⟩ := List.mem_map.1 hk
      obtain ⟨b', hb', rfl⟩ := List.mem_map.1 hk'
      exact hne (h.groupKey_of_key a (hmem ha) a' (hmem ha') b (List.mem_of_mem_filter hb) b'
        (List.mem_of_mem_filter hb') hkey)
  refine (List.perm_ext_iff_of_nodup (Groups.nodup_map_representatives key _) hnodup).2 fun k => ?_
  rw [Groups.mem_map_representatives, List.mem_map, List.mem_map]
  constructor
  · rintro ⟨c, hc, rfl⟩
    obtain ⟨a, ha, b, hb, hab, rfl⟩ := mem_inner.1 hc
    -- the row that stays for the group has the same match
    have hkey : groupKey a ∈ (Groups.representatives groupKey l).map groupKey :=
      Groups.mem_map_representatives.2 (List.mem_map_of_mem ha)
    obtain ⟨a', ha', heq⟩ := List.mem_map.1 hkey
    have hmatch : b ∈ r.filter (p a') :=
      h.congr a' (hmem ha') a ha heq ▸ List.mem_filter.2 ⟨hb, hab⟩
    exact ⟨_, mem_inner.2 ⟨a', ha', b, hb, (List.mem_filter.1 hmatch).2, rfl⟩,
      h.key_of_groupKey a' (hmem ha') a ha b hb heq⟩
  · rintro ⟨c, hc, rfl⟩
    obtain ⟨a, ha, b, hb, hab, rfl⟩ := mem_inner.1 hc
    exact ⟨_, mem_inner.2 ⟨a, hmem ha, b, hb, hab, rfl⟩, rfl⟩

end MatchesByGroup

end Joins

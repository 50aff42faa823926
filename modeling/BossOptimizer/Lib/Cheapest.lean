import Mathlib

/-!
# The cheapest of what has been offered

A bounded list keeps the cheapest of everything offered to it, if it takes what is offered while it
has room, and later exchanges one of its most expensive elements for a cheaper offer.
-/

namespace BossOptimizer.Cheapest

variable {α β : Type} [LinearOrder β]

/-- `kept` are `k` cheapest ones of `offered`, or all of them if there are no more. -/
structure Kept (cost : α → β) (k : ℕ) (kept offered : List α) : Prop where
  rest : ∃ rest, offered.Perm (kept ++ rest) ∧ ∀ a ∈ kept, ∀ b ∈ rest, cost a ≤ cost b
  length_eq : kept.length = min k offered.length

variable {cost : α → β} {k : ℕ} {kept offered : List α} {new : α}

theorem Kept.nil : Kept cost k [] [] := ⟨⟨[], .nil, nofun⟩, by simp⟩

theorem Kept.subset (h : Kept cost k kept offered) {a : α} (ha : a ∈ kept) : a ∈ offered := by
  obtain ⟨rest, hperm, -⟩ := h.rest
  exact hperm.mem_iff.2 (List.mem_append_left _ ha)

/-- While there is room, everything is kept. -/
theorem Kept.snoc (h : Kept cost k kept offered) (hroom : kept.length < k) :
    Kept cost k (kept ++ [new]) (offered ++ [new]) := by
  obtain ⟨rest, hperm, -⟩ := h.rest
  have hlength := h.length_eq
  have hrest : rest = [] := by
    have := hperm.length_eq
    rw [List.length_append] at this
    exact List.length_eq_zero_iff.1 (by omega)
  subst hrest
  rw [List.append_nil] at hperm
  refine ⟨⟨[], ?_, nofun⟩, ?_⟩
  · rw [List.append_nil]
    exact hperm.append_right [new]
  · rw [List.length_append, List.length_append, hperm.length_eq, List.length_singleton]
    have := hperm.length_eq
    omega

/-- An offer that is as expensive as all that is kept goes to the rest. -/
theorem Kept.pass (h : Kept cost k kept offered) (hfull : k ≤ kept.length)
    (hnew : ∀ a ∈ kept, cost a ≤ cost new) : Kept cost k kept (offered ++ [new]) := by
  obtain ⟨rest, hperm, hrest⟩ := h.rest
  have hlength := h.length_eq
  refine ⟨⟨rest ++ [new], ?_, fun a ha b hb => ?_⟩, ?_⟩
  · rw [← List.append_assoc]
    exact hperm.append_right [new]
  · rcases List.mem_append.1 hb with hold | hsingle
    · exact hrest a ha b hold
    · rw [List.mem_singleton.1 hsingle]
      exact hnew a ha
  · rw [List.length_append]
    omega

/-- A cheaper offer replaces a most expensive element. -/
theorem Kept.replace (h : Kept cost k kept offered) (hfull : k ≤ kept.length) {i : ℕ} {worst : α}
    (hworst : kept[i]? = some worst) (hmax : ∀ a ∈ kept, cost a ≤ cost worst)
    (hnew : cost new ≤ cost worst) : Kept cost k (kept.set i new) (offered ++ [new]) := by
  obtain ⟨rest, hperm, hrest⟩ := h.rest
  have hlength := h.length_eq
  obtain ⟨hi, hget⟩ := List.getElem?_eq_some_iff.1 hworst
  have hsplit : kept = kept.take i ++ worst :: kept.drop (i + 1) := by
    rw [← hget, ← List.drop_eq_getElem_cons hi, List.take_append_drop]
  have hset : kept.set i new = kept.take i ++ new :: kept.drop (i + 1) :=
    List.set_eq_take_append_cons_drop.trans (if_pos hi)
  have hperm' : (worst :: kept.set i new).Perm (new :: kept) := by
    rw [hset]
    conv_rhs => rw [hsplit]
    exact ((List.perm_middle.cons worst).trans (.swap new worst _)).trans
      (List.perm_middle.symm.cons new)
  refine ⟨⟨worst :: rest, ?_, fun a ha b hb => ?_⟩, ?_⟩
  · calc List.Perm (offered ++ [new]) (new :: offered) := List.perm_append_singleton new offered
      List.Perm _ (new :: (kept ++ rest)) := hperm.cons new
      List.Perm _ (worst :: kept.set i new ++ rest) := hperm'.symm.append_right rest
      List.Perm _ (kept.set i new ++ worst :: rest) := List.perm_middle.symm
  · have haworst : cost a ≤ cost worst := by
      rcases List.mem_or_eq_of_mem_set ha with hold | rfl
      · exact hmax a hold
      · exact hnew
    rcases List.mem_cons.1 hb with rfl | hold
    · exact haworst
    · exact le_trans haworst (hrest worst (List.mem_of_getElem? hworst) b hold)
  · rw [List.length_set, List.length_append]
    omega

end BossOptimizer.Cheapest

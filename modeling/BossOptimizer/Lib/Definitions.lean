import Mathlib.Data.List.Induction
import Mathlib.Data.List.Nodup

/-!
# Definitions in order

A list of definitions gives a meaning to each name, from the meanings of the names before it. When
no name is defined twice and a definition looks only at names before its own, the meanings satisfy
all definitions at once, and a property of definitions holds if it goes from the earlier ones to
the next.
-/

namespace BossOptimizer

namespace Definitions

variable {δ κ V : Type} [DecidableEq κ] (key : δ → κ) (compute : δ → (κ → V) → V) (start : κ → V)

/-- The meanings of the names, where those without a definition keep theirs. -/
def meaning (ds : List δ) : κ → V :=
  ds.foldl (fun C d => Function.update C (key d) (compute d C)) start

theorem meaning_append (ds ds' : List δ) :
    meaning key compute start (ds ++ ds') =
      meaning key compute (meaning key compute start ds) ds' := by
  rw [meaning, List.foldl_append]
  rfl

/-- Later definitions do not touch the other names. -/
theorem meaning_of_notMem {ds : List δ} {k : κ} (h : k ∉ ds.map key) :
    meaning key compute start ds k = start k := by
  induction ds generalizing start with
  | nil => rfl
  | cons d ds ih =>
    rw [List.map_cons, List.mem_cons, not_or] at h
    have hrest := ih (Function.update start (key d) (compute d start)) h.2
    rw [Function.update_of_ne h.1] at hrest
    exact hrest

/-- **The meanings satisfy the definitions**: a definition that looks at names before its own may
as well look at the final meanings. -/
theorem meaning_eq {as bs : List δ} {d : δ} (hnodup : ((as ++ d :: bs).map key).Nodup)
    (hlocal : ∀ C C' : κ → V, (∀ d' ∈ as, C (key d') = C' (key d')) → compute d C = compute d C') :
    meaning key compute start (as ++ d :: bs) (key d) =
      compute d (meaning key compute start (as ++ d :: bs)) := by
  rw [List.map_append, List.map_cons, List.nodup_append] at hnodup
  obtain ⟨-, hbs, hdisjoint⟩ := hnodup
  have hkeep : ∀ k, k ∉ (d :: bs).map key →
      meaning key compute start (as ++ d :: bs) k = meaning key compute start as k := by
    intro k hk
    rw [meaning_append]
    exact meaning_of_notMem key compute _ hk
  have hown : meaning key compute start (as ++ d :: bs) (key d) =
      compute d (meaning key compute start as) := by
    rw [meaning_append]
    have hrest := meaning_of_notMem key compute
      (Function.update (meaning key compute start as) (key d)
        (compute d (meaning key compute start as))) (List.nodup_cons.1 hbs).1
    rw [Function.update_self] at hrest
    exact hrest
  rw [hown]
  refine hlocal _ _ fun d' hd' => (hkeep _ fun hmem => ?_).symm
  exact hdisjoint _ (List.mem_map_of_mem hd') _ hmem rfl

omit [DecidableEq κ] in
/-- Induction along the definitions. -/
theorem forall_mem_of_earlier {P : δ → Prop} {ds : List δ}
    (h : ∀ as d bs, ds = as ++ d :: bs → (∀ d' ∈ as, P d') → P d) : ∀ d ∈ ds, P d := by
  have hprefix : ∀ as bs, ds = as ++ bs → ∀ d ∈ as, P d := by
    intro as
    induction as using List.reverseRecOn with
    | nil => exact fun _ _ d hd => absurd hd List.not_mem_nil
    | append_singleton as e ih =>
      intro bs hds d hd
      have hds' : ds = as ++ e :: bs := by rw [hds, List.append_assoc, List.singleton_append]
      rcases List.mem_append.1 hd with hearlier | hlast
      · exact ih (e :: bs) hds' d hearlier
      · rw [List.mem_singleton.1 hlast]
        exact h as e bs hds' (ih (e :: bs) hds')
  exact hprefix ds [] (List.append_nil ds).symm

end Definitions

end BossOptimizer

import Mathlib.Data.List.Perm.Basic

/-!
# The leader of a list under a strict comparison

A member is unbeaten when no member beats it, and leads when it beats every other one. Under a
strict order a finite list has an unbeaten member above each of its members, so it has a leader
exactly when only one member is unbeaten.
-/

namespace BossOptimizer

variable {α : Type*} (r : α → α → Prop)

/-- `r` is a strict order on the members of a list. -/
structure StrictOn (l : List α) : Prop where
  asymm : ∀ a ∈ l, ∀ b ∈ l, ¬(r a b ∧ r b a)
  trans : ∀ a ∈ l, ∀ b ∈ l, ∀ c ∈ l, r a b → r b c → r a c

def Unbeaten (l : List α) (m : α) : Prop := m ∈ l ∧ ∀ x ∈ l, ¬r x m

def Leads (l : List α) (m : α) : Prop := m ∈ l ∧ ∀ x ∈ l, x ≠ m → r m x

variable {r} {l : List α}

theorem StrictOn.irrefl (h : StrictOn r l) {a : α} (ha : a ∈ l) : ¬r a a :=
  fun haa => h.asymm a ha a ha ⟨haa, haa⟩

theorem StrictOn.of_cons {a : α} (h : StrictOn r (a :: l)) : StrictOn r l where
  asymm b hb c hc := h.asymm b (.tail a hb) c (.tail a hc)
  trans b hb c hc d hd := h.trans b (.tail a hb) c (.tail a hc) d (.tail a hd)

/-- Above every member there is an unbeaten one. -/
theorem StrictOn.exists_unbeaten (h : StrictOn r l) {x : α} (hx : x ∈ l) :
    ∃ m, Unbeaten r l m ∧ (m = x ∨ r m x) := by
  induction l generalizing x with
  | nil => cases hx
  | cons a l ih =>
    have hin {y : α} (hy : y ∈ l) : y ∈ a :: l := .tail a hy
    by_cases hbeats : ∃ y ∈ l, y = x ∨ r y x
    · -- an unbeaten member of the rest, unless the head beats it
      obtain ⟨y, hy, hyx⟩ := hbeats
      obtain ⟨m, ⟨hm, hunbeaten⟩, hmy⟩ := ih h.of_cons hy
      have hmx : m = x ∨ r m x := by
        rcases hmy with rfl | hmy
        · exact hyx
        · rcases hyx with rfl | hyx
          · exact .inr hmy
          · exact .inr (h.trans m (hin hm) y (hin hy) x hx hmy hyx)
      by_cases ham : r a m
      · refine ⟨a, ⟨.head l, ?_⟩, ?_⟩
        · intro z hz hza
          rcases List.mem_cons.1 hz with rfl | hz
          · exact h.irrefl (.head l) hza
          · exact hunbeaten z hz (h.trans z (hin hz) a (.head l) m (hin hm) hza ham)
        · rcases hmx with rfl | hmx
          · exact .inr ham
          · exact .inr (h.trans a (.head l) m (hin hm) x hx ham hmx)
      · refine ⟨m, ⟨hin hm, ?_⟩, hmx⟩
        intro z hz hzm
        rcases List.mem_cons.1 hz with rfl | hz
        · exact ham hzm
        · exact hunbeaten z hz hzm
    · -- `x` is the head, and nothing beats it
      have hxa : x = a := (List.mem_cons.1 hx).resolve_right fun hxl => hbeats ⟨x, hxl, .inl rfl⟩
      refine ⟨x, ⟨hx, ?_⟩, .inl rfl⟩
      intro z hz hzx
      rcases List.mem_cons.1 hz with rfl | hz
      · exact h.irrefl hx (hxa ▸ hzx)
      · exact hbeats ⟨z, hz, .inr hzx⟩

theorem Leads.unbeaten (h : StrictOn r l) {m : α} (hm : Leads r l m) : Unbeaten r l m := by
  refine ⟨hm.1, fun x hx hxm => ?_⟩
  by_cases hne : x = m
  · subst hne
    exact h.irrefl hx hxm
  · exact h.asymm x hx m hm.1 ⟨hxm, hm.2 x hx hne⟩

/-- A list has a leader exactly when one member only is unbeaten. -/
theorem StrictOn.exists_leads_iff (h : StrictOn r l) (hne : l ≠ []) :
    (∃ m, Leads r l m) ↔ ∀ m m', Unbeaten r l m → Unbeaten r l m' → m = m' := by
  constructor
  · rintro ⟨top, htop⟩
    have huniq : ∀ m, Unbeaten r l m → m = top := by
      intro m hm
      by_contra hmt
      exact hm.2 top htop.1 (htop.2 m hm.1 hmt)
    intro m m' hm hm'
    rw [huniq m hm, huniq m' hm']
  · intro huniq
    obtain ⟨x, hx⟩ := List.exists_mem_of_ne_nil l hne
    obtain ⟨top, htop, -⟩ := h.exists_unbeaten hx
    refine ⟨top, htop.1, fun y hy hyt => ?_⟩
    obtain ⟨m, hm, hmy⟩ := h.exists_unbeaten hy
    obtain rfl : m = top := huniq m top hm htop
    rcases hmy with heq | hmy
    · exact absurd heq.symm hyt
    · exact hmy

end BossOptimizer

import Mathlib.Data.List.Pairwise
import Mathlib.Tactic.Tauto

/-!
# Families of disjoint sets

Lists stand for sets, and a list of them for a family. Being together in a member of a family is
symmetric, and transitive when the members are disjoint: such a family is a partition of what it
covers. Joining a set with the members it meets gives the classes that the set connects.
-/

namespace DisjointFamilies

variable {α : Type*}

/-- In one member of the family. -/
def Together (P : List (List α)) (x y : α) : Prop := ∃ s ∈ P, x ∈ s ∧ y ∈ s

variable {P Q : List (List α)} {x y z : α}

theorem Together.symm (h : Together P x y) : Together P y x := by
  obtain ⟨s, hs, hx, hy⟩ := h
  exact ⟨s, hs, hy, hx⟩

theorem together_append : Together (P ++ Q) x y ↔ Together P x y ∨ Together Q x y := by
  simp only [Together, List.mem_append, or_and_right, exists_or]

theorem together_cons {s : List α} :
    Together (s :: P) x y ↔ (x ∈ s ∧ y ∈ s) ∨ Together P x y := by
  simp only [Together, List.mem_cons, or_and_right, exists_or, exists_eq_left]

instance symm_disjoint : Std.Symm (α := List α) List.Disjoint := ⟨fun _ _ hd _ hy hx => hd hx hy⟩

theorem eq_of_mem (h : P.Pairwise List.Disjoint) {s t : List α} (hs : s ∈ P) (ht : t ∈ P)
    (hxs : x ∈ s) (hxt : x ∈ t) : s = t := by
  by_contra hne
  exact h.forall hs ht hne hxs hxt

theorem Together.trans (hP : P.Pairwise List.Disjoint) (h : Together P x y)
    (h' : Together P y z) : Together P x z := by
  obtain ⟨s, hs, hx, hy⟩ := h
  obtain ⟨t, ht, hy', hz⟩ := h'
  cases eq_of_mem hP hs ht hy hy'
  exact ⟨s, hs, hx, hz⟩

/-! ## Connected elements -/

/-- Connected by members of the family. -/
abbrev Connected (P : List (List α)) : α → α → Prop := Relation.TransGen (Together P)

theorem Connected.symm (h : Connected P x y) : Connected P y x :=
  Relation.TransGen.trans_induction_on h (fun hstep => .single hstep.symm)
    fun _ _ h h' => h'.trans h

theorem connected_congr (h : ∀ x y, Together P x y ↔ Together Q x y) :
    Connected P x y ↔ Connected Q x y := by
  have hPQ : Together P = Together Q := funext fun x => funext fun y => propext (h x y)
  rw [Connected, Connected, hPQ]

/-- A disjoint family has nothing left to connect. -/
theorem connected_iff (hP : P.Pairwise List.Disjoint) : Connected P x y ↔ Together P x y :=
  ⟨fun h => Relation.TransGen.trans_induction_on h id fun _ _ h h' => h.trans hP h', .single⟩

/-- Members may be replaced by what they connect. -/
theorem connected_append_congr {P P' : List (List α)}
    (h : ∀ x y, Together P' x y ↔ Connected P x y) (Q : List (List α)) :
    Connected (P' ++ Q) x y ↔ Connected (P ++ Q) x y := by
  constructor
  · refine fun hxy => Relation.TransGen.trans_induction_on hxy (fun hstep => ?_)
      fun _ _ h h' => h.trans h'
    rcases together_append.1 hstep with hstep | hstep
    · exact ((h _ _).1 hstep).lift id fun _ _ ht => together_append.2 (.inl ht)
    · exact .single (together_append.2 (.inr hstep))
  · refine fun hxy => hxy.lift id fun a b hstep => ?_
    rcases together_append.1 hstep with hstep | hstep
    · exact together_append.2 (.inl ((h a b).2 (.single hstep)))
    · exact together_append.2 (.inr hstep)

/-! ## Absorbing -/

variable [DecidableEq α]

/-- A set has no element in common with another one. -/
def apart (s t : List α) : Bool := s.all (· ∉ t)

theorem apart_iff {s t : List α} : apart s t = true ↔ s.Disjoint t := by
  simp [apart, List.Disjoint]

/-- The family with a set that has absorbed all members that it meets. -/
def absorb (s : List α) (P : List (List α)) : List (List α) :=
  P.filter (apart s) ++ [s ++ (P.filter (!apart s ·)).flatten]

theorem mem_absorbed {s : List α} : x ∈ s ++ (P.filter (!apart s ·)).flatten ↔
    x ∈ s ∨ ∃ t ∈ P, x ∈ t ∧ ∃ z ∈ s, z ∈ t := by
  simp only [List.mem_append, List.mem_flatten, List.mem_filter, apart, Bool.not_eq_true',
    List.all_eq_false, decide_eq_true_eq, not_not]
  refine or_congr_right (exists_congr fun t => ?_)
  tauto

theorem pairwise_absorb (hP : P.Pairwise List.Disjoint) (s : List α) :
    (absorb s P).Pairwise List.Disjoint := by
  refine List.pairwise_append.2 ⟨hP.sublist List.filter_sublist, List.pairwise_singleton _ _, ?_⟩
  intro t ht u hu x hxt hxu
  obtain ⟨ht, hapart⟩ := List.mem_filter.1 ht
  have hdisjoint := apart_iff.1 hapart
  rw [List.mem_singleton.1 hu] at hxu
  rcases mem_absorbed.1 hxu with hx | ⟨t', ht', hx, z, hz, hzt'⟩
  · exact hdisjoint hx hxt
  · cases eq_of_mem hP ht ht' hxt hx
    exact hdisjoint hz hzt'

theorem exists_mem_absorb {s : List α} :
    (∃ t ∈ absorb s P, x ∈ t) ↔ x ∈ s ∨ ∃ t ∈ P, x ∈ t := by
  simp only [absorb, List.mem_append, List.mem_singleton]
  constructor
  · rintro ⟨t, ht | rfl, hx⟩
    · exact .inr ⟨t, (List.mem_filter.1 ht).1, hx⟩
    · rcases mem_absorbed.1 hx with hx | ⟨t, ht, hx, -⟩
      · exact .inl hx
      · exact .inr ⟨t, ht, hx⟩
  · rintro (hx | ⟨t, ht, hx⟩)
    · exact ⟨_, .inr rfl, mem_absorbed.2 (.inl hx)⟩
    · by_cases hapart : apart s t = true
      · exact ⟨t, .inl (List.mem_filter.2 ⟨ht, hapart⟩), hx⟩
      · have hmeet : ∃ z ∈ s, z ∈ t := by simpa [apart] using hapart
        exact ⟨_, .inr rfl, mem_absorbed.2 (.inr ⟨t, ht, hx, hmeet⟩)⟩

/-- **Absorbing connects.** -/
theorem together_absorb (hP : P.Pairwise List.Disjoint) (s : List α) :
    Together (absorb s P) x y ↔ Connected (s :: P) x y := by
  constructor
  · rintro ⟨t, ht, hx, hy⟩
    rcases List.mem_append.1 ht with ht | ht
    · exact .single ⟨t, List.mem_cons_of_mem _ (List.mem_filter.1 ht).1, hx, hy⟩
    · rw [List.mem_singleton.1 ht] at hx hy
      -- every element of the new set is connected to some element of the old one
      have hto : ∀ x ∈ s ++ (P.filter (!apart s ·)).flatten, ∃ z ∈ s, Connected (s :: P) x z := by
        intro x hx
        rcases mem_absorbed.1 hx with hx | ⟨t, ht, hx, z, hz, hzt⟩
        · exact ⟨x, hx, .single ⟨s, by simp, hx, hx⟩⟩
        · exact ⟨z, hz, .single ⟨t, by simp [ht], hx, hzt⟩⟩
      obtain ⟨z, hz, hxz⟩ := hto x hx
      obtain ⟨w, hw, hyw⟩ := hto y hy
      have hwy : Connected (s :: P) w y := hyw.symm
      exact (hxz.tail ⟨s, by simp, hz, hw⟩).trans hwy
  · intro h
    refine Relation.TransGen.trans_induction_on h (fun {a b} hstep => ?_) fun _ _ h h' =>
      h.trans (pairwise_absorb hP s) h'
    obtain ⟨t, ht, ha, hb⟩ := hstep
    rcases List.mem_cons.1 ht with hts | ht
    · rw [hts] at ha hb
      exact ⟨_, List.mem_append_right _ (List.mem_singleton_self _), mem_absorbed.2 (.inl ha),
        mem_absorbed.2 (.inl hb)⟩
    · by_cases hapart : apart s t = true
      · exact ⟨t, List.mem_append_left _ (List.mem_filter.2 ⟨ht, hapart⟩), ha, hb⟩
      · have hmeet : ∃ z ∈ s, z ∈ t := by simpa [apart] using hapart
        exact ⟨_, List.mem_append_right _ (by simp), mem_absorbed.2 (.inr ⟨t, ht, ha, hmeet⟩),
          mem_absorbed.2 (.inr ⟨t, ht, hb, hmeet⟩)⟩

end DisjointFamilies

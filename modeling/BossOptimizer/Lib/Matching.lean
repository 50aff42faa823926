import BossOptimizer.Lib.Lists
import Mathlib.Data.List.Perm.Basic

/-!
# Matching lists up to an equivalence

Two lists of one length in which every class of the first has the same number of members in both
are each other's rearrangement, member by member of one class. The equivalence is a Boolean test
that has to be one on the members only.
-/

namespace Matching

variable {α : Type} {r : α → α → Bool} {S : α → Prop} {l l' l'' : List α}

/-- The test is an equivalence on the members of a set. -/
structure EquivOn (r : α → α → Bool) (S : α → Prop) : Prop where
  refl : ∀ a, S a → r a a = true
  symm : ∀ a b, S a → S b → r a b = true → r b a = true
  trans : ∀ a b c, S a → S b → S c → r a b = true → r b c = true → r a c = true

/-- Related members count the same members. -/
theorem EquivOn.congr (h : EquivOn r S) {a b c : α} (ha : S a) (hb : S b) (hc : S c)
    (hbc : r b c = true) : r a b = r a c := by
  rw [Bool.eq_iff_iff]
  exact ⟨fun hab => h.trans a b c ha hb hc hab hbc,
    fun hac => h.trans a c b ha hc hb hac (h.symm b c hb hc hbc)⟩

/-- Member by member. -/
abbrev Alike (r : α → α → Bool) : List α → List α → Prop := List.Forall₂ fun a b => r a b = true

theorem Alike.symm (hm : Alike r l l') (h : EquivOn r S) (hl : ∀ a ∈ l, S a)
    (hl' : ∀ a ∈ l', S a) : Alike r l' l := by
  induction hm with
  | nil => exact .nil
  | cons hab _ ih =>
    exact .cons (h.symm _ _ (hl _ List.mem_cons_self) (hl' _ List.mem_cons_self) hab)
      (ih (fun a ha => hl a (List.mem_cons_of_mem _ ha))
        fun a ha => hl' a (List.mem_cons_of_mem _ ha))

theorem Alike.trans (hm : Alike r l l') (hm' : Alike r l' l'') (h : EquivOn r S)
    (hl : ∀ a ∈ l, S a) (hl' : ∀ a ∈ l', S a) (hl'' : ∀ a ∈ l'', S a) : Alike r l l'' := by
  induction hm generalizing l'' with
  | nil => exact hm'
  | cons hab _ ih =>
    cases hm' with
    | cons hbc hm' =>
      exact .cons (h.trans _ _ _ (hl _ List.mem_cons_self) (hl' _ List.mem_cons_self)
          (hl'' _ List.mem_cons_self) hab hbc)
        (ih hm' (fun a ha => hl a (List.mem_cons_of_mem _ ha))
          (fun a ha => hl' a (List.mem_cons_of_mem _ ha))
          fun a ha => hl'' a (List.mem_cons_of_mem _ ha))

/-- What related members agree in, list by list. -/
theorem Alike.map_eq {β : Type} {f : α → β} (hm : Alike r l l')
    (hf : ∀ a ∈ l, ∀ b ∈ l', r a b = true → f a = f b) : l.map f = l'.map f := by
  induction hm with
  | nil => rfl
  | cons hab _ ih =>
    rw [List.map_cons, List.map_cons, hf _ List.mem_cons_self _ List.mem_cons_self hab,
      ih fun a ha b hb => hf a (List.mem_cons_of_mem _ ha) b (List.mem_cons_of_mem _ hb)]

/-- Lists that agree in what only related members agree in are alike. -/
theorem Alike.of_map_eq {β : Type} {f : α → β} (h : l.map f = l'.map f)
    (hf : ∀ a ∈ l, ∀ b, f a = f b → r a b = true) : Alike r l l' :=
  BossOptimizer.forall₂_imp_of_mem (BossOptimizer.forall₂_of_map_eq h) hf

theorem EquivOn.countP_eq_of_alike (h : EquivOn r S) {a : α} (ha : S a) (hl : ∀ b ∈ l, S b)
    (hl' : ∀ b ∈ l', S b) (hm : Alike r l l') :
    l.countP (r a) = l'.countP (r a) := by
  induction hm with
  | nil => rfl
  | cons hbc _ ih =>
    simp only [List.countP_cons]
    rw [ih (fun b hb => hl b (List.mem_cons_of_mem _ hb))
        (fun b hb => hl' b (List.mem_cons_of_mem _ hb)),
      h.congr ha (hl _ List.mem_cons_self) (hl' _ List.mem_cons_self) hbc]

/-- The members of one list are those of the other, rearranged. -/
def Matched (r : α → α → Bool) (l l' : List α) : Prop :=
  ∃ m, l'.Perm m ∧ Alike r l m

theorem Matched.length_eq (h : Matched r l l') : l.length = l'.length := by
  obtain ⟨m, hperm, hm⟩ := h
  rw [hm.length_eq, hperm.length_eq]

/-- **Equal counts of every class make a matching.** -/
theorem matched_of_countP (h : EquivOn r S) (hl : ∀ a ∈ l, S a) (hl' : ∀ a ∈ l', S a)
    (hlen : l.length = l'.length) (hcount : ∀ a ∈ l, l.countP (r a) = l'.countP (r a)) :
    Matched r l l' := by
  induction l generalizing l' with
  | nil =>
    rw [List.length_eq_zero_iff.1 hlen.symm]
    exact ⟨[], .nil, .nil⟩
  | cons a l ih =>
    have ha : S a := hl a List.mem_cons_self
    have hself : r a a = true := h.refl a ha
    have hpos : 0 < l'.countP (r a) := by
      rw [← hcount a List.mem_cons_self, List.countP_cons, if_pos hself]
      exact Nat.succ_pos _
    obtain ⟨b, hb, hab⟩ := List.countP_pos_iff.1 hpos
    obtain ⟨m₀, hperm⟩ : ∃ m₀, l'.Perm (b :: m₀) := by
      obtain ⟨s, t, rfl⟩ := List.append_of_mem hb
      exact ⟨s ++ t, List.perm_middle⟩
    have hm₀ : ∀ c ∈ m₀, S c := fun c hc =>
      hl' c (hperm.mem_iff.2 (List.mem_cons_of_mem b hc))
    obtain ⟨m, hm, hfor⟩ := ih (fun c hc => hl c (List.mem_cons_of_mem a hc)) hm₀
      (by simpa [hperm.length_eq] using hlen) fun c hc => by
        have hc' : S c := hl c (List.mem_cons_of_mem a hc)
        have hall := hcount c (List.mem_cons_of_mem a hc)
        rw [hperm.countP_eq, List.countP_cons, List.countP_cons,
          h.congr hc' ha (hl' b hb) hab] at hall
        exact Nat.add_right_cancel hall
    exact ⟨b :: m, hperm.trans (hm.cons b), .cons hab hfor⟩

theorem Matched.countP_eq (hm : Matched r l l') (h : EquivOn r S) (hl : ∀ a ∈ l, S a)
    (hl' : ∀ a ∈ l', S a) {a : α} (ha : S a) : l.countP (r a) = l'.countP (r a) := by
  obtain ⟨m, hperm, hfor⟩ := hm
  rw [hperm.countP_eq]
  exact h.countP_eq_of_alike ha hl (fun b hb => hl' b (hperm.mem_iff.2 hb)) hfor

theorem Matched.symm (hm : Matched r l l') (h : EquivOn r S) (hl : ∀ a ∈ l, S a)
    (hl' : ∀ a ∈ l', S a) : Matched r l' l :=
  matched_of_countP h hl' hl hm.length_eq.symm fun _ ha => (hm.countP_eq h hl hl' (hl' _ ha)).symm

theorem Matched.trans (hm : Matched r l l') (hm' : Matched r l' l'') (h : EquivOn r S)
    (hl : ∀ a ∈ l, S a) (hl' : ∀ a ∈ l', S a) (hl'' : ∀ a ∈ l'', S a) : Matched r l l'' :=
  matched_of_countP h hl hl'' (hm.length_eq.trans hm'.length_eq) fun a ha =>
    (hm.countP_eq h hl hl' (hl a ha)).trans (hm'.countP_eq h hl' hl'' (hl a ha))

/-- What related members agree in is rearranged as they are. -/
theorem Matched.map_perm {β : Type} {f : α → β} (hm : Matched r l l')
    (hf : ∀ a ∈ l, ∀ b ∈ l', r a b = true → f a = f b) : (l.map f).Perm (l'.map f) := by
  obtain ⟨m, hperm, hfor⟩ := hm
  rw [hfor.map_eq fun a ha b hb => hf a ha b (hperm.mem_iff.2 hb)]
  exact (hperm.map f).symm

theorem Matched.of_map_perm {β : Type} {f : α → β} (h : (l.map f).Perm (l'.map f))
    (hf : ∀ a ∈ l, ∀ b, f a = f b → r a b = true) : Matched r l l' := by
  have hself : List.Forall₂ (fun c b => c = f b) (l'.map f) l' :=
    List.forall₂_map_left_iff.2 (List.forall₂_same.2 fun _ _ => rfl)
  obtain ⟨m, hm, hperm⟩ := List.perm_comp_forall₂ h hself
  exact ⟨m, hperm.symm, BossOptimizer.forall₂_imp_of_mem (List.forall₂_map_left_iff.1 hm) hf⟩

end Matching

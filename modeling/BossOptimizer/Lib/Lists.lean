import Mathlib.Data.List.Nodup

/-!
# Lists

Matching two lists element by element, lists with one element, and the values of all elements.
-/

namespace BossOptimizer

variable {α β : Type} {R : α → β → Prop}

variable {as : List α} {bs : List β}

theorem exists_of_forall₂_left (h : List.Forall₂ R as bs) {a : α}
    (ha : a ∈ as) : ∃ b ∈ bs, R a b := by
  induction h with
  | nil => cases ha
  | cons hab _ ih =>
    rcases List.mem_cons.1 ha with rfl | ha
    · exact ⟨_, by simp, hab⟩
    · obtain ⟨b, hb, hR⟩ := ih ha
      exact ⟨b, by simp [hb], hR⟩

theorem exists_of_forall₂_right (h : List.Forall₂ R as bs) {b : β}
    (hb : b ∈ bs) : ∃ a ∈ as, R a b :=
  exists_of_forall₂_left h.flip hb

theorem forall₂_of_forall_exists (h : ∀ a ∈ as, ∃ b, R a b) :
    ∃ bs, List.Forall₂ R as bs := by
  induction as with
  | nil => exact ⟨[], .nil⟩
  | cons a as ih =>
    obtain ⟨b, hb⟩ := h a (by simp)
    obtain ⟨bs, hbs⟩ := ih fun a' ha' => h a' (by simp [ha'])
    exact ⟨b :: bs, .cons hb hbs⟩

/-- Lists match if they match position by position. -/
theorem forall₂_of_getElem? (hlen : as.length = bs.length)
    (h : ∀ (i : ℕ) a b, as[i]? = some a → bs[i]? = some b → R a b) : List.Forall₂ R as bs := by
  induction as generalizing bs with
  | nil =>
    cases bs with
    | nil => exact .nil
    | cons b bs => simp at hlen
  | cons a as ih =>
    cases bs with
    | nil => simp at hlen
    | cons b bs =>
      refine .cons (h 0 a b rfl rfl) (ih (by simpa using hlen) fun i x y hx hy => ?_)
      exact h (i + 1) x y (by simpa using hx) (by simpa using hy)

theorem rel_of_getElem? (h : List.Forall₂ R as bs) {i : ℕ} {a : α} {b : β} (ha : as[i]? = some a)
    (hb : bs[i]? = some b) : R a b := by
  induction h generalizing i with
  | nil => simp at ha
  | cons hab _ ih =>
    cases i with
    | zero =>
      simp only [List.getElem?_cons_zero, Option.some.injEq] at ha hb
      exact ha ▸ hb ▸ hab
    | succ i => exact ih (by simpa using ha) (by simpa using hb)

theorem forall₂_imp_of_mem {S : α → β → Prop} (h : List.Forall₂ R as bs)
    (himp : ∀ a ∈ as, ∀ b, R a b → S a b) : List.Forall₂ S as bs :=
  ((List.forall₂_and_left _ _).2 ⟨fun _ ha => ha, h⟩).imp fun a b hab => himp a hab.1 b hab.2

theorem forall₂_of_map_eq {g : α → β} {as as' : List α} (h : as.map g = as'.map g) :
    List.Forall₂ (fun a a' => g a = g a') as as' := by
  rw [← List.forall₂_eq_eq_eq, List.forall₂_map_left_iff, List.forall₂_map_right_iff] at h
  exact h

/-- A list of one element for each element. -/
theorem forall₂_flatMap {f : α → List β} (h : ∀ a ∈ as, ∃ b, f a = [b] ∧ R a b) :
    List.Forall₂ R as (as.flatMap f) := by
  induction as with
  | nil => exact .nil
  | cons a as ih =>
    obtain ⟨b, hf, hR⟩ := h a (by simp)
    rw [List.flatMap_cons, hf]
    exact .cons hR (ih fun a' ha' => h a' (by simp [ha']))

theorem map_eq_map_of_forall₂ {γ : Type} (h : List.Forall₂ R as bs) {f : α → γ} {g : β → γ}
    (hfg : ∀ a ∈ as, ∀ b, R a b → f a = g b) : as.map f = bs.map g := by
  induction h with
  | nil => rfl
  | @cons a b _ _ hab _ ih =>
    rw [List.map_cons, List.map_cons, hfg a (by simp) b hab,
      ih fun a ha => hfg a (by simp [ha])]

theorem eq_singleton_of_nodup {l : List α} (hnd : l.Nodup) {x : α} (hx : x ∈ l)
    (hall : ∀ y ∈ l, y = x) : l = [x] := by
  rcases l with _ | ⟨a, _ | ⟨b, rest⟩⟩
  · cases hx
  · rw [hall a (by simp)]
  · have hab : a = b := (hall a (by simp)).trans (hall b (by simp)).symm
    simp [hab] at hnd

theorem two_le_length {l : List α} {x : α} (hx : x ∈ l) (h : ∀ y, l ≠ [y]) : 2 ≤ l.length := by
  rcases l with _ | ⟨a, _ | ⟨b, rest⟩⟩
  · cases hx
  · exact absurd rfl (h a)
  · simp

/-! ## The values of all elements, or none -/

/-- A filter that keeps no fewer elements than a weaker one keeps the same. -/
theorem imp_of_length_filter_eq {p q : α → Bool} {l : List α}
    (hpq : ∀ a ∈ l, p a = true → q a = true)
    (hlen : (l.filter p).length = (l.filter q).length) : ∀ a ∈ l, q a = true → p a = true := by
  intro a ha hq
  have hsub : (l.filter p).Sublist (l.filter q) := by
    have hboth : l.filter p = (l.filter q).filter p := by
      rw [List.filter_filter]
      refine List.filter_congr fun b hb => ?_
      cases hp : p b with
      | true => simp [hpq b hb hp]
      | false => simp
    rw [hboth]
    exact List.filter_sublist
  have hmem : a ∈ l.filter p := hsub.eq_of_length hlen ▸ List.mem_filter.2 ⟨ha, hq⟩
  exact (List.mem_filter.1 hmem).2

theorem mapM_eq_some_iff {f : α → Option β} :
    as.mapM f = some bs ↔ List.Forall₂ (fun a b => f a = some b) as bs := by
  induction as generalizing bs with
  | nil => cases bs <;> simp
  | cons a as ih =>
    cases hf : f a with
    | none => cases bs <;> simp [List.mapM_cons, hf]
    | some b =>
      cases has : as.mapM f with
      | none | some bs' => cases bs <;> simp [List.mapM_cons, hf, has, ← ih]

theorem mapM_eq_map {f : α → Option β} {g : α → β}
    (h : ∀ a ∈ as, f a = some (g a)) : as.mapM f = some (as.map g) := by
  rw [mapM_eq_some_iff, List.forall₂_map_right_iff, List.forall₂_same]
  exact h

/-- Two lists with the same images give values with the same images. -/
theorem mapM_image {γ δ : Type} {b : α → β} {f f' : α → Option γ} {g : γ → δ} {as as' : List α}
    (himage : as.map b = as'.map b)
    (h : ∀ a ∈ as, ∀ a', b a = b a' → (f a).map g = (f' a').map g) :
    (as.mapM f).map (List.map g) = (as'.mapM f').map (List.map g) := by
  induction as generalizing as' with
  | nil =>
    cases List.map_eq_nil_iff.1 himage.symm
    rfl
  | cons a as ih =>
    obtain ⟨a', as', rfl, ha, has⟩ := List.map_eq_cons_iff.1 himage.symm
    have hhead := h a (by simp) a' ha.symm
    have htail := ih has.symm fun a₀ ha₀ => h a₀ (by simp [ha₀])
    simp only [List.mapM_cons, Option.pure_def, Option.bind_eq_bind]
    cases hf : f a <;> cases hf' : f' a' <;> simp only [hf, hf', Option.map_none, Option.map_some,
      reduceCtorEq, Option.some.injEq] at hhead
    · rfl
    · cases hr : as.mapM f <;> cases hr' : as'.mapM f' <;> simp only [hr, hr', Option.map_none,
        Option.map_some, reduceCtorEq, Option.some.injEq] at htail
      · rfl
      · simp [hhead, htail]

/-- The values of the elements that a predicate holds of. -/
theorem mapM_filter_eq_some {f f' : α → Option β} {q : α → Bool} {q' : β → Bool}
    (h : as.mapM f = some bs) (hq : ∀ a ∈ as, ∀ b, f a = some b → q' b = q a)
    (hf : ∀ a ∈ as, q a → ∀ b, f a = some b → f' a = some b) :
    (as.filter q).mapM f' = some (bs.filter q') := by
  rw [mapM_eq_some_iff] at h ⊢
  induction h with
  | nil => exact .nil
  | @cons a b as bs hab _ ih =>
    have htail := ih (fun a ha => hq a (by simp [ha])) fun a ha => hf a (by simp [ha])
    rw [List.filter_cons, List.filter_cons, hq a (by simp) b hab]
    split
    · next hqa => exact .cons (hf a (by simp) hqa b hab) htail
    · exact htail

end BossOptimizer

import Mathlib

/-!
# Ranking sets of alternatives

`Ranked n f S`: `f` maps the ranks below `n` one to one onto `S`. Ranked sets are put together by
disjoint union, where a rank is reduced past the alternatives in front, and by products, where it
is read in mixed radix, the first digit varying fastest.
-/

namespace BossOptimizer

namespace Ranking

variable {ι β : Type*}

/-- `f` maps the ranks below `n` one to one onto `S`. -/
def Ranked (n : ℕ) (f : ℕ → β) (S : Set β) : Prop := Set.BijOn f (Set.Iio n) S

theorem Ranked.ncard {n : ℕ} {f : ℕ → β} {S : Set β} (h : Ranked n f S) : S.ncard = n := by
  rw [← h.image_eq, h.injOn.ncard_image, ← Finset.coe_Iio, Set.ncard_coe_finset, Nat.card_Iio]

theorem Ranked.congr {n : ℕ} {f g : ℕ → β} {S : Set β} (h : Ranked n f S)
    (hfg : ∀ r < n, f r = g r) : Ranked n g S := Set.BijOn.congr h fun r hr => hfg r hr

/-- The alternative that a rank falls into, by the counts `N`. -/
def sumAt [Inhabited β] (N : ι → ℕ) (F : ι → ℕ → β) : List ι → ℕ → β
  | [], _ => default
  | a :: l, r => if r < N a then F a r else sumAt N F l (r - N a)

/-- The digits of a rank, by the radices `M`. -/
def digitsAt (M : ι → ℕ) (G : ι → ℕ → β) : List ι → ℕ → List β
  | [], _ => []
  | s :: ss, r => G s (r % M s) :: digitsAt M G ss (r / M s)

variable [Inhabited β] {N : ι → ℕ} {F : ι → ℕ → β} {S : ι → Set β}

/-- **Disjoint unions.** -/
theorem ranked_sum {l : List ι} (hall : ∀ a ∈ l, Ranked (N a) (F a) (S a))
    (hdisj : l.Pairwise fun a b => Disjoint (S a) (S b)) :
    Ranked (l.map N).sum (sumAt N F l) {t | ∃ a ∈ l, t ∈ S a} := by
  induction l with
  | nil => exact ⟨fun r hr => (by cases hr), fun r hr => (by cases hr), fun t ht => (by simp at ht)⟩
  | cons a l ih =>
    obtain ⟨hfirst, hrest⟩ := List.pairwise_cons.mp hdisj
    obtain ⟨hmaps, hinj, hsurj⟩ := ih (fun b hb => hall b (List.mem_cons_of_mem a hb)) hrest
    obtain ⟨hmapsA, hinjA, hsurjA⟩ := hall a List.mem_cons_self
    have hlow : ∀ r, r < N a → sumAt N F (a :: l) r = F a r := fun r hr => if_pos hr
    have hhigh : ∀ r, N a ≤ r → sumAt N F (a :: l) r = sumAt N F l (r - N a) := fun r hr =>
      if_neg (by omega)
    have htail : ∀ r, N a ≤ r → r < N a + (l.map N).sum → r - N a ∈ Set.Iio (l.map N).sum :=
      fun r h1 h2 => Set.mem_Iio.mpr (by omega)
    have hcross : ∀ r r', r < N a → N a ≤ r' → r' < N a + (l.map N).sum →
        sumAt N F (a :: l) r ≠ sumAt N F (a :: l) r' := by
      intro r r' hr hr' hlt heq
      rw [hlow r hr, hhigh r' hr'] at heq
      obtain ⟨b, hb, hmem⟩ := hmaps (htail r' hr' hlt)
      exact Set.disjoint_left.mp (hfirst b hb) (hmapsA hr) (heq ▸ hmem)
    rw [List.map_cons, List.sum_cons]
    refine ⟨fun r hr => ?_, fun r hr r' hr' heq => ?_, ?_⟩
    · rw [Set.mem_Iio] at hr
      by_cases hra : r < N a
      · rw [hlow r hra]
        exact ⟨a, List.mem_cons_self, hmapsA hra⟩
      · rw [hhigh r (by omega)]
        obtain ⟨b, hb, hmem⟩ := hmaps (htail r (by omega) hr)
        exact ⟨b, List.mem_cons_of_mem a hb, hmem⟩
    · rw [Set.mem_Iio] at hr hr'
      by_cases hra : r < N a
      · by_cases hra' : r' < N a
        · rw [hlow r hra, hlow r' hra'] at heq
          exact hinjA hra hra' heq
        · exact absurd heq (hcross r r' hra (by omega) hr')
      · by_cases hra' : r' < N a
        · exact absurd heq.symm (hcross r' r hra' (by omega) hr)
        · rw [hhigh r (by omega), hhigh r' (by omega)] at heq
          have := hinj (htail r (by omega) hr) (htail r' (by omega) hr') heq
          omega
    · rintro t ⟨b, hb, ht⟩
      rcases List.mem_cons.mp hb with rfl | hb
      · obtain ⟨r, hr, rfl⟩ := hsurjA ht
        rw [Set.mem_Iio] at hr
        exact ⟨r, Set.mem_Iio.mpr (by omega), hlow r hr⟩
      · obtain ⟨r, hr, rfl⟩ := hsurj ⟨b, hb, ht⟩
        rw [Set.mem_Iio] at hr
        refine ⟨N a + r, Set.mem_Iio.mpr (by omega), ?_⟩
        rw [hhigh _ (by omega), Nat.add_sub_cancel_left]

omit [Inhabited β] in
/-- **Products.** -/
theorem ranked_prod {l : List ι} (hall : ∀ s ∈ l, Ranked (N s) (F s) (S s)) :
    Ranked (l.map N).prod (digitsAt N F l) {ts | List.Forall₂ (fun s t => t ∈ S s) l ts} := by
  induction l with
  | nil =>
    refine ⟨fun r _ => .nil, fun r hr r' hr' _ => ?_, fun ts hts => ?_⟩
    · simp only [List.map_nil, List.prod_nil, Set.mem_Iio] at hr hr'
      omega
    · obtain rfl := List.forall₂_nil_left_iff.mp hts
      exact ⟨0, by simp, rfl⟩
  | cons s l ih =>
    obtain ⟨hmaps, hinj, hsurj⟩ := ih fun b hb => hall b (List.mem_cons_of_mem s hb)
    obtain ⟨hmapsS, hinjS, hsurjS⟩ := hall s List.mem_cons_self
    rw [List.map_cons, List.prod_cons]
    have hpos : ∀ r, r < N s * (l.map N).prod → 0 < N s := fun r hr =>
      Nat.pos_of_ne_zero fun h0 => by simp [h0] at hr
    have hdigit : ∀ r, r < N s * (l.map N).prod → r % N s ∈ Set.Iio (N s) := fun r hr =>
      Nat.mod_lt r (hpos r hr)
    have hrest : ∀ r, r < N s * (l.map N).prod → r / N s ∈ Set.Iio (l.map N).prod := fun r hr =>
      Nat.div_lt_of_lt_mul hr
    refine ⟨fun r hr => .cons (hmapsS (hdigit r hr)) (hmaps (hrest r hr)),
      fun r hr r' hr' heq => ?_, fun ts hts => ?_⟩
    · obtain ⟨hhead, htail⟩ := List.cons.inj heq
      have hmod := hinjS (hdigit r hr) (hdigit r' hr') hhead
      have hdiv := hinj (hrest r hr) (hrest r' hr') htail
      rw [← Nat.div_add_mod r (N s), ← Nat.div_add_mod r' (N s), hmod, hdiv]
    · obtain ⟨t, us, ht, hus, rfl⟩ := List.forall₂_cons_left_iff.mp hts
      obtain ⟨k, hk, rfl⟩ := hsurjS ht
      obtain ⟨j, hj, rfl⟩ := hsurj hus
      rw [Set.mem_Iio] at hk hj
      refine ⟨k + N s * j, Set.mem_Iio.mpr ?_, ?_⟩
      · calc k + N s * j < N s + N s * j := by omega
          _ = N s * (j + 1) := by rw [Nat.mul_succ, Nat.add_comm]
          _ ≤ N s * (l.map N).prod := Nat.mul_le_mul_left _ hj
      · have hmod : (k + N s * j) % N s = k := by
          rw [Nat.add_mul_mod_self_left, Nat.mod_eq_of_lt hk]
        have hdiv : (k + N s * j) / N s = j := by
          rw [Nat.add_mul_div_left _ _ (by omega), Nat.div_eq_of_lt hk, Nat.zero_add]
        rw [digitsAt, hmod, hdiv]

end Ranking

end BossOptimizer

import BossOptimizer.Lib.Meets
import BossOptimizer.Lib.Ranking
import BossOptimizer.Search.CTreeMap

/-!
# The counts of a tree map

On numbers that satisfy the counting equations, `nodeCount` returns the number of a node, or
reports an overflow, and then some sum or product that it forms does not fit 64 bits. What it
has counted it reads back without a step.
-/

namespace BossOptimizer

namespace CTreeMap

variable {α : Type} {m : CTreeMap α}

/-- Sum of the counts of the candidates of a child. -/
def slotCount (N : ℕ → ℕ) (pdrg : List ℕ) : ℕ := (pdrg.map N).sum

/-- The count of a node: product over its children. -/
def arityCount (N : ℕ → ℕ) (pdrgdrg : List (List ℕ)) : ℕ := (pdrgdrg.map (slotCount N)).prod

/-- `N` satisfies the counting equations of the map. -/
def Counts (m : CTreeMap α) (N : ℕ → ℕ) : Prop := ∀ ul, N ul = arityCount N (m.children ul)

/-- Links lead to a smaller rank. -/
def RankedBy (m : CTreeMap α) (rank : ℕ → ℕ) : Prop :=
  ∀ ul, ∀ pdrg ∈ m.children ul, ∀ ptn ∈ pdrg, rank ptn < rank ul

/-- All sums over a child and all products over the first children of a node fit 64 bits. -/
def Fits (m : CTreeMap α) (N : ℕ → ℕ) : Prop :=
  ∀ ul, (∀ pdrg ∈ m.children ul, slotCount N pdrg ≤ ullong_max) ∧
    ∀ front rest, m.children ul = front ++ rest → arityCount N front ≤ ullong_max

/-- What is remembered is right, and a node that has trees had all its candidates counted. -/
def CountsOk (m : CTreeMap α) (N : ℕ → ℕ) (counts : ℕ → Option ℕ) : Prop :=
  ∀ ul n, counts ul = some n → n = N ul ∧ n ≤ ullong_max ∧
    (n ≠ 0 → ∀ pdrg ∈ m.children ul, ∀ ptn ∈ pdrg, (counts ptn).isSome)

/-- Nothing that was remembered is forgotten. -/
def Extends (counts counts' : ℕ → Option ℕ) : Prop :=
  ∀ ul n, counts ul = some n → counts' ul = some n

theorem Extends.refl (counts : ℕ → Option ℕ) : Extends counts counts := fun _ _ h => h

theorem Extends.trans {c₁ c₂ c₃ : ℕ → Option ℕ} (h₁ : Extends c₁ c₂) (h₂ : Extends c₂ c₃) :
    Extends c₁ c₃ := fun ul n h => h₂ ul n (h₁ ul n h)

theorem Extends.isSome {c₁ c₂ : ℕ → Option ℕ} (h : Extends c₁ c₂) {ul : ℕ}
    (hs : (c₁ ul).isSome) : (c₂ ul).isSome := by
  obtain ⟨n, hn⟩ := Option.isSome_iff_exists.mp hs
  rw [h ul n hn]
  rfl

theorem gposAdd_eq_ok {a b c : ℕ} (hb : b ≤ ullong_max) :
    gposAdd a b = .ok c ↔ c = a + b ∧ a + b ≤ ullong_max := by
  unfold gposAdd
  split
  · simp only [reduceCtorEq, false_iff, not_and]
    omega
  · simp only [Except.ok.injEq]
    omega

theorem gposAdd_eq_error {a b : ℕ} {e : TreeMapError} (h : gposAdd a b = .error e) :
    e = .overflow ∧ ullong_max < a + b := by
  unfold gposAdd at h
  split at h
  · cases h
    exact ⟨rfl, by omega⟩
  · cases h

theorem gposMultiply_eq_ok {a b c : ℕ} :
    gposMultiply a b = .ok c ↔ c = a * b ∧ a * b ≤ ullong_max := by
  unfold gposMultiply
  by_cases hb : 0 < b
  · have hdiv : a ≤ ullong_max / b ↔ a * b ≤ ullong_max := Nat.le_div_iff_mul_le hb
    split
    · next h =>
      simp only [reduceCtorEq, false_iff, not_and, ← hdiv]
      omega
    · next h =>
      have hle : a ≤ ullong_max / b := by
        by_contra hgt
        exact h ⟨hb, by omega⟩
      simp only [Except.ok.injEq, ← hdiv, hle, and_true]
      exact eq_comm
  · have hb0 : b = 0 := by omega
    simp [hb0, eq_comm]

theorem gposMultiply_eq_error {a b : ℕ} {e : TreeMapError} (h : gposMultiply a b = .error e) :
    e = .overflow ∧ ullong_max < a * b := by
  unfold gposMultiply at h
  split at h
  · next hc =>
    cases h
    refine ⟨rfl, ?_⟩
    by_contra hle
    have := (Nat.le_div_iff_mul_le hc.1).mpr (Nat.not_lt.mp hle)
    omega
  · cases h

/-- An overflow that is justified: something does not fit. -/
def Justified (m : CTreeMap α) (N : ℕ → ℕ) (e : TreeMapError) : Prop := e = .overflow ∧ ¬ Fits m N

/-- A count that was computed: the right number, remembered together with all else. -/
def Counted (m : CTreeMap α) (N : ℕ → ℕ) (counts : ℕ → Option ℕ) (ul n : ℕ)
    (counts' : ℕ → Option ℕ) : Prop :=
  n = N ul ∧ n ≤ ullong_max ∧ CountsOk m N counts' ∧ Extends counts counts' ∧ counts' ul = some n

theorem sumCounts_meets {N : ℕ → ℕ} {count : ℕ → CountM ℕ} {ul : ℕ} {pdrg rest : List ℕ}
    (hpdrg : pdrg ∈ m.children ul)
    (hcount : ∀ ptn ∈ rest, ∀ counts, CountsOk m N counts →
      Meets (count ptn) counts (Counted m N counts ptn) (Justified m N)) :
    ∀ done counts, pdrg = done ++ rest → slotCount N done ≤ ullong_max → CountsOk m N counts →
      Meets (sumCounts count rest (slotCount N done)) counts
        (fun n counts' => n = slotCount N pdrg ∧ n ≤ ullong_max ∧ CountsOk m N counts' ∧
          Extends counts counts' ∧ ∀ ptn ∈ rest, (counts' ptn).isSome) (Justified m N) := by
  induction rest with
  | nil =>
    intro done counts hsplit hle hok
    rw [List.append_nil] at hsplit
    exact Meets.pure ⟨by rw [hsplit], hle, hok, Extends.refl counts, by simp⟩
  | cons ptn rest ih =>
    intro done counts hsplit hle hok
    have hsplit' : pdrg = (done ++ [ptn]) ++ rest := by simpa using hsplit
    have hdone : slotCount N (done ++ [ptn]) = slotCount N done + N ptn := by simp [slotCount]
    refine Meets.bind (hcount ptn List.mem_cons_self counts hok) fun n counts₁ hn => ?_
    obtain ⟨rfl, hnle, hok₁, hext₁, hsome⟩ := hn
    refine Meets.bind (P := fun b s => s = counts₁ ∧ b = slotCount N (done ++ [ptn]) ∧
      b ≤ ullong_max) (Meets.lift (fun b hb => ?_) fun e he => ?_) ?_
    · obtain ⟨rfl, hsum⟩ := (gposAdd_eq_ok hnle).mp hb
      exact ⟨rfl, hdone.symm, hsum⟩
    · obtain ⟨rfl, hover⟩ := gposAdd_eq_error he
      refine ⟨rfl, fun hfits => ?_⟩
      have htotal : slotCount N pdrg = slotCount N done + N ptn + slotCount N rest := by
        rw [hsplit', slotCount, List.map_append, List.sum_append, ← hdone]
        rfl
      have := (hfits ul).1 pdrg hpdrg
      omega
    · rintro b s ⟨rfl, rfl, hb⟩
      refine (ih (fun p hp => hcount p (List.mem_cons_of_mem ptn hp)) (done ++ [ptn]) s hsplit' hb
        hok₁).mono fun n' counts' h => ?_
      obtain ⟨h1, h2, h3, h4, h5⟩ := h
      refine ⟨h1, h2, h3, hext₁.trans h4, fun p hp => ?_⟩
      rcases List.mem_cons.mp hp with rfl | hp
      · rw [h4 _ _ hsome]
        rfl
      · exact h5 p hp

theorem arityCount_append (N : ℕ → ℕ) (front : List (List ℕ)) (pdrg : List ℕ) :
    arityCount N (front ++ [pdrg]) = arityCount N front * slotCount N pdrg := by
  simp [arityCount]

theorem multiplyCounts_meets {N : ℕ → ℕ} {count : ℕ → CountM ℕ} {ul : ℕ} {rest : List (List ℕ)}
    (hcount : ∀ pdrg ∈ rest, ∀ ptn ∈ pdrg, ∀ counts, CountsOk m N counts →
      Meets (count ptn) counts (Counted m N counts ptn) (Justified m N)) :
    ∀ front counts, m.children ul = front ++ rest → arityCount N front ≤ ullong_max →
      arityCount N front ≠ 0 → CountsOk m N counts →
      Meets (multiplyCounts count rest (arityCount N front)) counts
        (fun n counts' => n = arityCount N (m.children ul) ∧ n ≤ ullong_max ∧
          CountsOk m N counts' ∧ Extends counts counts' ∧
          (n ≠ 0 → ∀ pdrg ∈ rest, ∀ ptn ∈ pdrg, (counts' ptn).isSome)) (Justified m N) := by
  induction rest with
  | nil =>
    intro front counts hsplit hle hpos hok
    rw [List.append_nil] at hsplit
    exact Meets.pure ⟨by rw [hsplit], hle, hok, Extends.refl counts, by simp⟩
  | cons pdrg rest ih =>
    intro front counts hsplit hle hpos hok
    have hsplit' : m.children ul = (front ++ [pdrg]) ++ rest := by simpa using hsplit
    have hmem : pdrg ∈ m.children ul := by rw [hsplit]; simp
    have hsum := sumCounts_meets hmem (hcount pdrg List.mem_cons_self) [] counts rfl
      (by simp [slotCount]) hok
    refine Meets.bind hsum fun ull counts₁ hull => ?_
    obtain ⟨rfl, hulle, hok₁, hext₁, hsome⟩ := hull
    split
    · next hzero =>
      refine Meets.pure ⟨?_, Nat.zero_le _, hok₁, hext₁, fun h => absurd rfl h⟩
      rw [hsplit', arityCount, List.map_append, List.prod_append]
      simp [hzero]
    · next hnz =>
      refine Meets.bind (P := fun b s => s = counts₁ ∧ b = arityCount N (front ++ [pdrg]) ∧
        b ≤ ullong_max) (Meets.lift (fun b hb => ?_) fun e he => ?_) ?_
      · obtain ⟨rfl, hprod⟩ := gposMultiply_eq_ok.mp hb
        exact ⟨rfl, (arityCount_append N front pdrg).symm, hprod⟩
      · obtain ⟨rfl, hover⟩ := gposMultiply_eq_error he
        refine ⟨rfl, fun hfits => ?_⟩
        have := (hfits ul).2 _ _ hsplit'
        rw [arityCount_append] at this
        omega
      · rintro b s ⟨rfl, rfl, hb⟩
        have hpos' : arityCount N (front ++ [pdrg]) ≠ 0 := by
          rw [arityCount_append]
          exact Nat.mul_ne_zero hpos hnz
        refine (ih (fun p hp => hcount p (List.mem_cons_of_mem pdrg hp)) (front ++ [pdrg]) s
          hsplit' hb hpos' hok₁).mono fun n counts' h => ?_
        obtain ⟨h1, h2, h3, h4, h5⟩ := h
        refine ⟨h1, h2, h3, hext₁.trans h4, fun hn p hp ptn hptn => ?_⟩
        rcases List.mem_cons.mp hp with rfl | hp
        · exact h4.isSome (hsome ptn hptn)
        · exact h5 hn p hp ptn hptn

/-- **Counting a node** gives its number, or an overflow that is justified. -/
theorem nodeCount_meets {N rank : ℕ → ℕ} (hN : Counts m N) (hrank : RankedBy m rank) :
    ∀ fuel ul counts, rank ul < fuel → CountsOk m N counts →
      Meets (nodeCount m fuel ul) counts (Counted m N counts ul) (Justified m N) := by
  intro fuel
  induction fuel with
  | zero => exact fun ul counts hlt => absurd hlt (by omega)
  | succ fuel ih =>
    intro ul counts hlt hok
    refine Meets.bind (P := fun b s => b = counts ∧ s = counts) ⟨rfl, rfl⟩ ?_
    rintro b s ⟨rfl, rfl⟩
    cases hul : s ul with
    | some n =>
      obtain ⟨hn, hle, -⟩ := hok ul n hul
      exact Meets.pure ⟨hn, hle, hok, Extends.refl s, hul⟩
    | none =>
      have hchildren : ∀ pdrg ∈ m.children ul, ∀ ptn ∈ pdrg, ∀ counts, CountsOk m N counts →
          Meets (nodeCount m fuel ptn) counts (Counted m N counts ptn) (Justified m N) := by
        intro pdrg hpdrg ptn hptn counts hok
        have := hrank ul pdrg hpdrg ptn hptn
        exact ih ptn counts (by omega) hok
      have hmul := multiplyCounts_meets hchildren [] s rfl (by simp [arityCount, ullong_max])
        (by simp [arityCount]) hok
      refine Meets.bind hmul fun n counts₁ hn => ?_
      obtain ⟨hn, hle, hok₁, hext₁, hsome⟩ := hn
      rw [← hN ul] at hn
      have hext' : Extends counts₁ (Function.update counts₁ ul (some n)) := by
        intro ul' n' h'
        by_cases hul' : ul' = ul
        · subst hul'
          rw [Function.update_self, hn, (hok₁ _ _ h').1]
        · rw [Function.update_of_ne hul', h']
      refine Meets.bind (P := fun _ s => s = Function.update counts₁ ul (some n)) rfl ?_
      rintro - s' rfl
      refine Meets.pure ⟨hn, hle, ?_, hext₁.trans hext', Function.update_self ..⟩
      intro ul' n' h'
      by_cases hul' : ul' = ul
      · subst hul'
        rw [Function.update_self] at h'
        cases h'
        exact ⟨hn, hle, fun hnz pdrg hp ptn hptn => hext'.isSome (hsome hnz pdrg hp ptn hptn)⟩
      · rw [Function.update_of_ne hul'] at h'
        obtain ⟨h1, h2, h3⟩ := hok₁ ul' n' h'
        exact ⟨h1, h2, fun hnz pdrg hp ptn hptn => hext'.isSome (h3 hnz pdrg hp ptn hptn)⟩

end CTreeMap

end BossOptimizer

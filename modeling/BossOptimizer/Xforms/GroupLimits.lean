import Mathlib.Data.Nat.Choose.Bounds
import Mathlib.Data.Nat.Prime.Basic

/-!
# The number of groups kept per level: `NChooseK` and `EnumerateDP`

For a join of more atoms than the limit of the exhaustive search, `EnumerateDP` keeps as many
groups on a level as a join of just that many atoms has. The number is a binomial coefficient,
computed as one 64-bit product divided by another and then cut to 32 bits; the machine's words
are Lean's.
-/

namespace BossOptimizer.CJoinOrderDPv2

/-- `numerator` and `denominator` of `NChooseK`, two `ULLONG`s. -/
structure Products where
  numerator : UInt64
  denominator : UInt64
  deriving DecidableEq, Repr

/-- The factor of the numerator in the iteration for `i`: `n + 1 - i`, in 32 bits. -/
def factor (n i : UInt32) : UInt32 := n + 1 - i

/-- The body of the loop of `NChooseK` (CJoinOrderDPv2.cpp:1776-1780). -/
def Products.multiply (p : Products) (n i : UInt32) : Products :=
  ⟨p.numerator * (factor n i).toUInt64, p.denominator * i.toUInt64⟩

/-- The products after the iterations for `1, …, k`. -/
def products (n : UInt32) : ℕ → Products
  | 0 => ⟨1, 1⟩
  | i + 1 => (products n i).multiply n (.ofNat (i + 1))

/-- `NChooseK` (CJoinOrderDPv2.cpp:1770-1783); `none` is the division by zero. -/
def NChooseK (n k : UInt32) : Option UInt32 :=
  let p := products n k.toNat
  if p.denominator = 0 then none else some (p.numerator / p.denominator).toUInt32

/-- `number_of_allowed_groups` of a level (CJoinOrderDPv2.cpp:1452-1465). -/
def number_of_allowed_groups (join_order_exhaustive_limit l : UInt32) : Option UInt32 :=
  if l < join_order_exhaustive_limit then NChooseK join_order_exhaustive_limit l
  else some 1

/-- The levels `2, …, m_ulComps`. -/
def levels (m_ulComps : UInt32) : List UInt32 :=
  (List.range' 2 (m_ulComps.toNat - 1)).map UInt32.ofNat

/-- The limits that `EnumerateDP` gives to the levels (CJoinOrderDPv2.cpp:1446-1473). -/
def levelLimits (join_order_exhaustive_limit m_ulComps : UInt32) :
    List (UInt32 × Option UInt32) :=
  if join_order_exhaustive_limit < m_ulComps then
    (levels m_ulComps).map fun l => (l, number_of_allowed_groups join_order_exhaustive_limit l)
  else []

/-- No product of the loop leaves the 64 bits. -/
def NoWrap (n k : UInt32) : Prop :=
  ∀ i < k.toNat,
    (products n i).numerator.toNat * (factor n (.ofNat (i + 1))).toNat < 2 ^ 64 ∧
      (products n i).denominator.toNat * (i + 1) < 2 ^ 64

/-- What a level's limit is for: the number of groups of that level in a join of `n` atoms. -/
structure ExactLimit (n l : UInt32) (limit : Option UInt32) : Prop where
  noWrap : NoWrap n l
  divisor : (products n l.toNat).denominator ≠ 0
  exact : n.toNat.choose l.toNat < 2 ^ 32 →
    ∃ r, limit = some r ∧ r.toNat = n.toNat.choose l.toNat
  enough : ∃ r, limit = some r ∧ 1 ≤ r.toNat ∧ n.toNat.choose l.toNat ≤ r.toNat

section Products

variable {n k l : UInt32} {i : ℕ}

theorem toNat_ofNat_of_le (h : i ≤ n.toNat) : (UInt32.ofNat i).toNat = i := by
  rw [UInt32.toNat_ofNat', Nat.mod_eq_of_lt (lt_of_le_of_lt h n.toNat_lt)]

theorem toNat_factor (h : i < n.toNat) : (factor n (.ofNat (i + 1))).toNat = n.toNat - i := by
  have hi := toNat_ofNat_of_le (n := n) (i := i + 1) h
  have hn := n.toNat_lt
  rw [factor, UInt32.toNat_sub, UInt32.toNat_add, hi]
  simp only [UInt32.reduceToNat]
  omega

/-- The products are those of the falling factorial and of the factorial, up to the word size. -/
theorem toNat_products (h : i ≤ n.toNat) :
    (products n i).numerator.toNat = n.toNat.descFactorial i % 2 ^ 64 ∧
      (products n i).denominator.toNat = i.factorial % 2 ^ 64 := by
  induction i with
  | zero => exact ⟨rfl, rfl⟩
  | succ i ih =>
    obtain ⟨hnum, hden⟩ := ih (by omega)
    constructor
    · rw [products, Products.multiply, UInt64.toNat_mul, UInt32.toNat_toUInt64, hnum,
        toNat_factor (by omega), Nat.descFactorial_succ, Nat.mod_mul_mod, Nat.mul_comm]
    · rw [products, Products.multiply, UInt64.toNat_mul, UInt32.toNat_toUInt64, hden,
        toNat_ofNat_of_le h, Nat.factorial_succ, Nat.mod_mul_mod, Nat.mul_comm]

theorem descFactorial_le_of_le {n i k : ℕ} (hik : i ≤ k) (hkn : k ≤ n) :
    n.descFactorial i ≤ n.descFactorial k := by
  rw [← Nat.descFactorial_mul_descFactorial hik]
  refine Nat.le_mul_of_pos_left _ (Nat.pos_of_ne_zero fun h => ?_)
  have := Nat.descFactorial_eq_zero_iff_lt.1 h
  omega

theorem factorial_le_descFactorial {n k : ℕ} (hkn : k ≤ n) : k.factorial ≤ n.descFactorial k := by
  rw [Nat.descFactorial_eq_factorial_mul_choose]
  exact Nat.le_mul_of_pos_right _ (Nat.choose_pos hkn)

/-- **The products stay within their words exactly when the falling factorial does.** -/
theorem noWrap_iff (hkn : k ≤ n) : NoWrap n k ↔ n.toNat.descFactorial k.toNat < 2 ^ 64 := by
  have hle : k.toNat ≤ n.toNat := UInt32.le_iff_toNat_le.1 hkn
  constructor
  · intro h
    -- the last product is the falling factorial if the ones before are exact
    have hexact : ∀ i ≤ k.toNat, n.toNat.descFactorial i < 2 ^ 64 := by
      intro i hi
      induction i with
      | zero => simp
      | succ i ih =>
        have hstep := (h i (by omega)).1
        rw [(toNat_products (by omega)).1, Nat.mod_eq_of_lt (ih (by omega)),
          toNat_factor (by omega), Nat.mul_comm, ← Nat.descFactorial_succ] at hstep
        exact hstep
    exact hexact k.toNat le_rfl
  · intro h i hi
    have hdesc : n.toNat.descFactorial (i + 1) < 2 ^ 64 :=
      lt_of_le_of_lt (descFactorial_le_of_le (by omega) hle) h
    have hprev : n.toNat.descFactorial i < 2 ^ 64 :=
      lt_of_le_of_lt (descFactorial_le_of_le (by omega) (by omega)) hdesc
    have hfact : (i + 1).factorial < 2 ^ 64 :=
      lt_of_le_of_lt (factorial_le_descFactorial (by omega)) hdesc
    have hfactPrev : i.factorial < 2 ^ 64 :=
      lt_of_le_of_lt (Nat.factorial_le (by omega)) hfact
    obtain ⟨hnum, hden⟩ := toNat_products (n := n) (i := i) (by omega)
    rw [hnum, hden, Nat.mod_eq_of_lt hprev, Nat.mod_eq_of_lt hfactPrev, toNat_factor (by omega),
      Nat.mul_comm, ← Nat.descFactorial_succ, Nat.mul_comm i.factorial, ← Nat.factorial_succ]
    exact ⟨hdesc, hfact⟩

/-- Without a wrap the result is the coefficient, cut to 32 bits. -/
theorem nChooseK_of_lt (hkn : k ≤ n) (h : n.toNat.descFactorial k.toNat < 2 ^ 64) :
    (products n k.toNat).denominator ≠ 0 ∧
      ∃ r, NChooseK n k = some r ∧ r.toNat = n.toNat.choose k.toNat % 2 ^ 32 := by
  have hle : k.toNat ≤ n.toNat := UInt32.le_iff_toNat_le.1 hkn
  have hfact : k.toNat.factorial < 2 ^ 64 :=
    lt_of_le_of_lt (factorial_le_descFactorial hle) h
  obtain ⟨hnum, hden⟩ := toNat_products hle
  rw [Nat.mod_eq_of_lt h] at hnum
  rw [Nat.mod_eq_of_lt hfact] at hden
  have hne : (products n k.toNat).denominator ≠ 0 := by
    intro hzero
    rw [hzero] at hden
    exact k.toNat.factorial_ne_zero hden.symm
  refine ⟨hne, _, if_neg hne, ?_⟩
  rw [UInt64.toNat_toUInt32, UInt64.toNat_div, hnum, hden,
    ← Nat.choose_eq_descFactorial_div_factorial]

end Products

section Levels

variable {limit comps l : UInt32} {r : Option UInt32}

theorem mem_levels : l ∈ levels comps ↔ 2 ≤ l ∧ l ≤ comps := by
  have hcomps := comps.toNat_lt
  simp only [levels, List.mem_map, List.mem_range'_1, UInt32.le_iff_toNat_le]
  constructor
  · rintro ⟨i, hi, rfl⟩
    rw [toNat_ofNat_of_le (n := comps) (by omega)]
    simp only [UInt32.reduceToNat]
    omega
  · intro h
    simp only [UInt32.reduceToNat] at h
    exact ⟨l.toNat, by omega, UInt32.ofNat_toNat⟩

theorem mem_levelLimits : (l, r) ∈ levelLimits limit comps ↔
    limit < comps ∧ 2 ≤ l ∧ l ≤ comps ∧ r = number_of_allowed_groups limit l := by
  rw [levelLimits]
  split_ifs with h
  · simp only [List.mem_map, Prod.mk.injEq, mem_levels]
    constructor
    · rintro ⟨l', ⟨h2, hle⟩, rfl, rfl⟩
      exact ⟨h, h2, hle, rfl⟩
    · rintro ⟨-, h2, hle, rfl⟩
      exact ⟨l, ⟨h2, hle⟩, rfl, rfl⟩
  · simp [h]

theorem exactLimit_of_lt (hl : l < limit) (hdesc : limit.toNat.descFactorial l.toNat < 2 ^ 64)
    (hchoose : limit.toNat.choose l.toNat < 2 ^ 32) :
    ExactLimit limit l (number_of_allowed_groups limit l) := by
  have hle : l ≤ limit := UInt32.le_of_lt hl
  obtain ⟨hne, r, hr, hval⟩ := nChooseK_of_lt hle hdesc
  have hlimit : number_of_allowed_groups limit l = some r := by
    rw [number_of_allowed_groups, if_pos hl, hr]
  rw [Nat.mod_eq_of_lt hchoose] at hval
  have hpos := Nat.choose_pos (UInt32.le_iff_toNat_le.1 hle)
  exact ⟨(noWrap_iff hle).2 hdesc, hne, fun _ => ⟨r, hlimit, hval⟩,
    r, hlimit, by omega, hval.ge⟩

/-- A limit for the joins of two atoms is never zero, however large the limit of the search is. -/
theorem one_le_number_of_allowed_groups_two {k : UInt32}
    (h : number_of_allowed_groups limit 2 = some k) : 1 ≤ k.toNat := by
  rw [number_of_allowed_groups] at h
  split_ifs at h with hlimit
  · have hlt := limit.toNat_lt
    have hgt : 2 < limit.toNat := UInt32.lt_iff_toNat_lt.1 hlimit
    have hdesc : limit.toNat.descFactorial (2 : UInt32).toNat < 2 ^ 64 :=
      calc limit.toNat.descFactorial 2 ≤ limit.toNat ^ 2 := Nat.descFactorial_le_pow _ _
        _ < (2 ^ 32) ^ 2 := Nat.pow_lt_pow_left hlt two_ne_zero
    obtain ⟨-, r, hr, hval⟩ := nChooseK_of_lt (UInt32.le_of_lt hlimit) hdesc
    rw [h] at hr
    cases hr
    rw [hval]
    refine Nat.pos_of_ne_zero fun hzero => ?_
    -- one of two neighbours is odd, so the other one would be a multiple of `2 ^ 33`
    have hdvd : 2 ^ 33 ∣ limit.toNat * (limit.toNat - 1) := by
      have hchoose : limit.toNat.choose 2 * 2 = limit.toNat * (limit.toNat - 1) := by
        rw [Nat.choose_two_right, Nat.div_mul_cancel (Nat.even_mul_pred_self _).two_dvd]
      rw [← hchoose, pow_succ]
      exact Nat.mul_dvd_mul_right (Nat.dvd_of_mod_eq_zero hzero) 2
    have hodd : ∀ a b, 2 ^ 33 ∣ a * b → b % 2 = 1 → 2 ^ 33 ∣ a := fun a b hab hb =>
      (Nat.Coprime.pow_left 33 ((Nat.coprime_two_left).2 (Nat.odd_iff.2 hb))).dvd_of_dvd_mul_right
        hab
    rcases Nat.mod_two_eq_zero_or_one limit.toNat with heven | hone
    · have := Nat.le_of_dvd (by omega) (hodd _ _ hdvd (by omega))
      omega
    · have := Nat.le_of_dvd (by omega) (hodd _ _ (Nat.mul_comm _ _ ▸ hdvd) hone)
      omega
  · cases h
    decide

/-- **A level's limit is the number of groups of an exhaustive search exactly when the falling
factorial fits in 64 bits and the coefficient in 32.** -/
theorem levelLimits_exact_iff (hmem : (l, r) ∈ levelLimits limit comps) (hl : l < limit) :
    ExactLimit limit l r ↔
      limit.toNat.descFactorial l.toNat < 2 ^ 64 ∧ limit.toNat.choose l.toNat < 2 ^ 32 := by
  have hle : l ≤ limit := UInt32.le_of_lt hl
  obtain ⟨-, -, -, rfl⟩ := mem_levelLimits.1 hmem
  constructor
  · intro h
    obtain ⟨r, -, -, henough⟩ := h.enough
    exact ⟨(noWrap_iff hle).1 h.noWrap, lt_of_le_of_lt henough r.toNat_lt⟩
  · rintro ⟨hdesc, hchoose⟩
    exact exactLimit_of_lt hl hdesc hchoose

/-- With the default limit and a join of twelve atoms, level 5 keeps `10 choose 5` groups. -/
theorem levelLimits_exact_ten : ExactLimit 10 5 (some 252) ↔
    Nat.descFactorial 10 5 < 2 ^ 64 ∧ Nat.choose 10 5 < 2 ^ 32 :=
  @levelLimits_exact_iff 10 12 _ _
    (mem_levelLimits.2 ⟨by decide, by decide, by decide, by decide⟩) (by decide)

/-- With a limit of 21 the numerator of level 19 wraps, and 58 of 210 groups are kept. -/
theorem levelLimits_inexact : ¬∀ (limit comps l : UInt32) (r : Option UInt32),
    (l, r) ∈ levelLimits limit comps → l < limit → ExactLimit limit l r := by
  intro h
  have hexact := h 21 22 19 (some 58)
    (mem_levelLimits.2 ⟨by decide, by decide, by decide, by decide⟩) (by decide)
  obtain ⟨r, hr, hval⟩ := hexact.exact (by decide)
  cases hr
  revert hval
  decide

end Levels

end BossOptimizer.CJoinOrderDPv2

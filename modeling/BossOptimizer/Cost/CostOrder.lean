import BossOptimizer.Cost.CCost
import BossOptimizer.Lib.PartialValues
import Mathlib.Algebra.BigOperators.Group.Finset.Basic

/-!
# The comparisons of costs

Under `useMaxCosting` every comparison walks over the entries of its left side and gives up on an
engine that the right side does not have. So `<=` is `≤` of partial values, `==` asks that the left
side is a part of the right one, and `<` is the two together; keys that only the right side has are
not looked at. `operator+` on the other hand takes a missing entry for 0.

Otherwise the derived numbers are compared.
-/

namespace BossOptimizer

namespace EngineCostMap

/-- The entries as partial values. -/
def values (costs : EngineCostMap) : EEngineType → WithBot ℚ := costs.find

variable {costs costs' : EngineCostMap} {engine : EEngineType}

theorem values_eq_bot_iff : costs.values engine = ⊥ ↔ engine ∉ costs.keys := find_eq_none_iff

theorem values_of_mem (h : engine ∈ costs.keys) : costs.values engine = costs.valueAt engine := by
  obtain ⟨v, hv⟩ := Option.ne_none_iff_exists'.1 (mt find_eq_none_iff.1 (not_not.2 h))
  rw [valueAt, hv]
  exact hv

theorem values_eq_coe_iff (h : costs.keys.Nodup) {v : ℚ} :
    costs.values engine = v ↔ (engine, v) ∈ costs := find_eq_some_iff h

/-- Maps with the same keys and values are the same partial values. -/
theorem values_congr (hkeys : ∀ k, k ∈ costs.keys ↔ k ∈ costs'.keys)
    (hvalues : ∀ k, costs.valueAt k = costs'.valueAt k) : costs.values = costs'.values := by
  funext k
  by_cases hk : k ∈ costs.keys
  · rw [values_of_mem hk, values_of_mem ((hkeys k).1 hk), hvalues]
  · rw [values_eq_bot_iff.2 hk, values_eq_bot_iff.2 (mt (hkeys k).2 hk)]

theorem mem_keys_merge : engine ∈ (costs.merge costs').keys ↔
    engine ∈ costs.keys ∨ engine ∈ costs'.keys := by
  unfold merge
  induction costs' generalizing costs with
  | nil => simp [keys]
  | cons kv rest ih =>
    rw [List.foldl_cons, ih, mem_keys_addEntry]
    simp only [keys, List.map_cons, List.mem_cons]
    tauto

/-- The sum of the entries over any finite set of engines that has the keys. -/
theorem total_eq_sum (h : costs.keys.Nodup) {s : Finset EEngineType}
    (hs : ∀ k ∈ costs.keys, k ∈ s) : costs.total = ∑ k ∈ s, costs.valueAt k := by
  have hkeys : costs.total = ∑ k ∈ costs.keys.toFinset, costs.valueAt k := by
    rw [List.sum_toFinset _ h, total, keys, List.map_map]
    congr 1
    exact List.map_congr_left fun kv hkv => (valueAt_of_mem h hkv).symm
  rw [hkeys]
  refine Finset.sum_subset (fun k hk => hs k (List.mem_toFinset.1 hk)) fun k _ hk => ?_
  rw [valueAt, find_eq_none_iff.2 (mt List.mem_toFinset.2 hk)]
  rfl

theorem valueAt_nonneg (hnn : ∀ kv ∈ costs, 0 ≤ kv.2) (h : costs.keys.Nodup)
    (engine : EEngineType) : 0 ≤ costs.valueAt engine := by
  unfold valueAt
  cases hfind : costs.find engine with
  | none => exact le_rfl
  | some v => exact hnn (engine, v) ((find_eq_some_iff h).1 hfind)

end EngineCostMap

namespace CCost

open EngineCostMap

/-! ## The comparisons as comparisons of partial values -/

/-- `operator<=` (CCost.h:249). -/
def le (useMaxCosting : Bool) (c c' : CCost) : Bool :=
  if useMaxCosting then
    c.engineCostMap.all fun kv => (c'.engineCostMap.find kv.1).any fun rhsVal => kv.2 ≤ rhsVal
  else c'.dCost ≥ c.dCost

/-- `operator!=` (CCost.h:324). -/
def ne (useMaxCosting : Bool) (c c' : CCost) : Bool := !eq useMaxCosting c c'

/-- `operator*(CDouble)` (CCost.h:174). -/
def mul (useMaxCosting : Bool) (c : CCost) (d : ℚ) : CCost :=
  ofMap useMaxCosting (c.engineCostMap.map fun kv => (kv.1, kv.2 * d))
    (by simpa [keys, List.map_map, Function.comp_def] using c.nodup)

/-- The entries of a cost. -/
def values (c : CCost) : EEngineType → WithBot ℚ := c.engineCostMap.values

variable {useMaxCosting : Bool} {a b c : CCost}

/-- What holds of the entries of a cost holds of its values. -/
theorem forall_entries {P : EEngineType → ℚ → Prop} :
    (∀ kv ∈ c.engineCostMap, P kv.1 kv.2) ↔ ∀ k (v : ℚ), c.values k = v → P k v := by
  constructor
  · intro h k v hv
    exact h (k, v) ((values_eq_coe_iff c.nodup).1 hv)
  · intro h kv hkv
    exact h kv.1 kv.2 ((values_eq_coe_iff c.nodup).2 hkv)

theorem values_le_iff : a.values ≤ b.values ↔
    ∀ kv ∈ a.engineCostMap, ∃ w, b.engineCostMap.find kv.1 = some w ∧ kv.2 ≤ w := by
  rw [forall_entries (P := fun k v => ∃ w, b.engineCostMap.find k = some w ∧ v ≤ w)]
  constructor
  · intro h k v hv
    have hle := h k
    rw [hv] at hle
    obtain ⟨w, hw, hvw⟩ := WithBot.coe_le_iff.1 hle
    exact ⟨w, hw, hvw⟩
  · intro h k
    cases hv : a.values k using WithBot.recBotCoe with
    | bot => exact bot_le
    | coe v =>
      obtain ⟨w, hw, hvw⟩ := h k v hv
      exact (WithBot.coe_le_coe.2 hvw).trans_eq hw.symm

theorem part_values_iff : Part a.values b.values ↔
    ∀ kv ∈ a.engineCostMap, b.engineCostMap.find kv.1 = some kv.2 := by
  rw [forall_entries (P := fun k v => b.engineCostMap.find k = some v)]
  constructor
  · intro h k v hv
    rcases h k with hbot | heq
    · rw [hv] at hbot
      exact absurd hbot WithBot.coe_ne_bot
    · exact heq.symm.trans hv
  · intro h k
    cases hv : a.values k using WithBot.recBotCoe with
    | bot => exact .inl rfl
    | coe v => exact .inr (h k v hv).symm

theorem le_max_iff : le true a b = true ↔ a.values ≤ b.values := by
  rw [values_le_iff, le, if_pos rfl, List.all_eq_true]
  simp [Option.any_eq_true]

theorem eq_max_iff : eq true a b = true ↔ Part a.values b.values := by
  rw [part_values_iff, eq, if_pos rfl, List.all_eq_true]
  simp

theorem ltLoop_iff (rhs : EngineCostMap) (lhs : EngineCostMap) (t : Bool) :
    ltLoop rhs lhs t = true ↔ (∀ kv ∈ lhs, ∃ w, rhs.find kv.1 = some w ∧ kv.2 ≤ w) ∧
      (t = true ∨ ∃ kv ∈ lhs, ∃ w, rhs.find kv.1 = some w ∧ kv.2 < w) := by
  induction lhs generalizing t with
  | nil => simp [ltLoop]
  | cons kv lhs ih =>
    obtain ⟨k, v⟩ := kv
    rw [ltLoop]
    cases hfind : rhs.find k with
    | none => simp [hfind]
    | some w =>
      simp only [List.forall_mem_cons, List.exists_mem_cons_iff, hfind, Option.some.injEq,
        exists_eq_left']
      split
      · next hlt => simp [ih, hlt, hlt.le]
      · next hnlt =>
        split
        · next hle => simp [ih, hnlt, hle]
        · next hnle => simp [hnle]

theorem lt_max_iff : lt true a b = true ↔ Below a.values b.values := by
  rw [lt, if_pos rfl, ltLoop_iff, ← values_le_iff]
  refine and_congr_right fun hle => ?_
  rw [part_values_iff]
  simp only [Bool.false_eq_true, false_or, not_forall]
  constructor
  · rintro ⟨kv, hkv, w, hw, hlt⟩
    refine ⟨kv, hkv, fun heq => ?_⟩
    rw [hw] at heq
    exact hlt.ne' (Option.some.inj heq)
  · rintro ⟨kv, hkv, hne⟩
    obtain ⟨w, hw, hvw⟩ := values_le_iff.1 hle kv hkv
    exact ⟨kv, hkv, w, hw, hvw.lt_of_ne fun heq => hne (heq ▸ hw)⟩

theorem lt_sum_iff : lt false a b = true ↔ a.dCost < b.dCost := decide_eq_true_iff

theorem le_sum_iff : le false a b = true ↔ a.dCost ≤ b.dCost := decide_eq_true_iff

theorem eq_sum_iff : eq false a b = true ↔ a.dCost = b.dCost := decide_eq_true_iff

/-! ## One consistent order -/

/-- `b` is `a` with extra entries that are 0. -/
def ExtraZeros (a b : CCost) : Prop :=
  ∀ k, b.values k = a.values k ∨ a.values k = ⊥ ∧ b.values k = (0 : ℚ)

/-- The comparisons form one order on a set of costs, in which a missing entry counts as 0. -/
structure ConsistentOrder (useMaxCosting : Bool) (S : Set CCost) : Prop where
  eq_refl : ∀ a ∈ S, eq useMaxCosting a a = true
  eq_symm : ∀ a ∈ S, ∀ b ∈ S, eq useMaxCosting a b = true → eq useMaxCosting b a = true
  eq_trans : ∀ a ∈ S, ∀ b ∈ S, ∀ c ∈ S, eq useMaxCosting a b = true →
    eq useMaxCosting b c = true → eq useMaxCosting a c = true
  lt_irrefl : ∀ a ∈ S, lt useMaxCosting a a = false
  lt_asymm : ∀ a ∈ S, ∀ b ∈ S, lt useMaxCosting a b = true → lt useMaxCosting b a = false
  lt_trans : ∀ a ∈ S, ∀ b ∈ S, ∀ c ∈ S, lt useMaxCosting a b = true →
    lt useMaxCosting b c = true → lt useMaxCosting a c = true
  le_iff : ∀ a ∈ S, ∀ b ∈ S,
    (le useMaxCosting a b = true ↔ lt useMaxCosting a b = true ∨ eq useMaxCosting a b = true)
  gt_iff : ∀ a ∈ S, ∀ b ∈ S, (gt useMaxCosting a b = true ↔ lt useMaxCosting b a = true)
  zeros : ∀ a ∈ S, ∀ b ∈ S, ExtraZeros a b →
    eq useMaxCosting a b = true ∧ eq useMaxCosting b a = true

theorem ExtraZeros.part (h : ExtraZeros a b) : Part a.values b.values := fun k =>
  (h k).elim (fun heq => .inr heq.symm) fun hzero => .inl hzero.1

/-- Entries that are 0 do not change the sum. -/
theorem ExtraZeros.dCost_sum (h : ExtraZeros a b) (ha : a.Proper false) (hb : b.Proper false) :
    a.dCost = b.dCost := by
  rw [ha.derived, hb.derived, deriveCostFromMap_sum, deriveCostFromMap_sum,
    total_eq_sum (s := a.engineCostMap.keys.toFinset ∪ b.engineCostMap.keys.toFinset) a.nodup
      (by simp +contextual),
    total_eq_sum (s := a.engineCostMap.keys.toFinset ∪ b.engineCostMap.keys.toFinset) b.nodup
      (by simp +contextual)]
  refine Finset.sum_congr rfl fun k _ => ?_
  rcases h k with heq | ⟨hbot, hzero⟩
  · exact congrArg (Option.getD · 0) heq.symm
  · exact (congrArg (Option.getD · 0) hbot).trans (congrArg (Option.getD · 0) hzero).symm

/-- Without `useMaxCosting` the derived numbers are compared. -/
theorem consistentOrder_sum {S : Set CCost} (hS : ∀ a ∈ S, a.Proper false) :
    ConsistentOrder false S where
  eq_refl _ _ := eq_sum_iff.2 rfl
  eq_symm _ _ _ _ h := eq_sum_iff.2 (eq_sum_iff.1 h).symm
  eq_trans _ _ _ _ _ _ h h' := eq_sum_iff.2 ((eq_sum_iff.1 h).trans (eq_sum_iff.1 h'))
  lt_irrefl _ _ := Bool.eq_false_iff.2 fun h => (lt_sum_iff.1 h).false
  lt_asymm _ _ _ _ h := Bool.eq_false_iff.2 fun h' => (lt_sum_iff.1 h).asymm (lt_sum_iff.1 h')
  lt_trans _ _ _ _ _ _ h h' := lt_sum_iff.2 ((lt_sum_iff.1 h).trans (lt_sum_iff.1 h'))
  le_iff _ _ _ _ := by rw [le_sum_iff, lt_sum_iff, eq_sum_iff, le_iff_lt_or_eq]
  gt_iff _ _ _ _ := Iff.rfl
  zeros a ha b hb h :=
    have hcost := h.dCost_sum (hS a ha) (hS b hb)
    ⟨eq_sum_iff.2 hcost, eq_sum_iff.2 hcost.symm⟩

section Examples

/-- 1 for any engine, and the same with 5 for the engine 0. -/
def anyOnly : CCost := ofMap true [(eetAny, 1)] (by decide)

def anyAndGP : CCost := ofMap true [(eetAny, 1), (eetGP, 5)] (by decide)

end Examples

/-! ## Addition -/

/-- The results of all five comparisons. -/
def comparisons (useMaxCosting : Bool) (a b : CCost) : Bool × Bool × Bool × Bool × Bool :=
  (lt useMaxCosting a b, le useMaxCosting a b, gt useMaxCosting a b, eq useMaxCosting a b,
    ne useMaxCosting a b)

variable {a' b' x : CCost}

/-- What the comparisons read: the derived number or, under `useMaxCosting`, the entries. -/
theorem comparisons_congr (hmax : useMaxCosting = true → a.values = a'.values ∧ b.values = b'.values)
    (hsum : useMaxCosting = false → a.dCost = a'.dCost ∧ b.dCost = b'.dCost) :
    comparisons useMaxCosting a b = comparisons useMaxCosting a' b' := by
  have hiff {p q : Bool} (h : p = true ↔ q = true) : p = q := Bool.eq_iff_iff.2 h
  unfold comparisons ne gt
  cases useMaxCosting with
  | false =>
    obtain ⟨ha, hb⟩ := hsum rfl
    have hlt : lt false a b = lt false a' b' := hiff (by rw [lt_sum_iff, lt_sum_iff, ha, hb])
    have hle : le false a b = le false a' b' := hiff (by rw [le_sum_iff, le_sum_iff, ha, hb])
    have hgt : lt false b a = lt false b' a' := hiff (by rw [lt_sum_iff, lt_sum_iff, ha, hb])
    have heq : eq false a b = eq false a' b' := hiff (by rw [eq_sum_iff, eq_sum_iff, ha, hb])
    rw [hlt, hle, hgt, heq]
  | true =>
    obtain ⟨ha, hb⟩ := hmax rfl
    have hlt : lt true a b = lt true a' b' := hiff (by rw [lt_max_iff, lt_max_iff, ha, hb])
    have hle : le true a b = le true a' b' := hiff (by rw [le_max_iff, le_max_iff, ha, hb])
    have hgt : lt true b a = lt true b' a' := hiff (by rw [lt_max_iff, lt_max_iff, ha, hb])
    have heq : eq true a b = eq true a' b' := hiff (by rw [eq_max_iff, eq_max_iff, ha, hb])
    rw [hlt, hle, hgt, heq]

theorem values_add_comm (a b : CCost) (useMaxCosting : Bool) :
    (add useMaxCosting a b).values = (add useMaxCosting b a).values := by
  refine values_congr (fun k => ?_) fun k => ?_
  · rw [add_engineCostMap, add_engineCostMap, mem_keys_merge, mem_keys_merge, or_comm]
  · rw [add_engineCostMap, add_engineCostMap, valueAt_merge b.nodup, valueAt_merge a.nodup, add_comm]

theorem values_add_assoc (a b x : CCost) (useMaxCosting : Bool) :
    (add useMaxCosting (add useMaxCosting a b) x).values =
      (add useMaxCosting a (add useMaxCosting b x)).values := by
  refine values_congr (fun k => ?_) fun k => ?_
  · simp only [add_engineCostMap, mem_keys_merge, or_assoc]
  · have hbx : ((b.engineCostMap.merge x.engineCostMap).keys).Nodup := nodup_merge b.nodup
    simp only [add_engineCostMap]
    rw [valueAt_merge x.nodup, valueAt_merge b.nodup, valueAt_merge hbx, valueAt_merge x.nodup,
      add_assoc]

theorem dCost_add_sum (a b : CCost) : (add false a b).dCost =
    a.engineCostMap.total + b.engineCostMap.total := by
  rw [add, ofMap, deriveCostFromMap_sum, total_merge]

theorem valueAt_ofDouble_zero (k : EEngineType) : (ofDouble 0).engineCostMap.valueAt k = 0 := by
  by_cases hk : k = eetAny <;> simp [ofDouble, ofEngine, valueAt, find, hk]

/-- Adding 0 adds the entry of any engine, if it is missing. -/
theorem values_add_zero (h : eetAny ∈ a.engineCostMap.keys) :
    (add useMaxCosting a (ofDouble 0)).values = a.values := by
  refine values_congr (fun k => ?_) fun k => ?_
  · rw [add_engineCostMap, mem_keys_merge]
    refine or_iff_left_of_imp fun hk => ?_
    obtain rfl : k = eetAny := by simpa [ofDouble, ofEngine, keys] using hk
    exact h
  · rw [add_engineCostMap, valueAt_merge (ofDouble 0).nodup, valueAt_ofDouble_zero, add_zero]

theorem le_add_zero_self (h : eetAny ∉ a.engineCostMap.keys) :
    le true (add true a (ofDouble 0)) a = false := by
  refine Bool.eq_false_iff.2 fun hle => ?_
  have hbot : a.values eetAny = ⊥ := values_eq_bot_iff.2 h
  have hle : (add true a (ofDouble 0)).values eetAny ≤ ⊥ := hbot ▸ le_max_iff.1 hle eetAny
  refine values_eq_bot_iff.1 (le_bot_iff.1 hle) ?_
  rw [add_engineCostMap, mem_keys_merge]
  exact .inr (by decide)

/-- A smaller cost has no larger entries, a missing one counting as 0. -/
theorem valueAt_le_of_values_le (hb : b.Proper useMaxCosting) (h : a.values ≤ b.values)
    (k : EEngineType) : a.engineCostMap.valueAt k ≤ b.engineCostMap.valueAt k := by
  by_cases hk : k ∈ a.engineCostMap.keys
  · have hle := h k
    rw [values, values_of_mem hk] at hle
    obtain ⟨w, hw, hle⟩ := WithBot.coe_le_iff.1 hle
    have hbk : b.engineCostMap.find k = some w := hw
    rwa [valueAt, valueAt, hbk] at *
  · rw [valueAt, find_eq_none_iff.2 hk]
    exact valueAt_nonneg hb.nonneg b.nodup k

/-- Addition keeps `<`, as far as the derived numbers go. -/
theorem dCost_add_le (ha : a.Proper useMaxCosting) (hb : b.Proper useMaxCosting)
    (hx : x.Proper useMaxCosting) (h : lt useMaxCosting a b = true) :
    (add useMaxCosting a x).dCost ≤ (add useMaxCosting b x).dCost := by
  cases useMaxCosting with
  | false =>
    have hlt := (lt_sum_iff.1 h).le
    rw [ha.derived, hb.derived, deriveCostFromMap_sum, deriveCostFromMap_sum] at hlt
    rw [dCost_add_sum, dCost_add_sum]
    exact add_le_add_left hlt _
  | true =>
    have hsum : (add true b x).Proper true := add_proper hb hx
    refine deriveCostFromMap_max_le.2 ⟨hsum.dCost_nonneg, fun kv hkv => ?_⟩
    calc kv.2 = (a.engineCostMap.merge x.engineCostMap).valueAt kv.1 :=
          (valueAt_of_mem (nodup_merge a.nodup) hkv).symm
      _ = a.engineCostMap.valueAt kv.1 + x.engineCostMap.valueAt kv.1 := valueAt_merge x.nodup kv.1
      _ ≤ b.engineCostMap.valueAt kv.1 + x.engineCostMap.valueAt kv.1 :=
          add_le_add_left (valueAt_le_of_values_le hb (lt_max_iff.1 h).1 kv.1) _
      _ = (b.engineCostMap.merge x.engineCostMap).valueAt kv.1 := (valueAt_merge x.nodup kv.1).symm
      _ ≤ (add true b x).dCost := valueAt_le_max (nodup_merge b.nodup) kv.1

/-- The comparisons are stable under addition, on a set of costs. -/
structure AdditionStable (useMaxCosting : Bool) (S : Set CCost) : Prop where
  mono : ∀ a ∈ S, ∀ b ∈ S, ∀ x ∈ S, lt useMaxCosting a b = true →
    (add useMaxCosting a x).dCost ≤ (add useMaxCosting b x).dCost
  zero_left : ∀ a ∈ S, ∀ b ∈ S,
    comparisons useMaxCosting (add useMaxCosting a (ofDouble 0)) b = comparisons useMaxCosting a b
  zero_right : ∀ a ∈ S, ∀ b ∈ S,
    comparisons useMaxCosting a (add useMaxCosting b (ofDouble 0)) = comparisons useMaxCosting a b
  comm : ∀ a ∈ S, ∀ x ∈ S,
    eq useMaxCosting (add useMaxCosting a x) (add useMaxCosting x a) = true
  assoc : ∀ a ∈ S, ∀ b ∈ S, ∀ x ∈ S,
    eq useMaxCosting (add useMaxCosting (add useMaxCosting a b) x)
      (add useMaxCosting a (add useMaxCosting b x)) = true
  add_derived : ∀ a ∈ S, ∀ b ∈ S, (add useMaxCosting a b).dCost =
    deriveCostFromMap useMaxCosting (add useMaxCosting a b).engineCostMap
  mul_derived : ∀ a ∈ S, ∀ d, (mul useMaxCosting a d).dCost =
    deriveCostFromMap useMaxCosting (mul useMaxCosting a d).engineCostMap

theorem eq_of_values_eq (hmax : a.values = b.values) (hsum : useMaxCosting = false → a.dCost = b.dCost) :
    eq useMaxCosting a b = true := by
  cases useMaxCosting with
  | false => exact eq_sum_iff.2 (hsum rfl)
  | true => exact eq_max_iff.2 (hmax ▸ Part.refl _)

theorem comparisons_add_zero (ha : a.Proper useMaxCosting) (hb : b.Proper useMaxCosting)
    (hany : useMaxCosting = true → eetAny ∈ a.engineCostMap.keys ∧ eetAny ∈ b.engineCostMap.keys) :
    comparisons useMaxCosting (add useMaxCosting a (ofDouble 0)) b = comparisons useMaxCosting a b ∧
      comparisons useMaxCosting a (add useMaxCosting b (ofDouble 0)) =
        comparisons useMaxCosting a b := by
  have hsum {c : CCost} (hc : c.Proper useMaxCosting) (hmode : useMaxCosting = false) :
      (add useMaxCosting c (ofDouble 0)).dCost = c.dCost := by
    subst hmode
    have hzero : (ofDouble 0).engineCostMap.total = 0 := by simp [ofDouble, ofEngine, total]
    rw [dCost_add_sum, hc.derived, deriveCostFromMap_sum, hzero, add_zero]
  exact ⟨comparisons_congr (fun hmode => ⟨values_add_zero (hany hmode).1, rfl⟩)
      fun hmode => ⟨hsum ha hmode, rfl⟩,
    comparisons_congr (fun hmode => ⟨rfl, values_add_zero (hany hmode).2⟩)
      fun hmode => ⟨rfl, hsum hb hmode⟩⟩

section Examples

/-- A cost of one engine. -/
def onGP : CCost := ofEngine 1 eetGP

end Examples

end CCost

end BossOptimizer

import Mathlib.Algebra.Order.BigOperators.Group.List
import Mathlib.Tactic.Linarith
import Mathlib.Tactic.Ring

/-!
# Costs: `CCost` (CCost.h)

A cost is a map from engines to numbers with one number derived from it: the sum of the entries
or, under `useMaxCosting`, the largest of them. Addition adds the maps engine by engine. The
comparisons read the derived number, or compare the maps entry by entry under `useMaxCosting`.

`CDouble` is modelled by the rationals: rounding, the clamp to representable values and the
tolerance of comparisons (2.2e-308) are left out. `std::map` is a list with distinct keys; its
iteration order makes no difference to sums and maxima.
-/

namespace BossOptimizer

/-- `EEngineType` (EEngineType.hpp:16), extended at run time. -/
abbrev EEngineType := ℕ

def eetGP : EEngineType := 0

def eetAny : EEngineType := 1

/-- `std::map<EEngineType, CDouble>`. -/
abbrev EngineCostMap := List (EEngineType × ℚ)

namespace EngineCostMap

/-- `DeriveCostFromMap` (CCost.h:92). -/
def deriveCostFromMap (useMaxCosting : Bool) (costs : EngineCostMap) : ℚ :=
  if useMaxCosting then
    costs.foldl (fun maxCost kv => if kv.2 > maxCost then kv.2 else maxCost) 0
  else
    costs.foldl (fun sumCost kv => sumCost + kv.2) 0

/-- One step of `operator+`: find the key, insert 0 if it is missing, and add. -/
def addEntry (key : EEngineType) (val : ℚ) : EngineCostMap → EngineCostMap
  | [] => [(key, 0 + val)]
  | (k, v) :: rest => if key = k then (k, v + val) :: rest else (k, v) :: addEntry key val rest

/-- The loop of `operator+` (CCost.h:164). -/
def merge (costs costs' : EngineCostMap) : EngineCostMap :=
  costs'.foldl (fun merged kv => addEntry kv.1 kv.2 merged) costs

def keys (costs : EngineCostMap) : List EEngineType := costs.map Prod.fst

/-- The sum of the entries. -/
def total (costs : EngineCostMap) : ℚ := (costs.map Prod.snd).sum

/-- `std::map::find`. -/
def find (engine : EEngineType) : EngineCostMap → Option ℚ
  | [] => none
  | (k, v) :: rest => if engine = k then some v else find engine rest

/-- The entry of an engine, 0 if there is none. -/
def valueAt (costs : EngineCostMap) (engine : EEngineType) : ℚ := (costs.find engine).getD 0

variable {costs costs' : EngineCostMap} {key : EEngineType} {val : ℚ}

/-! ## Merging -/

attribute [local simp] addEntry find in
theorem mem_keys_addEntry {k : EEngineType} :
    k ∈ (addEntry key val costs).keys ↔ k = key ∨ k ∈ costs.keys := by
  induction costs with
  | nil => simp [addEntry, keys]
  | cons kv rest ih =>
    obtain ⟨k', v⟩ := kv
    rw [addEntry]
    split
    · next heq =>
      subst heq
      simp [keys]
    · simp only [keys, List.map_cons, List.mem_cons] at ih ⊢
      rw [ih]
      tauto

theorem nodup_addEntry (h : costs.keys.Nodup) : (addEntry key val costs).keys.Nodup := by
  induction costs with
  | nil => simp [addEntry, keys]
  | cons kv rest ih =>
    obtain ⟨k', v⟩ := kv
    obtain ⟨hk', hrest⟩ := List.nodup_cons.1 h
    rw [addEntry]
    split
    · exact List.nodup_cons.2 ⟨hk', hrest⟩
    · next hne =>
      refine List.nodup_cons.2 ⟨fun hmem => ?_, ih hrest⟩
      rcases mem_keys_addEntry.1 hmem with heq | hmem
      · exact hne heq.symm
      · exact hk' hmem

theorem nodup_merge (h : costs.keys.Nodup) : (costs.merge costs').keys.Nodup := by
  unfold merge
  induction costs' generalizing costs with
  | nil => exact h
  | cons kv rest ih => exact ih (nodup_addEntry h)

theorem total_addEntry : (addEntry key val costs).total = costs.total + val := by
  induction costs with
  | nil => simp [addEntry, total]
  | cons kv rest ih =>
    obtain ⟨k', v⟩ := kv
    rw [addEntry]
    simp only [total] at ih ⊢
    split
    · simp only [List.map_cons, List.sum_cons]
      ring
    · simp only [List.map_cons, List.sum_cons, ih]
      ring

/-- Merging adds the sums. -/
theorem total_merge : (costs.merge costs').total = costs.total + costs'.total := by
  unfold merge
  induction costs' generalizing costs with
  | nil => simp [total]
  | cons kv rest ih =>
    rw [List.foldl_cons, ih, total_addEntry]
    simp only [total, List.map_cons, List.sum_cons]
    ring

theorem find_eq_none_iff {engine : EEngineType} : costs.find engine = none ↔ engine ∉ costs.keys := by
  induction costs with
  | nil => simp [find, keys]
  | cons kv rest ih =>
    obtain ⟨k', v⟩ := kv
    simp only [keys, List.map_cons, List.mem_cons, not_or] at ih ⊢
    rw [find]
    split
    · next h => simp [h]
    · next h => simp [h, ih]

theorem find_eq_some_iff (h : costs.keys.Nodup) {engine : EEngineType} {v : ℚ} :
    costs.find engine = some v ↔ (engine, v) ∈ costs := by
  induction costs with
  | nil => simp [find]
  | cons kv rest ih =>
    obtain ⟨k', v'⟩ := kv
    obtain ⟨hk', hrest⟩ := List.nodup_cons.1 h
    rw [find, List.mem_cons, Prod.mk.injEq]
    split
    · next heq =>
      subst heq
      have hnot : (engine, v) ∉ rest := fun hmem => hk' (List.mem_map.2 ⟨_, hmem, rfl⟩)
      simp [hnot, eq_comm]
    · next hne => simp [hne, ih hrest]

theorem find_addEntry {engine : EEngineType} : (addEntry key val costs).find engine =
    if engine = key then some (costs.valueAt engine + val) else costs.find engine := by
  induction costs with
  | nil => by_cases h : engine = key <;> simp [addEntry, find, valueAt, h]
  | cons kv rest ih =>
    obtain ⟨k', v⟩ := kv
    by_cases hk : key = k'
    · subst hk
      by_cases h : engine = key <;> simp [addEntry, find, valueAt, h]
    · by_cases h : engine = k'
      · subst h
        simp [addEntry, find, hk, Ne.symm hk]
      · simp only [addEntry, find, valueAt, if_neg hk, if_neg h] at ih ⊢
        exact ih

theorem valueAt_addEntry {engine : EEngineType} : (addEntry key val costs).valueAt engine =
    costs.valueAt engine + if engine = key then val else 0 := by
  rw [valueAt, find_addEntry]
  split
  · simp
  · simp [valueAt]

/-- Merging adds engine by engine. -/
theorem valueAt_merge (h : costs'.keys.Nodup) (engine : EEngineType) :
    (costs.merge costs').valueAt engine = costs.valueAt engine + costs'.valueAt engine := by
  unfold merge
  induction costs' generalizing costs with
  | nil => simp [valueAt, find]
  | cons kv rest ih =>
    obtain ⟨k', v⟩ := kv
    obtain ⟨hk', hrest⟩ := List.nodup_cons.1 h
    rw [List.foldl_cons, ih hrest, valueAt_addEntry]
    by_cases heq : engine = k'
    · subst heq
      have hzero : valueAt rest engine = 0 := by rw [valueAt, find_eq_none_iff.2 hk']; rfl
      rw [hzero]
      simp [valueAt, find]
    · simp [valueAt, find, heq]

theorem valueAt_of_mem (h : costs.keys.Nodup) {kv : EEngineType × ℚ} (hkv : kv ∈ costs) :
    costs.valueAt kv.1 = kv.2 := by
  rw [valueAt, (find_eq_some_iff h).2 hkv]
  rfl

theorem nonneg_addEntry (h : ∀ kv ∈ costs, 0 ≤ kv.2) (hval : 0 ≤ val) :
    ∀ kv ∈ addEntry key val costs, 0 ≤ kv.2 := by
  induction costs with
  | nil => simpa [addEntry] using hval
  | cons kv rest ih =>
    obtain ⟨k', v⟩ := kv
    have hv : 0 ≤ v := h (k', v) (by simp)
    have hrest : ∀ kv ∈ rest, 0 ≤ kv.2 := fun kv hkv => h kv (by simp [hkv])
    rw [addEntry]
    split
    · intro kv hkv
      rcases List.mem_cons.1 hkv with rfl | hkv
      · exact add_nonneg hv hval
      · exact hrest kv hkv
    · intro kv hkv
      rcases List.mem_cons.1 hkv with rfl | hkv
      · exact hv
      · exact ih hrest kv hkv

theorem nonneg_merge (h : ∀ kv ∈ costs, 0 ≤ kv.2) (h' : ∀ kv ∈ costs', 0 ≤ kv.2) :
    ∀ kv ∈ costs.merge costs', 0 ≤ kv.2 := by
  unfold merge
  induction costs' generalizing costs with
  | nil => exact h
  | cons kv rest ih =>
    exact ih (nonneg_addEntry h (h' kv (by simp))) fun kv hkv => h' kv (by simp [hkv])

/-! ## The derived number -/

theorem foldl_add_eq (costs : EngineCostMap) (acc : ℚ) :
    costs.foldl (fun sumCost kv => sumCost + kv.2) acc = acc + costs.total := by
  induction costs generalizing acc with
  | nil => simp [total]
  | cons kv rest ih =>
    rw [List.foldl_cons, ih]
    simp only [total, List.map_cons, List.sum_cons]
    ring

@[simp] theorem deriveCostFromMap_sum : deriveCostFromMap false costs = costs.total := by
  simp [deriveCostFromMap, foldl_add_eq]

theorem foldl_max_le_iff (costs : EngineCostMap) (acc bound : ℚ) :
    costs.foldl (fun maxCost kv => if kv.2 > maxCost then kv.2 else maxCost) acc ≤ bound ↔
      acc ≤ bound ∧ ∀ kv ∈ costs, kv.2 ≤ bound := by
  induction costs generalizing acc with
  | nil => simp
  | cons kv rest ih =>
    rw [List.foldl_cons, ih]
    simp only [List.forall_mem_cons]
    split
    · next hgt => exact ⟨fun ⟨h, hr⟩ => ⟨by linarith, h, hr⟩, fun ⟨_, h, hr⟩ => ⟨h, hr⟩⟩
    · next hle => exact ⟨fun ⟨h, hr⟩ => ⟨h, by linarith, hr⟩, fun ⟨h, _, hr⟩ => ⟨h, hr⟩⟩

/-- The largest entry, at least 0. -/
theorem deriveCostFromMap_max_le {bound : ℚ} :
    deriveCostFromMap true costs ≤ bound ↔ 0 ≤ bound ∧ ∀ kv ∈ costs, kv.2 ≤ bound := by
  simp [deriveCostFromMap, foldl_max_le_iff]

theorem valueAt_le_max (h : costs.keys.Nodup) (engine : EEngineType) :
    costs.valueAt engine ≤ deriveCostFromMap true costs := by
  obtain ⟨hzero, hle⟩ := deriveCostFromMap_max_le.1 (le_refl (deriveCostFromMap true costs))
  unfold valueAt
  cases hl : costs.find engine with
  | none => exact hzero
  | some v => exact hle (engine, v) ((find_eq_some_iff h).1 hl)

/-- The largest entry of a sum is at most the sum of the largest entries. -/
theorem deriveCostFromMap_max_merge (h : costs.keys.Nodup) (h' : costs'.keys.Nodup) :
    deriveCostFromMap true (costs.merge costs') ≤
      deriveCostFromMap true costs + deriveCostFromMap true costs' := by
  obtain ⟨hzero, -⟩ := deriveCostFromMap_max_le.1 (le_refl (deriveCostFromMap true costs))
  obtain ⟨hzero', -⟩ := deriveCostFromMap_max_le.1 (le_refl (deriveCostFromMap true costs'))
  refine deriveCostFromMap_max_le.2 ⟨by linarith, fun kv hkv => ?_⟩
  rw [← valueAt_of_mem (nodup_merge h) hkv, valueAt_merge h']
  have hfst := valueAt_le_max h kv.1
  have hsnd := valueAt_le_max h' kv.1
  linarith

theorem deriveCostFromMap_max_le_total (h : ∀ kv ∈ costs, 0 ≤ kv.2) :
    deriveCostFromMap true costs ≤ costs.total := by
  have hnn : ∀ x ∈ costs.map Prod.snd, (0 : ℚ) ≤ x := by simpa using fun v k hkv => h (k, v) hkv
  refine deriveCostFromMap_max_le.2 ⟨List.sum_nonneg hnn, fun kv hkv => ?_⟩
  exact List.single_le_sum hnn kv.2 (List.mem_map_of_mem hkv)

/-- The engines with an entry that is not 0. -/
def engines (costs : EngineCostMap) : ℕ := (costs.filter (·.2 ≠ 0)).length

theorem total_le_engines_mul (costs : EngineCostMap) :
    costs.total ≤ costs.engines * deriveCostFromMap true costs := by
  obtain ⟨hzero, hle⟩ := deriveCostFromMap_max_le.1 (le_refl (deriveCostFromMap true costs))
  generalize deriveCostFromMap true costs = bound at hzero hle
  induction costs with
  | nil => simp [total, engines]
  | cons kv rest ih =>
    have ih := ih fun kv hkv => hle kv (by simp [hkv])
    have hkv : kv.2 ≤ bound := hle kv (by simp)
    simp only [total, List.map_cons, List.sum_cons, engines, List.filter_cons] at ih ⊢
    split
    · rw [List.length_cons]
      push_cast
      linarith
    · next hkv0 =>
      have : kv.2 = 0 := by simpa using hkv0
      linarith

end EngineCostMap

/-! ## Costs -/

structure CCost where
  dCost : ℚ
  engineCostMap : EngineCostMap
  nodup : engineCostMap.keys.Nodup
  deriving DecidableEq

namespace CCost

open EngineCostMap

/-- `CCost(CDouble, EEngineType)` (CCost.h:78). -/
def ofEngine (d : ℚ) (t : EEngineType) : CCost := ⟨d, [(t, d)], by simp [keys]⟩

/-- `CCost(DOUBLE)` (CCost.h:66). -/
def ofDouble (d : ℚ) : CCost := ofEngine d eetAny

/-- `CCost(std::map&)` (CCost.h:116). -/
def ofMap (useMaxCosting : Bool) (costs : EngineCostMap) (h : costs.keys.Nodup) : CCost :=
  ⟨deriveCostFromMap useMaxCosting costs, costs, h⟩

/-- `CostSum` (CCost.h:134). -/
def costSum (c : CCost) : ℚ := c.engineCostMap.foldl (fun cost kv => cost + kv.2) 0

/-- `operator+` (CCost.h:156). -/
def add (useMaxCosting : Bool) (c c' : CCost) : CCost :=
  ofMap useMaxCosting (c.engineCostMap.merge c'.engineCostMap) (nodup_merge c.nodup)

/-- The loop of `operator<` (CCost.h:207): every key is on the right and no smaller there. -/
def ltLoop (rhs : EngineCostMap) : EngineCostMap → Bool → Bool
  | [], t => t
  | (key, lhsVal) :: rest, t =>
    match rhs.find key with
    | none => false
    | some rhsVal =>
      if lhsVal < rhsVal then ltLoop rhs rest true
      else if lhsVal ≤ rhsVal then ltLoop rhs rest t
      else false

/-- `operator<` (CCost.h:204). -/
def lt (useMaxCosting : Bool) (c c' : CCost) : Bool :=
  if useMaxCosting then ltLoop c'.engineCostMap c.engineCostMap false
  else c.dCost < c'.dCost

/-- `operator>` (CCost.h:274). -/
def gt (useMaxCosting : Bool) (c c' : CCost) : Bool := lt useMaxCosting c' c

/-- `operator==` (CCost.h:302). -/
def eq (useMaxCosting : Bool) (c c' : CCost) : Bool :=
  if useMaxCosting then
    c.engineCostMap.all fun kv => c'.engineCostMap.find kv.1 = some kv.2
  else c.dCost = c'.dCost

/-- `GPOPT_INVALID_COST` (CCostContext.h:26). -/
def invalidCost : CCost := ofDouble (-1 / 2)

/-- `GPOPT_INFINITE_COST` (CCostContext.h:23). -/
def infiniteCost : CCost := ofDouble (10 ^ 100)

/-- A cost as the cost functions build it: no entry is negative, and the number is derived from
    the entries. -/
structure Proper (useMaxCosting : Bool) (c : CCost) : Prop where
  nonneg : ∀ kv ∈ c.engineCostMap, 0 ≤ kv.2
  derived : c.dCost = deriveCostFromMap useMaxCosting c.engineCostMap

variable {useMaxCosting : Bool} {c c' : CCost}

theorem add_engineCostMap (useMaxCosting : Bool) (c c' : CCost) :
    (c.add useMaxCosting c').engineCostMap = c.engineCostMap.merge c'.engineCostMap := rfl

@[simp] theorem costSum_eq (c : CCost) : c.costSum = c.engineCostMap.total := by
  simp [costSum, foldl_add_eq]

theorem ofEngine_proper {d : ℚ} (h : 0 ≤ d) (t : EEngineType) :
    (ofEngine d t).Proper useMaxCosting := by
  refine ⟨by simpa [ofEngine] using h, ?_⟩
  cases useMaxCosting
  · simp [ofEngine, deriveCostFromMap]
  · simp only [ofEngine, deriveCostFromMap, if_true, List.foldl_cons, List.foldl_nil]
    split <;> linarith

theorem ofDouble_proper {d : ℚ} (h : 0 ≤ d) : (ofDouble d).Proper useMaxCosting :=
  ofEngine_proper h _

theorem add_proper (h : c.Proper useMaxCosting) (h' : c'.Proper useMaxCosting) :
    (c.add useMaxCosting c').Proper useMaxCosting :=
  ⟨nonneg_merge h.nonneg h'.nonneg, rfl⟩

theorem Proper.dCost_nonneg (h : c.Proper useMaxCosting) : 0 ≤ c.dCost := by
  rw [h.derived]
  cases useMaxCosting
  · rw [deriveCostFromMap_sum]
    exact List.sum_nonneg (by simpa using fun v k hkv => h.nonneg (k, v) hkv)
  · exact (deriveCostFromMap_max_le.1 le_rfl).1

/-- A proper cost is not the invalid one. -/
theorem Proper.eq_invalidCost (h : c.Proper useMaxCosting) :
    eq useMaxCosting invalidCost c = false := by
  cases useMaxCosting
  · have := h.dCost_nonneg
    have hne : (-1 / 2 : ℚ) ≠ c.dCost := by
      intro heq
      linarith
    exact decide_eq_false hne
  · simp only [eq, if_true, invalidCost, ofDouble, ofEngine, List.all_cons, List.all_nil,
      Bool.and_true, decide_eq_false_iff_not]
    intro hfind
    have := h.nonneg _ ((find_eq_some_iff c.nodup).1 hfind)
    norm_num at this

/-- A proper cost that behaves like a number: in the sum mode every cost does, in the maximum mode
    one that is not tagged with an engine. -/
structure Plain (useMaxCosting : Bool) (c : CCost) : Prop extends c.Proper useMaxCosting where
  untagged : useMaxCosting = true → c.engineCostMap.keys = [eetAny]

theorem Plain.eq_singleton (h : c.Plain true) : c.engineCostMap = [(eetAny, c.dCost)] := by
  obtain ⟨⟨hnonneg, hderived⟩, huntagged⟩ := h
  obtain ⟨d, m, hm⟩ := c
  simp only at hnonneg hderived huntagged ⊢
  have hkeys : keys m = [eetAny] := by simpa using huntagged
  match m, hkeys with
  | [(k, v)], hk =>
    obtain rfl : k = eetAny := by simpa [keys] using hk
    have hv : 0 ≤ v := hnonneg (eetAny, v) (by simp)
    have : d = v := by
      rw [hderived]
      simp only [deriveCostFromMap, if_true, List.foldl_cons, List.foldl_nil]
      split <;> linarith
    rw [this]

theorem Proper.plain (h : c.Proper false) : c.Plain false := ⟨h, fun hmode => by cases hmode⟩

theorem ofDouble_plain {d : ℚ} (h : 0 ≤ d) : (ofDouble d).Plain useMaxCosting :=
  ⟨ofDouble_proper h, fun _ => rfl⟩

theorem add_plain (h : c.Plain useMaxCosting) (h' : c'.Plain useMaxCosting) :
    (c.add useMaxCosting c').Plain useMaxCosting := by
  refine ⟨add_proper h.toProper h'.toProper, fun hmode => ?_⟩
  subst hmode
  rw [add_engineCostMap, h.eq_singleton, h'.eq_singleton]
  simp [merge, addEntry, keys]

/-- Plain costs add up. -/
theorem dCost_add_plain (h : c.Plain useMaxCosting) (h' : c'.Plain useMaxCosting) :
    (c.add useMaxCosting c').dCost = c.dCost + c'.dCost := by
  have hsum := (add_plain h h').derived
  cases useMaxCosting
  · simp [add, ofMap, h.derived, h'.derived, total_merge]
  · have hc := h.toProper.dCost_nonneg
    have hc' := h'.toProper.dCost_nonneg
    rw [hsum, add_engineCostMap, h.eq_singleton, h'.eq_singleton]
    simp only [merge, List.foldl_cons, List.foldl_nil, addEntry, if_true, deriveCostFromMap]
    split <;> linarith

/-- Plain costs are compared by their numbers. -/
theorem lt_iff_plain (h : c.Plain useMaxCosting) (h' : c'.Plain useMaxCosting) :
    lt useMaxCosting c c' = true ↔ c.dCost < c'.dCost := by
  cases useMaxCosting
  · simp [lt]
  · rw [lt, if_pos rfl, h.eq_singleton, h'.eq_singleton]
    simp only [ltLoop, EngineCostMap.find, if_true]
    split
    · simpa [ltLoop] using ‹_›
    · next hge => simpa [ltLoop] using hge

@[simp] theorem costSum_add : (c.add useMaxCosting c').costSum = c.costSum + c'.costSum := by
  simp [add, ofMap, total_merge]

/-- In the maximum mode a sum costs at most as much as its parts together. -/
theorem dCost_add_max (h : c.Proper true) (h' : c'.Proper true) :
    (c.add true c').dCost ≤ c.dCost + c'.dCost := by
  rw [h.derived, h'.derived]
  exact deriveCostFromMap_max_merge c.nodup c'.nodup

theorem Proper.dCost_le_costSum (h : c.Proper useMaxCosting) : c.dCost ≤ c.costSum := by
  rw [h.derived, costSum_eq]
  cases useMaxCosting
  · rw [deriveCostFromMap_sum]
  · exact deriveCostFromMap_max_le_total h.nonneg

theorem Proper.costSum_le (h : c.Proper true) :
    c.costSum ≤ c.engineCostMap.engines * c.dCost := by
  rw [h.derived, costSum_eq]
  exact total_le_engines_mul _

end CCost

/-! ## Children (BOSSCostModel.cpp) -/

namespace BOSSCostModel

open CCost

/-- `CostChildrenWithEngine` (BOSSCostModel.cpp:307). -/
def costChildren (useMaxCosting : Bool) (pdCost : List CCost) : CCost :=
  pdCost.foldl (add useMaxCosting) (ofDouble 0)

/-- `CostMaxChild` (BOSSCostModel.cpp:409). -/
def costMaxChild (useMaxCosting : Bool) (pdCost : List CCost) : CCost :=
  pdCost.foldl (fun res c => if gt useMaxCosting c res then c else res) (ofDouble 0)

variable {useMaxCosting : Bool} {pdCost : List CCost}

theorem foldl_add_proper {acc : CCost} (hacc : acc.Proper useMaxCosting)
    (h : ∀ c ∈ pdCost, c.Proper useMaxCosting) :
    (pdCost.foldl (add useMaxCosting) acc).Proper useMaxCosting := by
  induction pdCost generalizing acc with
  | nil => exact hacc
  | cons c pdCost ih =>
    exact ih (add_proper hacc (h c (by simp))) fun c' hc' => h c' (by simp [hc'])

theorem costChildren_proper (h : ∀ c ∈ pdCost, c.Proper useMaxCosting) :
    (costChildren useMaxCosting pdCost).Proper useMaxCosting :=
  foldl_add_proper (ofDouble_proper le_rfl) h

theorem costMaxChild_proper (h : ∀ c ∈ pdCost, c.Proper useMaxCosting) :
    (costMaxChild useMaxCosting pdCost).Proper useMaxCosting := by
  have key : ∀ (l : List CCost) (acc : CCost), acc.Proper useMaxCosting →
      (∀ c ∈ l, c.Proper useMaxCosting) → (l.foldl (fun res c =>
        if gt useMaxCosting c res then c else res) acc).Proper useMaxCosting := by
    intro l
    induction l with
    | nil => exact fun _ hacc _ => hacc
    | cons c l ih =>
      intro acc hacc hl
      refine ih _ ?_ fun c' hc' => hl c' (by simp [hc'])
      beta_reduce
      split
      · exact hl c (by simp)
      · exact hacc
  exact key _ _ (ofDouble_proper le_rfl) h

theorem costChildren_plain (h : ∀ c ∈ pdCost, c.Plain useMaxCosting) :
    (costChildren useMaxCosting pdCost).Plain useMaxCosting ∧
      (costChildren useMaxCosting pdCost).dCost = (pdCost.map CCost.dCost).sum := by
  have key : ∀ (l : List CCost) (acc : CCost), acc.Plain useMaxCosting →
      (∀ c ∈ l, c.Plain useMaxCosting) → (l.foldl (add useMaxCosting) acc).Plain useMaxCosting ∧
        (l.foldl (add useMaxCosting) acc).dCost = acc.dCost + (l.map CCost.dCost).sum := by
    intro l
    induction l with
    | nil => exact fun acc hacc _ => ⟨hacc, by simp⟩
    | cons c l ih =>
      intro acc hacc hl
      have hc := hl c (by simp)
      obtain ⟨hplain, hcost⟩ := ih _ (add_plain hacc hc) fun c' hc' => hl c' (by simp [hc'])
      refine ⟨hplain, ?_⟩
      rw [List.foldl_cons, hcost, dCost_add_plain hacc hc, List.map_cons, List.sum_cons]
      ring
  obtain ⟨hplain, hcost⟩ := key pdCost _ (ofDouble_plain le_rfl) h
  exact ⟨hplain, hcost.trans (by simp [ofDouble, ofEngine])⟩

theorem costSum_costChildren :
    (costChildren useMaxCosting pdCost).costSum = (pdCost.map CCost.costSum).sum := by
  have key : ∀ (l : List CCost) (acc : CCost), (l.foldl (add useMaxCosting) acc).costSum =
      acc.costSum + (l.map CCost.costSum).sum := by
    intro l
    induction l with
    | nil => simp
    | cons c l ih =>
      intro acc
      rw [List.foldl_cons, ih, costSum_add, List.map_cons, List.sum_cons]
      ring
  rw [costChildren, key]
  simp [ofDouble, ofEngine, EngineCostMap.total]

/-- In the maximum mode the children cost at most their sum. -/
theorem dCost_costChildren_max (h : ∀ c ∈ pdCost, c.Proper true) :
    (costChildren true pdCost).dCost ≤ (pdCost.map CCost.dCost).sum := by
  have key : ∀ (l : List CCost) (acc : CCost), acc.Proper true → (∀ c ∈ l, c.Proper true) →
      (l.foldl (add true) acc).dCost ≤ acc.dCost + (l.map CCost.dCost).sum := by
    intro l
    induction l with
    | nil => simp
    | cons c l ih =>
      intro acc hacc hl
      have hc := hl c (by simp)
      have hrest := ih _ (add_proper hacc hc) fun c' hc' => hl c' (by simp [hc'])
      have hadd := dCost_add_max hacc hc
      rw [List.foldl_cons, List.map_cons, List.sum_cons]
      linarith
  refine (key _ _ (ofDouble_proper le_rfl) h).trans ?_
  simp [ofDouble, ofEngine]

/-- Among plain costs the most expensive child wins. -/
theorem costMaxChild_plain (h : ∀ c ∈ pdCost, c.Plain useMaxCosting) :
    (costMaxChild useMaxCosting pdCost).Plain useMaxCosting ∧ ∀ bound,
      (costMaxChild useMaxCosting pdCost).dCost ≤ bound ↔
        0 ≤ bound ∧ ∀ c ∈ pdCost, c.dCost ≤ bound := by
  have key : ∀ (l : List CCost) (acc : CCost), acc.Plain useMaxCosting →
      (∀ c ∈ l, c.Plain useMaxCosting) →
      (l.foldl (fun res c => if gt useMaxCosting c res then c else res) acc).Plain useMaxCosting ∧
        ∀ bound, (l.foldl (fun res c =>
          if gt useMaxCosting c res then c else res) acc).dCost ≤ bound ↔
            acc.dCost ≤ bound ∧ ∀ c ∈ l, c.dCost ≤ bound := by
    intro l
    induction l with
    | nil => exact fun acc hacc _ => ⟨hacc, by simp⟩
    | cons c l ih =>
      intro acc hacc hl
      have hc := hl c (by simp)
      have hrest := fun c' (hc' : c' ∈ l) => hl c' (by simp [hc'])
      have hgt : gt useMaxCosting c acc = true ↔ acc.dCost < c.dCost := lt_iff_plain hacc hc
      rw [List.foldl_cons]
      simp only [hgt, List.forall_mem_cons]
      split
      · obtain ⟨hplain, hcost⟩ := ih c hc hrest
        refine ⟨hplain, fun bound => (hcost bound).trans ?_⟩
        exact ⟨fun ⟨hc, hl⟩ => ⟨by linarith, hc, hl⟩, fun ⟨_, hc, hl⟩ => ⟨hc, hl⟩⟩
      · obtain ⟨hplain, hcost⟩ := ih acc hacc hrest
        refine ⟨hplain, fun bound => (hcost bound).trans ?_⟩
        exact ⟨fun ⟨hacc, hl⟩ => ⟨hacc, by linarith, hl⟩, fun ⟨hacc, _, hl⟩ => ⟨hacc, hl⟩⟩
  exact key pdCost _ (ofDouble_plain le_rfl) h

end BOSSCostModel

end BossOptimizer

import BossOptimizer.Common.Hash
import BossOptimizer.Lib.Bits
import Mathlib

/-!
# Bit vectors: `CBitVector`

A vector of a fixed number of bits in 64-bit units (`CBitVector.cpp`). The units beyond the last
bit are never touched, which the structure carries as `tight`: equality compares whole units.
-/

namespace BossOptimizer

/-- Units for a number of bits (CBitVector.cpp:52-56). -/
def unitsFor (nbits : ℕ) : ℕ := if nbits / 64 * 64 < nbits then nbits / 64 + 1 else nbits / 64

theorem lt_unitsFor {nbits pos : ℕ} (h : pos < nbits) : pos / 64 < unitsFor nbits := by
  unfold unitsFor
  split <;> omega

theorem unitsFor_le {nbits i : ℕ} (h : unitsFor nbits ≤ i) : nbits ≤ i * 64 := by
  unfold unitsFor at h
  split at h <;> omega

/-- The test of `CBitVector::Get` (CBitVector.cpp:117-125). -/
def testUnits (units : List (BitVec 64)) (pos : ℕ) : Bool :=
  (units.getD (pos / 64) 0 &&& (1 : BitVec 64) <<< (pos % 64)) != 0

theorem testUnits_eq (units : List (BitVec 64)) (pos : ℕ) :
    testUnits units pos = (units.getD (pos / 64) 0).getLsbD (pos % 64) :=
  Bits.and_shiftLeft_one _ (Nat.mod_lt _ (by decide))

/-- Units of the same number are equal when all their bits are. -/
theorem eq_of_testUnits {us vs : List (BitVec 64)} (hlen : us.length = vs.length)
    (h : ∀ pos, testUnits us pos = testUnits vs pos) : us = vs := by
  apply List.ext_getElem hlen
  intro i hi hi'
  apply BitVec.eq_of_getLsbD_eq
  intro k hk
  have hpos := h (i * 64 + k)
  have hdiv : (i * 64 + k) / 64 = i := by omega
  have hmod : (i * 64 + k) % 64 = k := by omega
  simpa [testUnits_eq, hdiv, hmod, hi, hi'] using hpos

/-- `CBitVector`: the units and the promise that nothing beyond the last bit is set. -/
structure CBitVector (nbits : ℕ) where
  m_vec : List (BitVec 64)
  len_eq : m_vec.length = unitsFor nbits
  tight : ∀ pos, nbits ≤ pos → testUnits m_vec pos = false

namespace CBitVector

variable {n : ℕ}

/-- `CBitVector::CBitVector`: all bits are clear. -/
def new (n : ℕ) : CBitVector n where
  m_vec := List.replicate (unitsFor n) 0
  len_eq := List.length_replicate
  tight pos _ := by
    rw [testUnits_eq, List.getD_eq_getElem?_getD, List.getElem?_replicate]
    split <;> simp

/-- `CBitVector::Get` (CBitVector.cpp:117). -/
def Get (v : CBitVector n) (pos : ℕ) : Bool := testUnits v.m_vec pos

@[simp] theorem Get_new (pos : ℕ) : (new n).Get pos = false := by
  rw [Get, new, testUnits_eq, List.getD_eq_getElem?_getD, List.getElem?_replicate]
  split <;> simp

variable {pos : ℕ}

theorem lt_of_Get {v : CBitVector n} (h : v.Get pos = true) : pos < n := by
  by_contra hpos
  rw [Get, v.tight pos (by omega)] at h
  exact Bool.false_ne_true h

variable {v w : CBitVector n}

theorem ext_Get (h : ∀ pos, v.Get pos = w.Get pos) : v = w := by
  obtain ⟨us, hus, _⟩ := v
  obtain ⟨vs, hvs, _⟩ := w
  obtain rfl : us = vs := eq_of_testUnits (hus.trans hvs.symm) h
  rfl

variable {b : Bool → Bool → Bool}

theorem testUnits_modify {us : List (BitVec 64)} {f : BitVec 64 → BitVec 64}
    (hlen : pos / 64 < us.length)
    (hf : ∀ u : BitVec 64, ∀ k, (f u).getLsbD k = b (decide (k = pos % 64)) (u.getLsbD k))
    (hb : ∀ x, b false x = x) (q : ℕ) :
    testUnits (us.modify (pos / 64) f) q = b (decide (q = pos)) (testUnits us q) := by
  simp only [testUnits_eq, List.getD_eq_getElem?_getD, List.getElem?_modify]
  by_cases hdiv : pos / 64 = q / 64
  · have hiff : (q % 64 = pos % 64) ↔ q = pos := by omega
    rw [← hdiv, List.getElem?_eq_getElem hlen]
    simp [hf, hiff]
  · have hne : q ≠ pos := by rintro rfl; exact hdiv rfl
    simp [hdiv, hne, hb]

theorem testUnits_set {us : List (BitVec 64)} (hlen : pos / 64 < us.length) (q : ℕ) :
    testUnits (us.modify (pos / 64) (· ||| (1 : BitVec 64) <<< (pos % 64))) q =
      (decide (q = pos) || testUnits us q) :=
  testUnits_modify hlen (fun u _ => Bits.getLsbD_set u (Nat.mod_lt _ (by decide)))
    Bool.false_or q

theorem testUnits_clear {us : List (BitVec 64)} (hlen : pos / 64 < us.length) (q : ℕ) :
    testUnits (us.modify (pos / 64) (· &&& ~~~((1 : BitVec 64) <<< (pos % 64)))) q =
      (!decide (q = pos) && testUnits us q) :=
  testUnits_modify (b := fun x y => !x && y) hlen
    (fun u _ => Bits.getLsbD_clear u (Nat.mod_lt _ (by decide))) (fun _ => rfl) q

/-- `CBitVector::ExchangeSet` (CBitVector.cpp:137), the vector it leaves behind. -/
def ExchangeSet (v : CBitVector n) (pos : ℕ) (hpos : pos < n) : CBitVector n where
  m_vec := v.m_vec.modify (pos / 64) (· ||| (1 : BitVec 64) <<< (pos % 64))
  len_eq := by rw [List.length_modify, v.len_eq]
  tight q hq := by
    rw [testUnits_set (v.len_eq ▸ lt_unitsFor hpos), v.tight q hq]
    simp
    omega

/-- `CBitVector::ExchangeClear` (CBitVector.cpp:167), the vector it leaves behind. -/
def ExchangeClear (v : CBitVector n) (pos : ℕ) (hpos : pos < n) : CBitVector n where
  m_vec := v.m_vec.modify (pos / 64) (· &&& ~~~((1 : BitVec 64) <<< (pos % 64)))
  len_eq := by rw [List.length_modify, v.len_eq]
  tight q hq := by rw [testUnits_clear (v.len_eq ▸ lt_unitsFor hpos), v.tight q hq, Bool.and_false]

@[simp] theorem Get_ExchangeSet (v : CBitVector n) (hpos : pos < n) (q : ℕ) :
    (v.ExchangeSet pos hpos).Get q = (decide (q = pos) || v.Get q) :=
  testUnits_set (v.len_eq ▸ lt_unitsFor hpos) q

@[simp] theorem Get_ExchangeClear (v : CBitVector n) (hpos : pos < n) (q : ℕ) :
    (v.ExchangeClear pos hpos).Get q = (!decide (q = pos) && v.Get q) :=
  testUnits_clear (v.len_eq ▸ lt_unitsFor hpos) q

theorem testUnits_zipWith {f : BitVec 64 → BitVec 64 → BitVec 64}
    (hf : ∀ u w : BitVec 64, ∀ k, (f u w).getLsbD k = b (u.getLsbD k) (w.getLsbD k))
    (hb : b false false = false) {us ws : List (BitVec 64)} (hlen : us.length = ws.length)
    (q : ℕ) : testUnits (List.zipWith f us ws) q = b (testUnits us q) (testUnits ws q) := by
  simp only [testUnits_eq, List.getD_eq_getElem?_getD, List.getElem?_zipWith]
  by_cases hq : q / 64 < us.length
  · simp [hq, hlen ▸ hq, hf]
  · have hq' : ¬ q / 64 < ws.length := hlen ▸ hq
    simp [hq, hq', hb]

/-- `CBitVector::Or` (CBitVector.cpp:197). -/
def Or (v w : CBitVector n) : CBitVector n where
  m_vec := List.zipWith (· ||| ·) v.m_vec w.m_vec
  len_eq := by rw [List.length_zipWith, v.len_eq, w.len_eq, min_self]
  tight q hq := by
    rw [testUnits_zipWith (b := fun x y => x || y) (fun _ _ _ => BitVec.getLsbD_or) rfl
      (v.len_eq.trans w.len_eq.symm), v.tight q hq, w.tight q hq, Bool.or_false]

/-- `CBitVector::And` (CBitVector.cpp:219). -/
def And (v w : CBitVector n) : CBitVector n where
  m_vec := List.zipWith (· &&& ·) v.m_vec w.m_vec
  len_eq := by rw [List.length_zipWith, v.len_eq, w.len_eq, min_self]
  tight q hq := by
    rw [testUnits_zipWith (b := fun x y => x && y) (fun _ _ _ => BitVec.getLsbD_and) rfl
      (v.len_eq.trans w.len_eq.symm), v.tight q hq, w.tight q hq, Bool.and_false]

@[simp] theorem Get_Or (v w : CBitVector n) (q : ℕ) : (v.Or w).Get q = (v.Get q || w.Get q) :=
  testUnits_zipWith (b := fun x y => x || y) (fun _ _ _ => BitVec.getLsbD_or) rfl
    (v.len_eq.trans w.len_eq.symm) q

@[simp] theorem Get_And (v w : CBitVector n) (q : ℕ) : (v.And w).Get q = (v.Get q && w.Get q) :=
  testUnits_zipWith (b := fun x y => x && y) (fun _ _ _ => BitVec.getLsbD_and) rfl
    (v.len_eq.trans w.len_eq.symm) q

/-- `CBitVector::ContainsAll` (CBitVector.cpp:241). -/
def ContainsAll (v w : CBitVector n) : Bool :=
  (List.zipWith (fun a b => a &&& b == b) v.m_vec w.m_vec).all id

/-- `CBitVector::IsDisjoint` (CBitVector.cpp:268). -/
def IsDisjoint (v w : CBitVector n) : Bool :=
  (List.zipWith (fun a b => a &&& b == 0) v.m_vec w.m_vec).all id

/-- `CBitVector::Equals` (CBitVector.cpp:293): the units are compared. -/
def Equals (v w : CBitVector n) : Bool := v.m_vec == w.m_vec

/-- `CBitVector::IsEmpty` (CBitVector.cpp:319). -/
def IsEmpty (v : CBitVector n) : Bool := v.m_vec.all fun u => u == 0

theorem forall_units {us ws : List (BitVec 64)} (hlen : us.length = ws.length)
    {p : BitVec 64 → BitVec 64 → Bool}
    (hp : ∀ u w, p u w = true ↔ ∀ k < 64, b (u.getLsbD k) (w.getLsbD k) = true)
    (hb : b false false = true) :
    (List.zipWith p us ws).all id = true ↔
      ∀ pos, b (testUnits us pos) (testUnits ws pos) = true := by
  rw [List.all_eq_true]
  constructor
  · intro h pos
    simp only [testUnits_eq, List.getD_eq_getElem?_getD]
    by_cases hpos : pos / 64 < us.length
    · have hpos' : pos / 64 < ws.length := hlen ▸ hpos
      have hmem : p us[pos / 64] ws[pos / 64] ∈ List.zipWith p us ws := by
        refine List.mem_iff_getElem.mpr ⟨pos / 64, by simp [hpos, hpos'], ?_⟩
        rw [List.getElem_zipWith]
      have hbits := (hp _ _).mp (h _ hmem) (pos % 64) (Nat.mod_lt _ (by decide))
      simpa [hpos, hpos'] using hbits
    · have hpos' : ¬ pos / 64 < ws.length := hlen ▸ hpos
      simpa [hpos, hpos'] using hb
  · intro h x hx
    obtain ⟨i, hi, rfl⟩ := List.getElem_of_mem hx
    rw [List.length_zipWith] at hi
    have hiu : i < us.length := by omega
    have hiw : i < ws.length := by omega
    rw [List.getElem_zipWith]
    refine (hp _ _).mpr fun k hk => ?_
    have hpos := h (i * 64 + k)
    have hdiv : (i * 64 + k) / 64 = i := by omega
    have hmod : (i * 64 + k) % 64 = k := by omega
    simpa [testUnits_eq, hdiv, hmod, hiu, hiw] using hpos

theorem ContainsAll_iff :
    v.ContainsAll w = true ↔ ∀ pos, w.Get pos = true → v.Get pos = true := by
  rw [ContainsAll, forall_units (v.len_eq.trans w.len_eq.symm) (b := fun x y => !y || x) _ rfl]
  · simp only [Get, Bool.or_eq_true, Bool.not_eq_true', ← Bool.not_eq_true, ← imp_iff_not_or]
  · intro u w
    rw [beq_iff_eq, BitVec.eq_of_getLsbD_eq_iff]
    refine forall_congr' fun k => forall_congr' fun _ => ?_
    rw [BitVec.getLsbD_and]
    cases u.getLsbD k <;> cases w.getLsbD k <;> simp

theorem IsDisjoint_iff :
    v.IsDisjoint w = true ↔ ∀ pos, v.Get pos = true → w.Get pos = false := by
  rw [IsDisjoint, forall_units (v.len_eq.trans w.len_eq.symm) (b := fun x y => !x || !y) _ rfl]
  · simp only [Get, Bool.or_eq_true, Bool.not_eq_true', ← Bool.not_eq_true, ← imp_iff_not_or]
  · intro u w
    rw [beq_iff_eq, BitVec.eq_of_getLsbD_eq_iff]
    refine forall_congr' fun k => forall_congr' fun _ => ?_
    rw [BitVec.getLsbD_and]
    cases u.getLsbD k <;> cases w.getLsbD k <;> simp

theorem Equals_iff : v.Equals w = true ↔ v = w := by
  rw [Equals, beq_iff_eq]
  constructor
  · intro h
    exact ext_Get fun pos => by rw [Get, Get, h]
  · rintro rfl
    rfl

theorem IsEmpty_iff {v : CBitVector n} : v.IsEmpty = true ↔ ∀ pos, v.Get pos = false := by
  have hunits : v.m_vec.all (fun u => u == 0) =
      (List.zipWith (fun a _ => a == 0) v.m_vec v.m_vec).all id := by
    rw [List.zipWith_self, List.all_map]
    rfl
  rw [IsEmpty, hunits, forall_units rfl (b := fun x _ => !x) _ rfl]
  · simp only [Get, Bool.not_eq_true']
  · intro u _
    rw [beq_iff_eq, BitVec.eq_of_getLsbD_eq_iff]
    simp

/-- The loop of `GetNextSetBit`, from the unit `idx` on. -/
def nextSetFrom : List (BitVec 64) → ℕ → ℕ → Option ℕ
  | [], _, _ => none
  | u :: us, idx, offset =>
    if (Bits.skipZeros 64 (u >>> offset) offset).1 ≠ 0 then
      some ((Bits.skipZeros 64 (u >>> offset) offset).2 + idx * 64)
    else nextSetFrom us (idx + 1) 0

/-- `CBitVector::GetNextSetBit` (CBitVector.cpp:341). -/
def GetNextSetBit (v : CBitVector n) (start_pos : ℕ) : Option ℕ :=
  nextSetFrom (v.m_vec.drop (start_pos / 64)) (start_pos / 64) (start_pos % 64)

/-- The first set bit from a position on. -/
def IsNext (get : ℕ → Bool) (start : ℕ) : Option ℕ → Prop
  | none => ∀ q, start ≤ q → get q = false
  | some p => start ≤ p ∧ get p = true ∧ ∀ q, start ≤ q → q < p → get q = false

theorem IsNext.skip {get : ℕ → Bool} {start next : ℕ} {r : Option ℕ} (h : IsNext get next r)
    (hle : start ≤ next) (hskip : ∀ q, start ≤ q → q < next → get q = false) :
    IsNext get start r := by
  have hall : ∀ q, start ≤ q → (next ≤ q → get q = false) → get q = false := by
    intro q hq hnext
    by_cases hlt : q < next
    · exact hskip q hq hlt
    · exact hnext (by omega)
  cases r with
  | none => exact fun q hq => hall q hq (h q)
  | some p =>
    obtain ⟨h1, h2, h3⟩ := h
    exact ⟨by omega, h2, fun q hq hqp => hall q hq fun hn => h3 q hn hqp⟩

theorem nextSetFrom_isNext {units : List (BitVec 64)} :
    ∀ {rest : List (BitVec 64)} {idx offset : ℕ}, rest = units.drop idx → offset < 64 →
      IsNext (testUnits units) (idx * 64 + offset) (nextSetFrom rest idx offset) := by
  intro rest
  induction rest with
  | nil =>
    intro idx offset hrest _ q hq
    have hlen : units.length ≤ q / 64 := by
      have := List.drop_eq_nil_iff.mp hrest.symm
      omega
    rw [testUnits_eq, List.getD_eq_getElem?_getD, List.getElem?_eq_none hlen]
    simp
  | cons u rest ih =>
    intro idx offset hrest hoffset
    have hu : ∀ k < 64, testUnits units (idx * 64 + k) = u.getLsbD k := by
      intro k hk
      have hget : units[idx]? = some u := by
        rw [← List.head?_drop, ← hrest, List.head?_cons]
      have hdiv : (idx * 64 + k) / 64 = idx := by omega
      have hmod : (idx * 64 + k) % 64 = k := by omega
      rw [testUnits_eq, hdiv, hmod, List.getD_eq_getElem?_getD, hget, Option.getD_some]
    have hunit : ∀ q, idx * 64 ≤ q → q < (idx + 1) * 64 →
        testUnits units q = u.getLsbD (q - idx * 64) := by
      intro q hq hlt
      rw [← hu _ (by omega), Nat.add_sub_cancel' hq]
    obtain ⟨hnone, hsome⟩ := Bits.skipZeros_next (u := u) (show 64 ≤ offset + 64 by omega)
    rw [nextSetFrom]
    split
    · next hr =>
      obtain ⟨h1, h2, h3⟩ := hsome hr
      have hlt := BitVec.lt_of_getLsbD h2
      refine ⟨by omega, ?_, fun q hq hqp => ?_⟩
      · rw [Nat.add_comm, hu _ hlt, h2]
      · rw [hunit q (by omega) (by omega)]
        exact h3 _ (by omega) (by omega)
    · next hr =>
      have hdrop : rest = units.drop (idx + 1) := by
        rw [← List.tail_drop, ← hrest, List.tail_cons]
      refine (ih hdrop (by decide)).skip (by omega) fun q hq hlt => ?_
      rw [hunit q (by omega) (by omega)]
      exact hnone (not_not.mp hr) _ (by omega)

theorem GetNextSetBit_isNext (v : CBitVector n) (start : ℕ) :
    IsNext v.Get start (v.GetNextSetBit start) := by
  have h : IsNext (testUnits v.m_vec) (start / 64 * 64 + start % 64) (v.GetNextSetBit start) :=
    nextSetFrom_isNext rfl (Nat.mod_lt start (by decide))
  rwa [Nat.div_add_mod'] at h

/-- `CBitVector::CountSetBits` (CBitVector.cpp:379). -/
def CountSetBits (v : CBitVector n) : ℕ := (v.m_vec.map (Bits.countLoop 64)).sum

/-- `CBitVector::HashValue` (CBitVector.cpp:414). -/
def HashValue (v : CBitVector n) : BitVec 32 := HashByteArray (v.m_vec.flatMap (bytesOf 8))

theorem countUnits (us : List (BitVec 64)) :
    (us.map (Bits.countLoop 64)).sum = Nat.count (testUnits us · = true) (us.length * 64) := by
  induction us with
  | nil => simp
  | cons u us ih =>
    have hlow : (Bits.ones u).card = Nat.count (testUnits (u :: us) · = true) 64 := by
      rw [Nat.count_eq_card_filter_range, Bits.ones]
      refine congrArg _ (Finset.filter_congr fun k hk => ?_)
      have hk64 : k < 64 := Finset.mem_range.mp hk
      simp [testUnits_eq, Nat.div_eq_of_lt hk64, Nat.mod_eq_of_lt hk64]
    have hhigh : ∀ k, testUnits (u :: us) (64 + k) = testUnits us k := by
      intro k
      have hdiv : (64 + k) / 64 = k / 64 + 1 := by omega
      have hmod : (64 + k) % 64 = k % 64 := by omega
      simp [testUnits_eq, hdiv, hmod]
    rw [List.map_cons, List.sum_cons, ih, Bits.countLoop_eq_card (Bits.card_ones_le u), hlow,
      List.length_cons, Nat.succ_mul, Nat.add_comm (us.length * 64), Nat.count_add]
    simp [hhigh]

theorem CountSetBits_eq (v : CBitVector n) : v.CountSetBits = Nat.count (v.Get · = true) n := by
  have hle : n ≤ v.m_vec.length * 64 := unitsFor_le v.len_eq.ge
  obtain ⟨d, hd⟩ := Nat.exists_eq_add_of_le hle
  have hbeyond : Nat.count (fun k => testUnits v.m_vec (n + k) = true) d = 0 := by
    rw [Nat.count_iff_forall_not]
    intro k _ hk
    rw [v.tight _ (Nat.le_add_right n k)] at hk
    exact Bool.false_ne_true hk
  rw [CountSetBits, countUnits, hd, Nat.count_add, hbeyond]
  rfl

end CBitVector

end BossOptimizer

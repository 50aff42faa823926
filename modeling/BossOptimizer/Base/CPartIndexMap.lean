import Mathlib

/-!
# Part index maps: `CPartIndexMap` (CPartIndexMap.cpp)

An entry says of a partitioned table whether its scan is there (a consumer, with the number of
partition propagators that it still expects), a propagator, or both together (a resolver). Maps of
subplans are combined pairwise, entry by entry; a new map counts its consumers as they are inserted.

The map is the list of its entries in the order of their insertion. Part constraints, keys and the
relation of an entry, which are copied along, are left out.
-/

namespace BossOptimizer

/-- `CPartIndexMap::EPartIndexManipulator`. -/
inductive EPartIndexManipulator where
  | propagator
  | consumer
  | resolver
  deriving DecidableEq, Repr

/-- `CPartIndexMap::EPartPropagationRequestAction`. -/
inductive EPartPropagationRequestAction where
  | preservePropagators
  | incrementPropagators
  | zeroPropagators
  deriving DecidableEq, Repr

/-- `gpos::ulong_max`: any number of propagators. -/
def ulong_max : ℕ := 2 ^ 32 - 1

/-- `CPartIndexMap::CPartTableInfo`. -/
structure CPartTableInfo where
  m_scan_id : ℕ
  m_epim : EPartIndexManipulator
  m_ulPropagators : ℕ
  deriving DecidableEq, Repr

/-- `CPartIndexMap`: the entries and the two counters kept beside them. -/
structure CPartIndexMap where
  m_pim : List CPartTableInfo
  m_ulUnresolved : ℕ
  m_ulUnresolvedZeroPropagators : ℕ
  deriving DecidableEq, Repr

namespace CPartIndexMap

def new : CPartIndexMap := ⟨[], 0, 0⟩

/-- `PptiLookup` (CPartIndexMap.cpp:285). -/
def PptiLookup (this : CPartIndexMap) (scan_id : ℕ) : Option CPartTableInfo :=
  this.m_pim.find? (·.m_scan_id = scan_id)

/-- `Insert` (CPartIndexMap.cpp:231); an entry that is there gets part constraints only. -/
def Insert (this : CPartIndexMap) (scan_id : ℕ) (epim : EPartIndexManipulator)
    (ulExpectedPropagators : ℕ) : CPartIndexMap :=
  match this.PptiLookup scan_id with
  | some _ => this
  | none =>
    { m_pim := this.m_pim ++ [⟨scan_id, epim, ulExpectedPropagators⟩]
      m_ulUnresolved := if epim = .consumer then this.m_ulUnresolved + 1 else this.m_ulUnresolved
      m_ulUnresolvedZeroPropagators :=
        if epim = .consumer ∧ ulExpectedPropagators = 0 then this.m_ulUnresolvedZeroPropagators + 1
        else this.m_ulUnresolvedZeroPropagators }

/-- A consumer that expects some propagators meets one (CPartIndexMap.cpp:522). -/
def resolveConsumer (ulExpectedPropagators : ℕ) : EPartIndexManipulator × ℕ :=
  if 0 < ulExpectedPropagators then
    (if ulExpectedPropagators = 1 then .resolver else .consumer, ulExpectedPropagators - 1)
  else (.consumer, ulong_max)

/-- `ResolvePropagator` (CPartIndexMap.cpp:510), whose outputs start from the first entry. -/
def ResolvePropagator (pptiFst pptiSnd : CPartTableInfo) : EPartIndexManipulator × ℕ :=
  match pptiFst.m_epim, pptiSnd.m_epim with
  | .propagator, .consumer => resolveConsumer pptiSnd.m_ulPropagators
  | .consumer, .propagator => resolveConsumer pptiFst.m_ulPropagators
  | epimFst, _ => (epimFst, pptiFst.m_ulPropagators)

/-- One round of `AddUnresolved` (CPartIndexMap.cpp:443). -/
def addUnresolvedEntry (pimSnd ppimResult : CPartIndexMap) (pptiFst : CPartTableInfo) :
    CPartIndexMap :=
  if (ppimResult.PptiLookup pptiFst.m_scan_id).isSome then ppimResult
  else
    let (epimResult, ulPropagatorsResult) :=
      match pimSnd.PptiLookup pptiFst.m_scan_id with
      | some pptiSnd => ResolvePropagator pptiFst pptiSnd
      | none => (pptiFst.m_epim, pptiFst.m_ulPropagators)
    ppimResult.Insert pptiFst.m_scan_id epimResult ulPropagatorsResult

/-- `AddUnresolved` (CPartIndexMap.cpp:434). -/
def AddUnresolved (pimFst pimSnd ppimResult : CPartIndexMap) : CPartIndexMap :=
  pimFst.m_pim.foldl (addUnresolvedEntry pimSnd) ppimResult

/-- `PpimCombine` (CPartIndexMap.cpp:562). -/
def PpimCombine (pimFst pimSnd : CPartIndexMap) : CPartIndexMap :=
  AddUnresolved pimSnd pimFst (AddUnresolved pimFst pimSnd new)

/-- `SetExpectedPropagators` (CPartIndexMap.cpp:383); the counters stay. -/
def SetExpectedPropagators (this : CPartIndexMap) (scan_id ulPropagators : ℕ) : CPartIndexMap :=
  { this with m_pim := this.m_pim.map fun ppti =>
      if ppti.m_scan_id = scan_id then { ppti with m_ulPropagators := ulPropagators } else ppti }

/-- `AddRequiredPartPropagation` (CPartIndexMap.cpp:800), for an entry of the source map. The
increment wraps. -/
def AddRequiredPartPropagation (this : CPartIndexMap) (ppti : CPartTableInfo)
    (eppra : EPartPropagationRequestAction) : CPartIndexMap :=
  let ulExpectedPropagators :=
    match eppra with
    | .preservePropagators => ppti.m_ulPropagators
    | .incrementPropagators => (ppti.m_ulPropagators + 1) % 2 ^ 32
    | .zeroPropagators => 0
  this.Insert ppti.m_scan_id ppti.m_epim ulExpectedPropagators

/-- One round of `PpimPartitionSelector` (CPartIndexMap.cpp:858). -/
def selectEntry (scan_id ulExpectedFromReq : ℕ) (ppimResult : CPartIndexMap)
    (ppti : CPartTableInfo) : CPartIndexMap :=
  if ppti.m_scan_id = scan_id then
    if ulExpectedFromReq = 0 then ppimResult.Insert ppti.m_scan_id .resolver 0
    else ppimResult.Insert ppti.m_scan_id .consumer ulExpectedFromReq
  else ppimResult.Insert ppti.m_scan_id ppti.m_epim ppti.m_ulPropagators

/-- `PpimPartitionSelector` (CPartIndexMap.cpp:850). -/
def PpimPartitionSelector (this : CPartIndexMap) (scan_id ulExpectedFromReq : ℕ) : CPartIndexMap :=
  this.m_pim.foldl (selectEntry scan_id ulExpectedFromReq) new

/-! ## Entries of a combined map -/

theorem pptiLookup_insert (this : CPartIndexMap) (i : ℕ) (epim : EPartIndexManipulator)
    (ul scan_id : ℕ) : (this.Insert i epim ul).PptiLookup scan_id =
      (this.PptiLookup scan_id).or (if i = scan_id then some ⟨i, epim, ul⟩ else none) := by
  rw [Insert]
  cases hlookup : this.PptiLookup i with
  | some ppti =>
    dsimp only
    split
    · next heq => rw [← heq, hlookup]; rfl
    · rw [Option.or_none]
  | none =>
    rw [PptiLookup, List.find?_append]
    by_cases heq : i = scan_id <;> simp [heq, PptiLookup]

/-- What `AddUnresolved` makes of an entry, with the entry of the other map. -/
def resolvedWith (pptiSnd : Option CPartTableInfo) (pptiFst : CPartTableInfo) : CPartTableInfo :=
  let result :=
    match pptiSnd with
    | some pptiSnd => ResolvePropagator pptiFst pptiSnd
    | none => (pptiFst.m_epim, pptiFst.m_ulPropagators)
  ⟨pptiFst.m_scan_id, result.1, result.2⟩

theorem pptiLookup_addUnresolvedEntry (pimSnd ppimResult : CPartIndexMap)
    (pptiFst : CPartTableInfo) (scan_id : ℕ) :
    (addUnresolvedEntry pimSnd ppimResult pptiFst).PptiLookup scan_id =
      (ppimResult.PptiLookup scan_id).or
        (if pptiFst.m_scan_id = scan_id then some (resolvedWith (pimSnd.PptiLookup scan_id) pptiFst)
        else none) := by
  rw [addUnresolvedEntry]
  split
  · next hin =>
    split
    · next heq =>
      rw [heq] at hin
      obtain ⟨ppti, hppti⟩ := Option.isSome_iff_exists.1 hin
      rw [hppti]
      rfl
    · rw [Option.or_none]
  · dsimp only
    rw [pptiLookup_insert]
    by_cases heq : pptiFst.m_scan_id = scan_id
    · rw [if_pos heq, if_pos heq, heq]
      cases pimSnd.PptiLookup scan_id <;> simp [resolvedWith, heq]
    · rw [if_neg heq, if_neg heq]

theorem pptiLookup_addUnresolved (pimFst pimSnd ppimResult : CPartIndexMap) (scan_id : ℕ) :
    (AddUnresolved pimFst pimSnd ppimResult).PptiLookup scan_id =
      (ppimResult.PptiLookup scan_id).or
        ((pimFst.PptiLookup scan_id).map (resolvedWith (pimSnd.PptiLookup scan_id))) := by
  rw [AddUnresolved, PptiLookup.eq_def pimFst]
  generalize pimFst.m_pim = entries
  induction entries generalizing ppimResult with
  | nil => simp
  | cons ppti entries ih =>
    rw [List.foldl_cons, ih, pptiLookup_addUnresolvedEntry]
    by_cases heq : ppti.m_scan_id = scan_id
    · cases ppimResult.PptiLookup scan_id <;> simp [heq]
    · simp [heq]

/-- The entry of a combined map. -/
theorem pptiLookup_ppimCombine (pimFst pimSnd : CPartIndexMap) (scan_id : ℕ) :
    (PpimCombine pimFst pimSnd).PptiLookup scan_id =
      match pimFst.PptiLookup scan_id, pimSnd.PptiLookup scan_id with
      | some pptiFst, pptiSnd => some (resolvedWith pptiSnd pptiFst)
      | none, pptiSnd => pptiSnd := by
  rw [PpimCombine, pptiLookup_addUnresolved, pptiLookup_addUnresolved]
  cases pimFst.PptiLookup scan_id <;> cases pimSnd.PptiLookup scan_id <;> rfl

/-! ## The counters -/

/-- The counters count the consumers and those that expect no propagator. -/
structure CountersOk (this : CPartIndexMap) : Prop where
  unresolved : this.m_ulUnresolved = this.m_pim.countP (·.m_epim = .consumer)
  zero : this.m_ulUnresolvedZeroPropagators =
    this.m_pim.countP fun ppti => ppti.m_epim = .consumer ∧ ppti.m_ulPropagators = 0

theorem countersOk_new : new.CountersOk := ⟨rfl, rfl⟩

theorem CountersOk.insert {this : CPartIndexMap} (h : this.CountersOk) (scan_id : ℕ)
    (epim : EPartIndexManipulator) (ul : ℕ) : (this.Insert scan_id epim ul).CountersOk := by
  rw [Insert]
  split
  · exact h
  · constructor
    · simp only [List.countP_append, List.countP_singleton, ← h.unresolved, decide_eq_true_eq]
      split <;> rfl
    · simp only [List.countP_append, List.countP_singleton, ← h.zero, decide_eq_true_eq]
      split <;> rfl

theorem CountersOk.addUnresolved {pimFst pimSnd ppimResult : CPartIndexMap}
    (h : ppimResult.CountersOk) : (AddUnresolved pimFst pimSnd ppimResult).CountersOk := by
  rw [AddUnresolved]
  generalize pimFst.m_pim = entries
  induction entries generalizing ppimResult with
  | nil => exact h
  | cons ppti entries ih =>
    refine ih ?_
    rw [addUnresolvedEntry]
    split
    · exact h
    · exact h.insert _ _ _

/-- A combined map has counted its entries. -/
theorem countersOk_ppimCombine (pimFst pimSnd : CPartIndexMap) :
    (PpimCombine pimFst pimSnd).CountersOk :=
  countersOk_new.addUnresolved.addUnresolved

theorem CountersOk.addRequiredPartPropagation {this : CPartIndexMap} (h : this.CountersOk)
    (ppti : CPartTableInfo) (eppra : EPartPropagationRequestAction) :
    (this.AddRequiredPartPropagation ppti eppra).CountersOk :=
  h.insert _ _ _

theorem countersOk_ppimPartitionSelector (this : CPartIndexMap) (scan_id ulExpectedFromReq : ℕ) :
    (this.PpimPartitionSelector scan_id ulExpectedFromReq).CountersOk := by
  have hfold : ∀ {ppimResult : CPartIndexMap}, ppimResult.CountersOk →
      (this.m_pim.foldl (selectEntry scan_id ulExpectedFromReq) ppimResult).CountersOk := by
    induction this.m_pim with
    | nil => exact fun h => h
    | cons ppti entries ih =>
      refine fun h => ih ?_
      rw [selectEntry]
      split
      · split
        · exact h.insert _ _ _
        · exact h.insert _ _ _
      · exact h.insert _ _ _
  exact hfold countersOk_new

/-- `SetExpectedPropagators` changes no counter, so it may not turn the last propagator of a consumer
off or the first one on. -/
theorem CountersOk.setExpectedPropagators {this : CPartIndexMap} (h : this.CountersOk)
    {scan_id ul : ℕ} (hzero : ∀ ppti ∈ this.m_pim, ppti.m_scan_id = scan_id →
      ppti.m_epim = .consumer → (ppti.m_ulPropagators = 0 ↔ ul = 0)) :
    (this.SetExpectedPropagators scan_id ul).CountersOk := by
  constructor
  · rw [SetExpectedPropagators, List.countP_map]
    refine h.unresolved.trans (List.countP_congr fun ppti hmem => ?_)
    by_cases hid : ppti.m_scan_id = scan_id <;> simp [hid]
  · rw [SetExpectedPropagators, List.countP_map]
    refine h.zero.trans (List.countP_congr fun ppti hmem => ?_)
    have hmember := hzero ppti hmem
    by_cases hid : ppti.m_scan_id = scan_id
    · simp only [Function.comp_apply, hid, if_true, decide_eq_true_eq]
      exact and_congr_right fun hepim => hmember hid hepim
    · simp [hid]

example : ¬((new.Insert 1 .consumer 2).SetExpectedPropagators 1 0).CountersOk := fun h =>
  absurd h.zero (by decide)

end CPartIndexMap

end BossOptimizer

import BossOptimizer.Registry.DynamicRegistry
import Mathlib.Data.List.Nodup

/-!
# The xform factory (CXformFactory.cpp)

The factory is a vector of xforms with a slot for every built-in id, and a map from names to
xforms. `Instantiate` adds the built-in xforms in the order of their ids and a sentinel;
`RegisterTransform` gives an engine's xform the next dynamic id and adds it. An id beyond the end of
the vector is appended, wherever the end is.

Assertions are those of a debug build and are left out. An xform of an engine answers `Exfid` with
the id that its registration allocates.
-/

namespace BossOptimizer

/-- `CXform`, with the number of the object that it is. -/
structure CXform where
  exfid : EXformId
  szId : String
  fImplementation : Bool
  object : ℕ
  deriving DecidableEq

/-- A null in the vector is `none`. The map keeps the first xform of a name. -/
structure CXformFactory where
  rgpxf : List (Option CXform)
  phmszxform : String → Option CXform
  pxfsExploration : EXformId → Bool
  pxfsImplementation : EXformId → Bool

namespace CXformFactory

/-- The names of the built-in xforms in the order of `Instantiate` (CXformFactory.cpp:149), which
    is the order of their ids, and whether they are implementations. -/
def builtInXforms : List (String × Bool) :=
  [("CXformProject2ComputeScalar", true), ("CXformExpandNAryJoin", false),
    ("CXformExpandNAryJoinMinCard", false), ("CXformExpandNAryJoinDP", false),
    ("CXformGet2TableScan", true), ("CXformIndexGet2IndexScan", true),
    ("CXformDynamicGet2DynamicTableScan", true),
    ("CXformDynamicIndexGet2DynamicIndexScan", true), ("CXformImplementSequence", true),
    ("CXformImplementConstTableGet", true), ("CXformUnnestTVF", false),
    ("CXformImplementTVF", true), ("CXformImplementTVFNoArgs", true),
    ("CXformSelect2Filter", true), ("CXformSelect2IndexGet", false),
    ("CXformSelect2DynamicIndexGet", false), ("CXformSelect2PartialDynamicIndexGet", false),
    ("CXformSimplifySelectWithSubquery", false), ("CXformSimplifyProjectWithSubquery", false),
    ("CXformSelect2Apply", false), ("CXformProject2Apply", false), ("CXformGbAgg2Apply", false),
    ("CXformSubqJoin2Apply", false), ("CXformSubqNAryJoin2Apply", false),
    ("CXformInnerJoin2IndexGetApply", false), ("CXformInnerJoin2DynamicIndexGetApply", false),
    ("CXformInnerApplyWithOuterKey2InnerJoin", false), ("CXformInnerJoin2NLJoin", true),
    ("CXformImplementIndexApply", true), ("CXformInnerJoin2HashJoin", true),
    ("CXformInnerApply2InnerJoin", false), ("CXformInnerApply2InnerJoinNoCorrelations", false),
    ("CXformImplementInnerCorrelatedApply", true), ("CXformLeftOuterApply2LeftOuterJoin", false),
    ("CXformLeftOuterApply2LeftOuterJoinNoCorrelations", false),
    ("CXformImplementLeftOuterCorrelatedApply", true),
    ("CXformLeftSemiApply2LeftSemiJoin", false),
    ("CXformLeftSemiApplyWithExternalCorrs2InnerJoin", false),
    ("CXformLeftSemiApply2LeftSemiJoinNoCorrelations", false),
    ("CXformLeftAntiSemiApply2LeftAntiSemiJoin", false),
    ("CXformLeftAntiSemiApply2LeftAntiSemiJoinNoCorrelations", false),
    ("CXformLeftAntiSemiApplyNotIn2LeftAntiSemiJoinNotIn", false),
    ("CXformLeftAntiSemiApplyNotIn2LeftAntiSemiJoinNotInNoCorrelations", false),
    ("CXformPushDownLeftOuterJoin", false), ("CXformSimplifyLeftOuterJoin", false),
    ("CXformLeftOuterJoin2NLJoin", true), ("CXformLeftOuterJoin2HashJoin", true),
    ("CXformLeftSemiJoin2NLJoin", true), ("CXformLeftSemiJoin2HashJoin", true),
    ("CXformLeftAntiSemiJoin2CrossProduct", false),
    ("CXformLeftAntiSemiJoinNotIn2CrossProduct", false), ("CXformLeftAntiSemiJoin2NLJoin", true),
    ("CXformLeftAntiSemiJoinNotIn2NLJoinNotIn", true), ("CXformLeftAntiSemiJoin2HashJoin", true),
    ("CXformLeftAntiSemiJoinNotIn2HashJoinNotIn", true), ("CXformGbAgg2HashAgg", true),
    ("CXformGbAgg2StreamAgg", true), ("CXformGbAgg2ScalarAgg", true),
    ("CXformGbAggDedup2HashAggDedup", true), ("CXformGbAggDedup2StreamAggDedup", true),
    ("CXformImplementLimit", true), ("CXformIntersectAll2LeftSemiJoin", false),
    ("CXformIntersect2Join", false), ("CXformDifference2LeftAntiSemiJoin", false),
    ("CXformDifferenceAll2LeftAntiSemiJoin", false), ("CXformUnion2UnionAll", false),
    ("CXformImplementUnionAll", true), ("CXformInsert2DML", false), ("CXformDelete2DML", false),
    ("CXformUpdate2DML", false), ("CXformImplementDML", true),
    ("CXformImplementRowTrigger", true), ("CXformImplementSplit", true),
    ("CXformJoinCommutativity", false), ("CXformJoinAssociativity", false),
    ("CXformSemiJoinSemiJoinSwap", false), ("CXformSemiJoinAntiSemiJoinSwap", false),
    ("CXformSemiJoinAntiSemiJoinNotInSwap", false), ("CXformSemiJoinInnerJoinSwap", false),
    ("CXformAntiSemiJoinAntiSemiJoinSwap", false),
    ("CXformAntiSemiJoinAntiSemiJoinNotInSwap", false),
    ("CXformAntiSemiJoinSemiJoinSwap", false), ("CXformAntiSemiJoinInnerJoinSwap", false),
    ("CXformAntiSemiJoinNotInAntiSemiJoinSwap", false),
    ("CXformAntiSemiJoinNotInAntiSemiJoinNotInSwap", false),
    ("CXformAntiSemiJoinNotInSemiJoinSwap", false),
    ("CXformAntiSemiJoinNotInInnerJoinSwap", false), ("CXformInnerJoinSemiJoinSwap", false),
    ("CXformInnerJoinAntiSemiJoinSwap", false), ("CXformInnerJoinAntiSemiJoinNotInSwap", false),
    ("CXformLeftSemiJoin2InnerJoin", false), ("CXformLeftSemiJoin2InnerJoinUnderGb", false),
    ("CXformLeftSemiJoin2CrossProduct", false), ("CXformSplitLimit", false),
    ("CXformSimplifyGbAgg", false), ("CXformCollapseGbAgg", false),
    ("CXformPushGbBelowJoin", false), ("CXformPushGbDedupBelowJoin", false),
    ("CXformPushGbWithHavingBelowJoin", false), ("CXformPushGbBelowUnion", false),
    ("CXformPushGbBelowUnionAll", false), ("CXformSplitGbAgg", false),
    ("CXformSplitGbAggDedup", false), ("CXformSplitDQA", false),
    ("CXformSequenceProject2Apply", false), ("CXformImplementSequenceProject", true),
    ("CXformImplementAssert", true), ("CXformCTEAnchor2Sequence", false),
    ("CXformCTEAnchor2TrivialSelect", false), ("CXformInlineCTEConsumer", false),
    ("CXformInlineCTEConsumerUnderSelect", false), ("CXformImplementCTEProducer", true),
    ("CXformImplementCTEConsumer", true), ("CXformExpandFullOuterJoin", false),
    ("CXformExternalGet2ExternalScan", true), ("CXformSelect2BitmapBoolOp", false),
    ("CXformSelect2DynamicBitmapBoolOp", false), ("CXformImplementBitmapTableGet", true),
    ("CXformImplementDynamicBitmapTableGet", true),
    ("CXformInnerJoin2PartialDynamicIndexGetApply", false),
    ("CXformLeftOuter2InnerUnionAllLeftAntiSemiJoin", false),
    ("CXformImplementLeftSemiCorrelatedApply", true),
    ("CXformImplementLeftSemiCorrelatedApplyIn", true),
    ("CXformImplementLeftAntiSemiCorrelatedApply", true),
    ("CXformImplementLeftAntiSemiCorrelatedApplyNotIn", true),
    ("CXformLeftSemiApplyIn2LeftSemiJoin", false),
    ("CXformLeftSemiApplyInWithExternalCorrs2InnerJoin", false),
    ("CXformLeftSemiApplyIn2LeftSemiJoinNoCorrelations", false),
    ("CXformInnerJoin2BitmapIndexGetApply", false), ("CXformImplementPartitionSelector", true),
    ("CXformMaxOneRow2Assert", false), ("CXformInnerJoinWithInnerSelect2IndexGetApply", false),
    ("CXformInnerJoinWithInnerSelect2DynamicIndexGetApply", false),
    ("CXformInnerJoinWithInnerSelect2PartialDynamicIndexGetApply", false),
    ("CXformInnerJoin2DynamicBitmapIndexGetApply", false),
    ("CXformInnerJoinWithInnerSelect2BitmapIndexGetApply", false),
    ("CXformInnerJoinWithInnerSelect2DynamicBitmapIndexGetApply", false),
    ("CXformGbAggWithMDQA2Join", false), ("CXformCollapseProject", false),
    ("CXformRemoveSubqDistinct", false), ("CXformLeftOuterJoin2BitmapIndexGetApply", false),
    ("CXformLeftOuterJoin2IndexGetApply", false),
    ("CXformLeftOuterJoinWithInnerSelect2BitmapIndexGetApply", false),
    ("CXformLeftOuterJoinWithInnerSelect2IndexGetApply", false),
    ("CXformExpandNAryJoinGreedy", false), ("CXformEagerAgg", false),
    ("CXformExpandNAryJoinDPv2", false), ("CXformImplementFullOuterMergeJoin", false),
    ("CXformLeftOuterJoin2DynamicBitmapIndexGetApply", false),
    ("CXformLeftOuterJoin2DynamicIndexGetApply", false),
    ("CXformLeftOuterJoinWithInnerSelect2DynamicBitmapIndexGetApply", false),
    ("CXformLeftOuterJoinWithInnerSelect2DynamicIndexGetApply", false)]

/-- The constructor (CXformFactory.cpp:38). -/
def new : CXformFactory where
  rgpxf := List.replicate exfDynamicStart none
  phmszxform _ := none
  pxfsExploration _ := false
  pxfsImplementation _ := false

/-- `Add` (CXformFactory.cpp:96). -/
def add (f : CXformFactory) (pxform : CXform) : CXformFactory where
  rgpxf :=
    if f.rgpxf.length ≤ pxform.exfid then f.rgpxf ++ [some pxform]
    else f.rgpxf.set pxform.exfid (some pxform)
  phmszxform :=
    if (f.phmszxform pxform.szId).isSome then f.phmszxform
    else Function.update f.phmszxform pxform.szId (some pxform)
  pxfsExploration :=
    if pxform.fImplementation then f.pxfsExploration
    else Function.update f.pxfsExploration pxform.exfid true
  pxfsImplementation :=
    if pxform.fImplementation then Function.update f.pxfsImplementation pxform.exfid true
    else f.pxfsImplementation

/-- The xforms that `Instantiate` creates, numbered from `object`. -/
def builtIns (object : ℕ) : List CXform :=
  builtInXforms.zipIdx.map fun entry => ⟨entry.2, entry.1.1, entry.1.2, object + entry.2⟩

/-- `Instantiate` (CXformFactory.cpp:149). -/
def instantiate (object : ℕ) (f : CXformFactory) : CXformFactory :=
  let added := (builtIns object).foldl add f
  { added with rgpxf := added.rgpxf ++ [none] }

/-- `Pxf(EXformId)` (CXformFactory.cpp:331); beyond the end of the vector there is nothing. -/
def pxf (f : CXformFactory) (exfid : EXformId) : Option CXform := f.rgpxf[exfid]?.join

/-- `Pxf(CHAR *)` (CXformFactory.cpp:350). -/
def pxfByName (f : CXformFactory) (szXformName : String) : Option CXform :=
  f.phmszxform szXformName

/-! ## Registrations -/

/-- The factory, the registry that allocates ids, and the xforms that were added so far. -/
structure State where
  factory : CXformFactory
  registry : DynamicRegistry
  registered : List CXform

inductive Call where
  | instantiate
  | registerTransform (transformName : String) (engine : EEngineType) (szId : String)
      (fImplementation : Bool)

/-- `UseDefaultCPUTransforms` (DynamicRegistry.hpp:455) and `RegisterTransform`
    (DynamicRegistry.cpp:84). -/
def call (s : State) : Call → State
  | .instantiate =>
    { s with
      factory := s.factory.instantiate s.registered.length
      registered := s.registered ++ builtIns s.registered.length }
  | .registerTransform transformName engine szId fImplementation =>
    let registry := s.registry.registerTransform transformName engine
    let pxform := ⟨registry.currentTransformId, szId, fImplementation, s.registered.length⟩
    ⟨s.factory.add pxform, registry, s.registered ++ [pxform]⟩

def callAll : List Call → State → State
  | [], s => s
  | c :: calls, s => callAll calls (call s c)

/-- The state at the start. -/
def start (costFunctions : EOperatorId → Option FnCost)
    (pcp : EEngineType → Option ICostModelParams) : State :=
  ⟨new, DynamicRegistry.init costFunctions pcp, []⟩

/-- The names of the xforms that a call adds. -/
def Call.szIds : Call → List String
  | .instantiate => builtInXforms.map Prod.fst
  | .registerTransform _ _ szId _ => [szId]

/-- Every xform is found under its id, alone, and by its name. -/
structure FoundUnderIds (s : State) : Prop where
  byId : ∀ x ∈ s.registered, s.factory.pxf x.exfid = some x
  alone : ∀ x ∈ s.registered, ∀ y ∈ s.registered, x ≠ y → x.exfid ≠ y.exfid
  byName : ∀ x ∈ s.registered, s.factory.pxfByName x.szId = s.factory.pxf x.exfid

/-- `Instantiate` comes first, and no two xforms have one name (so there is one `Instantiate`). -/
def InOrder (calls : List Call) : Prop :=
  (∀ c ∈ calls.head?, c = .instantiate) ∧ (calls.flatMap Call.szIds).Nodup

/-! ## The built-in xforms -/

@[simp] theorem length_builtInXforms : builtInXforms.length = exfDynamicStart := by
  decide +kernel

@[simp] theorem map_szId_builtIns (object : ℕ) :
    (builtIns object).map CXform.szId = builtInXforms.map Prod.fst := by
  conv_rhs => rw [← List.zipIdx_map_fst 0 builtInXforms, List.map_map]
  rw [builtIns, List.map_map]
  rfl

@[simp] theorem map_exfid_builtIns (object : ℕ) :
    (builtIns object).map CXform.exfid = List.range exfDynamicStart := by
  rw [builtIns, List.map_map, ← length_builtInXforms, List.range_eq_range']
  exact List.zipIdx_map_snd ..

theorem length_new : new.rgpxf.length = exfDynamicStart := List.length_replicate

/-- A number for a name, to compare names by. -/
def nameCode (name : String) : ℕ :=
  name.toByteArray.data.toList.foldl (fun code byte => code * 256 + byte.toNat) 0

set_option maxRecDepth 4000 in
/-- The built-in xforms have different names. -/
theorem nodup_builtInXforms : (builtInXforms.map Prod.fst).Nodup := by
  have hcodes : ((builtInXforms.map Prod.fst).map nameCode).Nodup := by decide +kernel
  exact hcodes.of_map

/-! ## Adding -/

/-- What is in the table: each xform in its slot and under its name, and no other name. -/
structure Holds (f : CXformFactory) (xforms : List CXform) : Prop where
  slot : ∀ x ∈ xforms, f.rgpxf[x.exfid]? = some (some x)
  name : ∀ x ∈ xforms, f.phmszxform x.szId = some x
  names : ∀ szId, (f.phmszxform szId).isSome → szId ∈ xforms.map CXform.szId

theorem length_add (f : CXformFactory) (pxform : CXform) : (f.add pxform).rgpxf.length =
    if f.rgpxf.length ≤ pxform.exfid then f.rgpxf.length + 1 else f.rgpxf.length := by
  simp only [add]
  split <;> simp

variable {f : CXformFactory}

/-- An xform whose id is at most the end of the vector is put into its slot. -/
theorem Holds.add {xforms : List CXform} (h : f.Holds xforms) {pxform : CXform}
    (hid : pxform.exfid ≤ f.rgpxf.length) (hnew : pxform.exfid ∉ xforms.map CXform.exfid)
    (hname : pxform.szId ∉ xforms.map CXform.szId) :
    (f.add pxform).Holds (xforms ++ [pxform]) := by
  have hfresh : (f.phmszxform pxform.szId).isSome = false := by
    rw [Bool.eq_false_iff]
    exact fun hsome => hname (h.names _ hsome)
  have hslot : (f.add pxform).rgpxf[pxform.exfid]? = some (some pxform) := by
    simp only [CXformFactory.add]
    split
    · next hle =>
      rw [Nat.le_antisymm hid hle]
      exact List.getElem?_concat_length
    · next hlt => exact List.getElem?_set_self (Nat.lt_of_not_le hlt)
  refine ⟨fun x hx => ?_, fun x hx => ?_, fun szId hsome => ?_⟩
  · rcases List.mem_append.1 hx with hx | hx
    · have hne : pxform.exfid ≠ x.exfid := fun heq => hnew (heq ▸ List.mem_map_of_mem hx)
      have hold := h.slot x hx
      simp only [CXformFactory.add]
      split
      · rw [List.getElem?_append_left (List.getElem?_eq_some_iff.1 hold).1, hold]
      · rw [List.getElem?_set_ne hne, hold]
    · rwa [List.mem_singleton.1 hx]
  · simp only [CXformFactory.add, hfresh]
    rcases List.mem_append.1 hx with hx | hx
    · have hne : x.szId ≠ pxform.szId := fun heq => hname (heq ▸ List.mem_map_of_mem hx)
      simp [Function.update_of_ne hne, h.name x hx]
    · simp [List.mem_singleton.1 hx]
  · simp only [CXformFactory.add, hfresh] at hsome
    rw [List.map_append, List.mem_append]
    by_cases heq : szId = pxform.szId
    · exact .inr (by simp [heq])
    · exact .inl (h.names szId (by simpa [Function.update_of_ne heq] using hsome))

variable {x : CXform}

theorem notMem_of_nodup_concat {α : Type} {g : CXform → α} {xforms : List CXform}
    (h : ((xforms ++ [x]).map g).Nodup) : g x ∉ xforms.map g := by
  rw [List.map_append, List.nodup_append] at h
  exact fun hmem => h.2.2 _ hmem _ (by simp) rfl

/-- A run of additions into slots of the vector. -/
theorem Holds.foldl_add {xforms added : List CXform} (h : f.Holds xforms)
    (hid : ∀ x ∈ added, x.exfid < f.rgpxf.length)
    (hids : ((xforms ++ added).map CXform.exfid).Nodup)
    (hnames : ((xforms ++ added).map CXform.szId).Nodup) :
    (added.foldl CXformFactory.add f).Holds (xforms ++ added) ∧
      (added.foldl CXformFactory.add f).rgpxf.length = f.rgpxf.length := by
  induction added generalizing f xforms with
  | nil => simpa using h
  | cons x added ih =>
    have hx : x.exfid < f.rgpxf.length := hid x (by simp)
    rw [List.append_cons] at hids hnames ⊢
    have hpre {β : Type} {g : CXform → β} (hnd : ((xforms ++ [x] ++ added).map g).Nodup) :
        g x ∉ xforms.map g := by
      rw [List.map_append] at hnd
      exact notMem_of_nodup_concat (List.nodup_append.1 hnd).1
    have hadd := h.add hx.le (hpre hids) (hpre hnames)
    have hlen : (f.add x).rgpxf.length = f.rgpxf.length := by
      rw [length_add, if_neg (Nat.not_le.2 hx)]
    obtain ⟨hholds, hlength⟩ := ih hadd (by
      rw [hlen]
      exact fun y hy => hid y (by simp [hy])) hids hnames
    exact ⟨hholds, hlength.trans hlen⟩

/-! ## Runs -/

/-- The state after `Instantiate` and some dynamic xforms: the vector ends where the next id is. -/
structure Inv (s : State) : Prop where
  holds : s.factory.Holds s.registered
  length : s.factory.rgpxf.length = s.registry.currentTransformId + 1
  ids : ∀ x ∈ s.registered, x.exfid ≤ s.registry.currentTransformId
  distinct : (s.registered.map CXform.exfid).Nodup

variable {s : State}

theorem Inv.foundUnderIds (h : Inv s) : FoundUnderIds s where
  byId x hx := by rw [pxf, h.holds.slot x hx]; rfl
  alone x hx y hy hne heq := hne (List.inj_on_of_nodup_map h.distinct hx hy heq)
  byName x hx := by
    rw [pxf, h.holds.slot x hx]
    exact h.holds.name x hx

theorem inv_instantiate (costFunctions : EOperatorId → Option FnCost)
    (pcp : EEngineType → Option ICostModelParams) :
    Inv (call (start costFunctions pcp) .instantiate) := by
  have hnew : new.Holds [] := ⟨by simp, by simp, by simp [new]⟩
  have hids : ∀ x ∈ builtIns 0, x.exfid < new.rgpxf.length := fun x hx => by
    have hmem := List.mem_map_of_mem (f := CXform.exfid) hx
    rwa [map_exfid_builtIns, List.mem_range, ← length_new] at hmem
  obtain ⟨hholds, hlength⟩ := hnew.foldl_add hids (by simpa using List.nodup_range)
    (by simpa using nodup_builtInXforms)
  rw [List.nil_append] at hholds
  have hcall : call (start costFunctions pcp) .instantiate =
      ⟨{ (builtIns 0).foldl CXformFactory.add new with
          rgpxf := ((builtIns 0).foldl CXformFactory.add new).rgpxf ++ [none] },
        DynamicRegistry.init costFunctions pcp, builtIns 0⟩ := rfl
  have hdistinct : ((builtIns 0).map CXform.exfid).Nodup := by simpa using List.nodup_range
  rw [hcall]
  generalize builtIns 0 = xforms at *
  refine ⟨⟨fun x hx => ?_, hholds.name, hholds.names⟩, ?_, fun x hx => ?_, hdistinct⟩
  · have hslot := hholds.slot x hx
    exact (List.getElem?_append_left (List.getElem?_eq_some_iff.1 hslot).1).trans hslot
  · rw [List.length_append, hlength, length_new]
    rfl
  · have hlt := hids x hx
    rw [length_new] at hlt
    exact hlt.le

/-- A dynamic xform with a new name goes to the end of the vector, which is its slot. -/
theorem Inv.registerTransform (h : Inv s) (transformName : String) (engine : EEngineType)
    {szId : String} (fImplementation : Bool) (hname : szId ∉ s.registered.map CXform.szId) :
    Inv (call s (.registerTransform transformName engine szId fImplementation)) := by
  have hfresh : s.registry.currentTransformId + 1 ∉ s.registered.map CXform.exfid := by
    intro hmem
    obtain ⟨x, hx, heq⟩ := List.mem_map.1 hmem
    exact absurd (heq ▸ h.ids x hx) (Nat.not_succ_le_self _)
  have hcall : call s (.registerTransform transformName engine szId fImplementation) =
      ⟨s.factory.add ⟨s.registry.currentTransformId + 1, szId, fImplementation,
          s.registered.length⟩, s.registry.registerTransform transformName engine,
        s.registered ++ [⟨s.registry.currentTransformId + 1, szId, fImplementation,
          s.registered.length⟩]⟩ := rfl
  rw [hcall]
  refine ⟨h.holds.add h.length.ge hfresh hname, ?_, fun x hx => ?_, ?_⟩
  · rw [length_add, if_pos h.length.le, h.length]
    rfl
  · rcases List.mem_append.1 hx with hx | hx
    · exact Nat.le_succ_of_le (h.ids x hx)
    · rw [List.mem_singleton.1 hx]
      exact le_rfl
  · simpa [List.nodup_append] using ⟨h.distinct, fun x hx heq => hfresh (heq ▸
      List.mem_map_of_mem hx)⟩

theorem map_szId_call (s : State) (c : Call) : (call s c).registered.map CXform.szId =
    s.registered.map CXform.szId ++ c.szIds := by
  cases c <;> simp [call, Call.szIds]

theorem map_szId_callAll (calls : List Call) (s : State) :
    (callAll calls s).registered.map CXform.szId =
      s.registered.map CXform.szId ++ calls.flatMap Call.szIds := by
  induction calls generalizing s with
  | nil => simp [callAll]
  | cons c calls ih => rw [callAll, ih, map_szId_call, List.flatMap_cons, List.append_assoc]

/-- A run that goes on after `Instantiate` under new names. -/
theorem Inv.callAll (h : Inv s) {calls : List Call}
    (hnames : (s.registered.map CXform.szId ++ calls.flatMap Call.szIds).Nodup)
    (hbuiltIn : ∀ szId ∈ builtInXforms.map Prod.fst, szId ∈ s.registered.map CXform.szId) :
    Inv (callAll calls s) := by
  induction calls generalizing s with
  | nil => exact h
  | cons c calls ih =>
    rw [List.flatMap_cons, ← List.append_assoc, ← map_szId_call] at hnames
    have hpre := map_szId_call s c ▸ (List.nodup_append.1 hnames).1
    have hbuiltIn' : ∀ szId ∈ builtInXforms.map Prod.fst,
        szId ∈ (call s c).registered.map CXform.szId := fun szId hmem => by
      rw [map_szId_call]
      exact List.mem_append_left _ (hbuiltIn szId hmem)
    refine ih ?_ hnames hbuiltIn'
    cases c with
    | instantiate =>
      -- a second `Instantiate` would use the names of the first again
      have hmem : "CXformEagerAgg" ∈ builtInXforms.map Prod.fst := by decide +kernel
      exact ((List.nodup_append.1 hpre).2.2 _ (hbuiltIn _ hmem) _ hmem rfl).elim
    | registerTransform transformName engine szId fImplementation =>
      refine h.registerTransform transformName engine fImplementation fun hmem => ?_
      exact (List.nodup_append.1 hpre).2.2 _ hmem _ (List.mem_singleton.2 rfl) rfl

/-! ## An xform before `Instantiate` -/

/-- The xform is in no slot but this one. -/
def OnlyAt (f : CXformFactory) (x : CXform) (slot : ℕ) : Prop :=
  ∀ i, f.rgpxf[i]? = some (some x) → i = slot

theorem OnlyAt.add {slot : ℕ} (h : f.OnlyAt x slot)
    {pxform : CXform} (hne : pxform ≠ x) : (f.add pxform).OnlyAt x slot := by
  intro i hi
  simp only [CXformFactory.add] at hi
  split at hi
  · rcases Nat.lt_or_ge i f.rgpxf.length with hlt | hge
    · rw [List.getElem?_append_left hlt] at hi
      exact h i hi
    · rw [List.getElem?_append_right hge] at hi
      obtain ⟨_, heq⟩ := List.getElem?_eq_some_iff.1 hi
      simp only [List.getElem_singleton, Option.some.injEq] at heq
      exact (hne heq).elim
  · by_cases hi' : pxform.exfid = i
    · rw [hi', List.getElem?_set_self'] at hi
      obtain ⟨_, -, heq⟩ := Option.map_eq_some_iff.1 hi
      exact (hne (Option.some.inj heq)).elim
    · rw [List.getElem?_set_ne hi'] at hi
      exact h i hi

theorem OnlyAt.foldl_add {slot : ℕ} (h : f.OnlyAt x slot) {added : List CXform}
    (hne : ∀ y ∈ added, y ≠ x) :
    (added.foldl CXformFactory.add f).OnlyAt x slot := by
  induction added generalizing f with
  | nil => exact h
  | cons y added ih => exact ih (h.add (hne y (by simp))) fun z hz => hne z (by simp [hz])

/-- Later xforms are other objects. -/
theorem OnlyAt.call {slot : ℕ} (h : s.factory.OnlyAt x slot)
    (hobject : x.object < s.registered.length) (c : Call) :
    (call s c).factory.OnlyAt x slot ∧ x.object < (call s c).registered.length := by
  cases c with
  | instantiate =>
    refine ⟨fun i hi => ?_, ?_⟩
    · have hold :
          ((builtIns s.registered.length).foldl CXformFactory.add s.factory).OnlyAt x slot := by
        refine h.foldl_add fun y hy heq => ?_
        obtain ⟨entry, -, rfl⟩ := List.mem_map.1 hy
        rw [← heq] at hobject
        exact absurd hobject (Nat.not_lt.2 (Nat.le_add_right ..))
      refine hold i ?_
      change (_ ++ [none])[i]? = _ at hi
      rcases Nat.lt_or_ge i ((builtIns s.registered.length).foldl CXformFactory.add
          s.factory).rgpxf.length with hlt | hge
      · rwa [List.getElem?_append_left hlt] at hi
      · rw [List.getElem?_append_right hge] at hi
        obtain ⟨_, heq⟩ := List.getElem?_eq_some_iff.1 hi
        simp at heq
    · change _ < (s.registered ++ _).length
      rw [List.length_append]
      exact Nat.lt_add_right _ hobject
  | registerTransform transformName engine szId fImplementation =>
    refine ⟨h.add fun heq => ?_, ?_⟩
    · rw [← heq] at hobject
      exact absurd hobject (lt_irrefl _)
    · change _ < (s.registered ++ [_]).length
      rw [List.length_append]
      exact Nat.lt_add_right _ hobject

theorem OnlyAt.callAll {slot : ℕ} (h : s.factory.OnlyAt x slot)
    (hobject : x.object < s.registered.length) (calls : List Call) :
    (callAll calls s).factory.OnlyAt x slot := by
  induction calls generalizing s with
  | nil => exact h
  | cons c calls ih =>
    obtain ⟨honly, hobject⟩ := h.call hobject c
    exact ih honly hobject

theorem mem_registered_callAll (h : x ∈ s.registered)
    (calls : List Call) : x ∈ (callAll calls s).registered := by
  induction calls generalizing s with
  | nil => exact h
  | cons c calls ih =>
    refine ih ?_
    cases c <;> exact List.mem_append_left _ h

/-- A dynamic xform that comes first sits one slot too low, and stays there. -/
theorem not_foundUnderIds_of_dynamic_first (costFunctions : EOperatorId → Option FnCost)
    (pcp : EEngineType → Option ICostModelParams) (transformName : String)
    (engine : EEngineType) (szId : String) (fImplementation : Bool) (calls : List Call) :
    ¬FoundUnderIds (callAll (.registerTransform transformName engine szId fImplementation :: calls)
      (start costFunctions pcp)) := by
  intro h
  let x : CXform := ⟨exfDynamicStart + 1, szId, fImplementation, 0⟩
  have honly : (new.add x).OnlyAt x exfDynamicStart := by
    intro i hi
    have hvec : (new.add x).rgpxf = List.replicate exfDynamicStart none ++ [some x] := by
      simp only [add, new, List.length_replicate]
      exact if_pos (Nat.le_succ _)
    rw [hvec] at hi
    rcases Nat.lt_trichotomy i exfDynamicStart with hlt | heq | hgt
    · rw [List.getElem?_append_left (by simpa using hlt), List.getElem?_replicate,
        if_pos hlt] at hi
      simp at hi
    · exact heq
    · rw [List.getElem?_eq_none (by simpa using Nat.succ_le_of_lt hgt)] at hi
      simp at hi
  have hmem : x ∈ (callAll (.registerTransform transformName engine szId fImplementation :: calls)
      (start costFunctions pcp)).registered :=
    mem_registered_callAll (List.mem_singleton.2 rfl) calls
  have hfound := h.byId x hmem
  have hstays := OnlyAt.callAll (s := call (start costFunctions pcp)
    (.registerTransform transformName engine szId fImplementation)) honly Nat.zero_lt_one calls
  rw [pxf, Option.join_eq_some_iff] at hfound
  exact absurd (hstays _ hfound) (Nat.succ_ne_self _)

/-! ## Which runs keep the table right -/

/-- Every call adds new objects. -/
theorem map_object_call (h : s.registered.map CXform.object = List.range s.registered.length)
    (c : Call) :
    (call s c).registered.map CXform.object = List.range (call s c).registered.length := by
  cases c with
  | instantiate =>
    change (s.registered ++ builtIns s.registered.length).map CXform.object =
      List.range (s.registered ++ builtIns s.registered.length).length
    have hnew : (builtIns s.registered.length).map CXform.object =
        (List.range (builtIns s.registered.length).length).map (s.registered.length + ·) := by
      rw [builtIns, List.length_map, List.length_zipIdx, List.map_map, List.range_eq_range',
        ← List.zipIdx_map_snd 0 builtInXforms, List.map_map]
      rfl
    rw [List.map_append, h, hnew, List.length_append, List.range_add]
  | registerTransform transformName engine szId fImplementation =>
    change (s.registered ++ [_]).map CXform.object = List.range (s.registered ++ [_]).length
    rw [List.map_append, h, List.length_append, List.length_singleton, List.range_succ]
    rfl

theorem map_object_callAll (h : s.registered.map CXform.object = List.range s.registered.length)
    (calls : List Call) :
    (callAll calls s).registered.map CXform.object =
      List.range (callAll calls s).registered.length := by
  induction calls generalizing s with
  | nil => exact h
  | cons c calls ih => exact ih (map_object_call h c)

/-- Where ids and names lead to one xform, two xforms have two names. -/
theorem FoundUnderIds.nodup_szId (h : FoundUnderIds s)
    (hobjects : s.registered.map CXform.object = List.range s.registered.length) :
    (s.registered.map CXform.szId).Nodup := by
  have hnodup : s.registered.Nodup :=
    List.Nodup.of_map CXform.object (hobjects ▸ List.nodup_range)
  refine hnodup.map_on fun x hx y hy hname => ?_
  have hboth := (h.byName x hx).symm.trans (hname ▸ h.byName y hy)
  rw [h.byId x hx, h.byId y hy] at hboth
  exact Option.some.inj hboth

/-- **The factory's table.** After any sequence of calls, every xform is found under its id, alone,
    and by its name exactly when `Instantiate` came first, once, and no name was used twice. -/
theorem foundUnderIds_iff (costFunctions : EOperatorId → Option FnCost)
    (pcp : EEngineType → Option ICostModelParams) (calls : List Call) :
    FoundUnderIds (callAll calls (start costFunctions pcp)) ↔ InOrder calls := by
  constructor
  · intro h
    refine ⟨fun c hc => ?_, ?_⟩
    · cases calls with
      | nil => simp at hc
      | cons c' calls =>
        obtain rfl : c' = c := Option.some.inj hc
        cases c' with
        | instantiate => rfl
        | registerTransform transformName engine szId fImplementation =>
          exact (not_foundUnderIds_of_dynamic_first _ _ _ _ _ _ calls h).elim
    · have hnames := h.nodup_szId (map_object_callAll (by simp [start]) calls)
      rw [map_szId_callAll] at hnames
      simpa [start] using hnames
  · rintro ⟨hfirst, hnames⟩
    cases calls with
    | nil => exact ⟨by simp [callAll, start], by simp [callAll, start], by simp [callAll, start]⟩
    | cons c calls =>
      obtain rfl : c = .instantiate := hfirst c rfl
      have hszIds : (call (start costFunctions pcp) .instantiate).registered.map CXform.szId =
          builtInXforms.map Prod.fst := by
        rw [map_szId_call]
        simp [start, Call.szIds]
      rw [callAll]
      refine ((inv_instantiate costFunctions pcp).callAll ?_ ?_).foundUnderIds
      · rwa [hszIds]
      · exact fun szId hmem => hszIds ▸ hmem

section Examples

/-- An xform of an engine before `Instantiate`. -/
def dynamicFirst : List Call :=
  [.registerTransform "T" 3 "CXformT" true, .instantiate,
    .registerTransform "U" 3 "CXformU" true]

/-- Nothing is found under its id; the second one is. -/
theorem foundUnderIds_dynamicFirst :
    let s := callAll dynamicFirst (start (fun _ => none) (fun _ => none))
    s.registered.head? = some ⟨153, "CXformT", true, 0⟩ ∧ s.factory.pxf 153 = none ∧
      ¬FoundUnderIds s := by
  refine ⟨by decide +kernel, by decide +kernel, fun h => ?_⟩
  exact not_foundUnderIds_of_dynamic_first _ _ _ _ _ _ _ h

end Examples

end CXformFactory

end BossOptimizer

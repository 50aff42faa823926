import BossOptimizer.Registry.RemoveEngine

/-!
# Engine transforms, and engines removed by name

`RegisterEngineTransform` stores what a transition from one engine to another preserves, and the
transition operator reads it back through three getters. Rewindability is stored with the flag of
the distribution, so what is read back is what was registered only where the two flags are equal.

`RemoveEngine` looks the name up through `operator[]`: a name that is not registered removes the
engine 0.
-/

namespace BossOptimizer

namespace DynamicRegistry

/-! ## The getters -/

/-- `GetEnginePreserveOrder` (DynamicRegistry.hpp:283): a missing entry is inserted as `false`. -/
def getEnginePreserveOrder (r : DynamicRegistry) (src dst : EEngineType) : Bool :=
  (r.enginePreserveOrder (src, dst)).getD false

/-- `GetEnginePreserveDistribution` (DynamicRegistry.hpp:287). -/
def getEnginePreserveDistribution (r : DynamicRegistry) (src dst : EEngineType) : Bool :=
  (r.enginePreserveDistribution (src, dst)).getD false

/-- `GetEnginePreserveRewindability` (DynamicRegistry.hpp:291). -/
def getEnginePreserveRewindability (r : DynamicRegistry) (src dst : EEngineType) : Bool :=
  (r.enginePreserveRewindability (src, dst)).getD false

/-- What a transition between engines preserves. -/
structure PreserveFlags where
  order : Bool
  distribution : Bool
  rewindability : Bool
  deriving DecidableEq

/-- The three getters. -/
def preserveFlags (r : DynamicRegistry) (src dst : EEngineType) : PreserveFlags :=
  ⟨r.getEnginePreserveOrder src dst, r.getEnginePreserveDistribution src dst,
    r.getEnginePreserveRewindability src dst⟩

/-! ## Calls -/

inductive Call where
  | register (reg : Registration)
  | removeEngine (engineName : String)

def call (r : DynamicRegistry) : Call → DynamicRegistry
  | .register reg => r.register reg
  | .removeEngine engineName => r.removeEngine engineName

def callAll : List Call → DynamicRegistry → DynamicRegistry
  | [], r => r
  | c :: calls, r => callAll calls (r.call c)

/-- The engine has a name or is named, and was not removed. -/
def Registered (r : DynamicRegistry) (engine : EEngineType) : Prop :=
  (∃ name, r.engineNameToEngineType name = some engine) ∨
    (r.engineTypeToEngineName engine).isSome

/-- The call registers the transform between the two engines. -/
def Call.Registers (src dst : EEngineType) : Call → Prop
  | .register (.engineTransform src' dst' _ _ _ _) => src' = src ∧ dst' = dst
  | _ => False

/-- The call removes an engine by a name that is not registered. -/
def Call.removesUnknown (r : DynamicRegistry) : Call → Bool
  | .removeEngine engineName => (r.engineNameToEngineType engineName).isNone
  | .register _ => false

/-- Some call of a run does. -/
def removesUnknown : List Call → DynamicRegistry → Bool
  | [], _ => false
  | c :: calls, r => c.removesUnknown r || removesUnknown calls (r.call c)

theorem callAll_append (calls calls' : List Call) (r : DynamicRegistry) :
    callAll (calls ++ calls') r = callAll calls' (callAll calls r) := by
  induction calls generalizing r with
  | nil => rfl
  | cons c calls ih => exact ih _

/-! ## What a removal leaves alone -/

/-- The registry with the operators, transforms and rules of another one. -/
def withOpsOf (r ops : DynamicRegistry) : DynamicRegistry :=
  { r with
    opEngineAndNameToOperatorId := ops.opEngineAndNameToOperatorId
    transformNameToTransformId := ops.transformNameToTransformId
    preprocessingRules := ops.preprocessingRules
    projectOperators := ops.projectOperators
    relevantTransforms := ops.relevantTransforms
    opFactories := ops.opFactories
    costMap := ops.costMap
    disabledXforms := ops.disabledXforms }

theorem foldl_withOpsOf (step : DynamicRegistry → String → DynamicRegistry)
    (hstep : ∀ r x, step r x = r.withOpsOf (step r x)) (names : List String)
    (r : DynamicRegistry) : names.foldl step r = r.withOpsOf (names.foldl step r) := by
  induction names generalizing r with
  | nil => rfl
  | cons name names ih =>
    have hrest := ih (step r name)
    rw [hstep r name] at hrest
    rw [List.foldl_cons, hstep r name]
    exact hrest

theorem removePhysicalOps_eq (engine : EEngineType) (r : DynamicRegistry) :
    r.removePhysicalOps engine = { r.withOpsOf (r.removePhysicalOps engine) with
      engineToPhysicalOps := Function.update r.engineToPhysicalOps engine [] } :=
  congrArg (fun s : DynamicRegistry =>
      { s with engineToPhysicalOps := Function.update r.engineToPhysicalOps engine [] })
    (foldl_withOpsOf (removePhysicalOp engine) (fun _ _ => rfl) _ r)

theorem removeLogicalOps_eq (engine : EEngineType) (r : DynamicRegistry) :
    r.removeLogicalOps engine = { r.withOpsOf (r.removeLogicalOps engine) with
      engineToLogicalOps := Function.update r.engineToLogicalOps engine [] } :=
  congrArg (fun s : DynamicRegistry =>
      { s with engineToLogicalOps := Function.update r.engineToLogicalOps engine [] })
    (foldl_withOpsOf (removeLogicalOp engine) (fun _ _ => rfl) _ r)

theorem removeTransforms_eq (engine : EEngineType) (r : DynamicRegistry) :
    r.removeTransforms engine = { r.withOpsOf (r.removeTransforms engine) with
      engineToTransforms := Function.update r.engineToTransforms engine [] } :=
  congrArg (fun s : DynamicRegistry =>
      { s with engineToTransforms := Function.update r.engineToTransforms engine [] })
    (foldl_withOpsOf removeTransform (fun _ _ => rfl) _ r)

theorem removePreprocessingRules_eq (engine : EEngineType) (r : DynamicRegistry) :
    r.removePreprocessingRules engine = { r.withOpsOf (r.removePreprocessingRules engine) with
      engineToPreprocessingRules := Function.update r.engineToPreprocessingRules engine [] } :=
  congrArg (fun s : DynamicRegistry => { s with
      engineToPreprocessingRules := Function.update r.engineToPreprocessingRules engine [] })
    (foldl_withOpsOf removePreprocessingRule (fun _ _ => rfl) _ r)

/-- Beyond the operators, transforms and rules, removing an engine touches what is keyed by it. -/
theorem removeEngineType_eq (engine : EEngineType) (r : DynamicRegistry) :
    r.removeEngineType engine =
      { (r.removeEngineMaps engine).withOpsOf (r.removeEngineType engine) with
        engineToPhysicalOps := Function.update r.engineToPhysicalOps engine []
        engineToLogicalOps := Function.update r.engineToLogicalOps engine []
        engineToTransforms := Function.update r.engineToTransforms engine []
        engineToPreprocessingRules := Function.update r.engineToPreprocessingRules engine [] } := by
  have hphysical := removePhysicalOps_eq engine (r.removeEngineMaps engine)
  unfold removeEngineType
  generalize (r.removeEngineMaps engine).removePhysicalOps engine = r₁ at hphysical ⊢
  have hlogical := removeLogicalOps_eq engine r₁
  generalize r₁.removeLogicalOps engine = r₂ at hlogical ⊢
  have htransforms := removeTransforms_eq engine r₂
  generalize r₂.removeTransforms engine = r₃ at htransforms ⊢
  have hrules := removePreprocessingRules_eq engine r₃
  generalize r₃.removePreprocessingRules engine = r₄ at hrules ⊢
  rw [hrules, htransforms, hlogical, hphysical]
  rfl

/-- The engine that a name removes. -/
def engineOf (r : DynamicRegistry) (engineName : String) : EEngineType :=
  (r.engineNameToEngineType engineName).getD eetGP

theorem removeEngine_eq (engineName : String) (r : DynamicRegistry) : r.removeEngine engineName =
    { (r.removeEngineMaps (r.engineOf engineName)).withOpsOf
          (r.removeEngineType (r.engineOf engineName)) with
        engineToPhysicalOps := Function.update r.engineToPhysicalOps (r.engineOf engineName) []
        engineToLogicalOps := Function.update r.engineToLogicalOps (r.engineOf engineName) []
        engineToTransforms := Function.update r.engineToTransforms (r.engineOf engineName) []
        engineToPreprocessingRules :=
          Function.update r.engineToPreprocessingRules (r.engineOf engineName) []
        engineNameToEngineType := Function.update r.engineNameToEngineType engineName none } :=
  congrArg (fun s : DynamicRegistry => { s with
      engineNameToEngineType := Function.update s.engineNameToEngineType engineName none })
    (removeEngineType_eq (r.engineOf engineName) r)

theorem removeEngine_engineNameToEngineType (engineName : String) (r : DynamicRegistry) :
    (r.removeEngine engineName).engineNameToEngineType =
      Function.update r.engineNameToEngineType engineName none := by
  rw [removeEngine_eq]

theorem removeEngine_engineTypeToEngineName (engineName : String) (r : DynamicRegistry) :
    (r.removeEngine engineName).engineTypeToEngineName =
      Function.update r.engineTypeToEngineName (r.engineOf engineName) none := by
  rw [removeEngine_eq]
  rfl

theorem removeEngine_currentEngineType (engineName : String) (r : DynamicRegistry) :
    (r.removeEngine engineName).currentEngineType = r.currentEngineType := by
  rw [removeEngine_eq]
  rfl

/-- The three maps of flags lose the pairs with the engine. -/
theorem preserveFlags_removeEngine (engineName : String) (r : DynamicRegistry)
    (src dst : EEngineType) : (r.removeEngine engineName).preserveFlags src dst =
      if src = r.engineOf engineName ∨ dst = r.engineOf engineName then ⟨false, false, false⟩
      else r.preserveFlags src dst := by
  rw [removeEngine_eq]
  simp only [preserveFlags, getEnginePreserveOrder, getEnginePreserveDistribution,
    getEnginePreserveRewindability, withOpsOf, removeEngineMaps, removeEngineFromMap]
  by_cases hpair : src = r.engineOf engineName ∨ dst = r.engineOf engineName
  · simp only [if_pos hpair, Option.getD_none]
  · simp only [if_neg hpair]

/-! ## Engine ids -/

/-- Ids are given out once: two names never share one. -/
structure EngineIds (r : DynamicRegistry) : Prop where
  named : ∀ name engine, r.engineNameToEngineType name = some engine →
    engine ≤ r.currentEngineType
  unique : ∀ name name' engine, r.engineNameToEngineType name = some engine →
    r.engineNameToEngineType name' = some engine → name = name'
  typed : ∀ engine, (r.engineTypeToEngineName engine).isSome → engine ≤ r.currentEngineType
  builtin : eetGP ≤ r.currentEngineType

theorem init_engineIds (costFunctions : EOperatorId → Option FnCost)
    (pcp : EEngineType → Option ICostModelParams) : (init costFunctions pcp).EngineIds where
  named name engine h := by
    simp only [init, Option.ite_none_right_eq_some, Option.some.injEq] at h ⊢
    simp [← h.2, eetGP, eetDynamicStart]
  unique name name' engine h h' := by
    simp only [init, Option.ite_none_right_eq_some] at h h'
    rw [h.1, h'.1]
  typed engine h := by
    by_cases heq : engine = eetGP
    · simp [heq, init, eetGP, eetDynamicStart]
    · simp [init, heq] at h
  builtin := by simp [init, eetGP, eetDynamicStart]

variable {r : DynamicRegistry}

theorem EngineIds.registerEngine (h : r.EngineIds) (engineName : String) :
    (r.registerEngine engineName).EngineIds where
  named name engine hname := by
    simp only [DynamicRegistry.registerEngine] at hname ⊢
    by_cases heq : name = engineName
    · subst heq
      rw [Function.update_self] at hname
      exact (Option.some.inj hname).ge
    · rw [Function.update_of_ne heq] at hname
      exact Nat.le_succ_of_le (h.named name engine hname)
  unique name name' engine hname hname' := by
    simp only [DynamicRegistry.registerEngine] at hname hname'
    -- the new id is above the ids that are in use
    have hnew {name} (hne : name ≠ engineName) (hold : Function.update r.engineNameToEngineType
        engineName (some (r.currentEngineType + 1)) name = some (r.currentEngineType + 1)) :
        False := by
      rw [Function.update_of_ne hne] at hold
      exact absurd (h.named name _ hold) (Nat.not_succ_le_self _)
    by_cases heq : name = engineName <;> by_cases heq' : name' = engineName
    · rw [heq, heq']
    · subst heq
      rw [Function.update_self] at hname
      rw [← Option.some.inj hname] at hname'
      exact (hnew heq' hname').elim
    · subst heq'
      rw [Function.update_self] at hname'
      rw [← Option.some.inj hname'] at hname
      exact (hnew heq hname).elim
    · rw [Function.update_of_ne heq] at hname
      rw [Function.update_of_ne heq'] at hname'
      exact h.unique name name' engine hname hname'
  typed engine htype := by
    simp only [DynamicRegistry.registerEngine] at htype ⊢
    by_cases heq : engine = r.currentEngineType + 1
    · exact heq.le
    · rw [Function.update_of_ne heq] at htype
      exact Nat.le_succ_of_le (h.typed engine htype)
  builtin := Nat.le_succ_of_le h.builtin

theorem EngineIds.removeEngine (h : r.EngineIds) (engineName : String) :
    (r.removeEngine engineName).EngineIds := by
  have hname {name engine} (hname : (r.removeEngine engineName).engineNameToEngineType name =
      some engine) : r.engineNameToEngineType name = some engine := by
    rw [removeEngine_engineNameToEngineType] at hname
    by_cases heq : name = engineName
    · simp [heq] at hname
    · rwa [Function.update_of_ne heq] at hname
  refine ⟨fun name engine hn => ?_, fun name name' engine hn hn' => ?_, fun engine ht => ?_, ?_⟩
  · rw [removeEngine_currentEngineType]
    exact h.named name engine (hname hn)
  · exact h.unique name name' engine (hname hn) (hname hn')
  · rw [removeEngine_currentEngineType]
    rw [removeEngine_engineTypeToEngineName] at ht
    by_cases heq : engine = r.engineOf engineName
    · simp [heq] at ht
    · rw [Function.update_of_ne heq] at ht
      exact h.typed engine ht
  · rw [removeEngine_currentEngineType]
    exact h.builtin

theorem EngineIds.call (h : r.EngineIds) (c : Call) :
    (r.call c).EngineIds := by
  cases c with
  | removeEngine engineName => exact h.removeEngine engineName
  | register reg =>
    cases reg with
    | engine engineName => exact h.registerEngine engineName
    | _ => exact ⟨h.named, h.unique, h.typed, h.builtin⟩

theorem EngineIds.callAll (h : r.EngineIds) (calls : List Call) :
    (callAll calls r).EngineIds := by
  induction calls generalizing r with
  | nil => exact h
  | cons c calls ih => exact ih (h.call c)

variable {engine : EEngineType}

/-- An engine that is gone stays gone. -/
theorem not_registered_call (c : Call) (hle : engine ≤ r.currentEngineType)
    (hgone : ¬r.Registered engine) :
    engine ≤ (r.call c).currentEngineType ∧ ¬(r.call c).Registered engine := by
  cases c with
  | removeEngine engineName =>
    rw [DynamicRegistry.call, removeEngine_currentEngineType]
    refine ⟨hle, fun hreg => hgone ?_⟩
    rw [Registered, removeEngine_engineNameToEngineType,
      removeEngine_engineTypeToEngineName] at hreg
    rcases hreg with ⟨name, hname⟩ | htype
    · by_cases heq : name = engineName
      · simp [heq] at hname
      · rw [Function.update_of_ne heq] at hname
        exact .inl ⟨name, hname⟩
    · by_cases heq : engine = r.engineOf engineName
      · simp [heq] at htype
      · rw [Function.update_of_ne heq] at htype
        exact .inr htype
  | register reg =>
    cases reg with
    | engine engineName =>
      refine ⟨Nat.le_succ_of_le hle, fun hreg => hgone ?_⟩
      have hne : engine ≠ r.currentEngineType + 1 := Nat.ne_of_lt (Nat.lt_succ_of_le hle)
      simp only [Registered, DynamicRegistry.call, DynamicRegistry.register,
        DynamicRegistry.registerEngine] at hreg
      rcases hreg with ⟨name, hname⟩ | htype
      · by_cases heq : name = engineName
        · subst heq
          rw [Function.update_self] at hname
          exact absurd (Option.some.inj hname).symm hne
        · rw [Function.update_of_ne heq] at hname
          exact .inl ⟨name, hname⟩
      · rw [Function.update_of_ne hne] at htype
        exact .inr htype
    | _ => exact ⟨hle, hgone⟩

theorem not_registered_callAll (calls : List Call) (hle : engine ≤ r.currentEngineType)
    (hgone : ¬r.Registered engine) : ¬(DynamicRegistry.callAll calls r).Registered engine := by
  induction calls generalizing r with
  | nil => exact hgone
  | cons c calls ih =>
    obtain ⟨hle, hgone⟩ := not_registered_call c hle hgone
    exact ih hle hgone

/-- Once an engine is removed by its name it is never registered again. -/
theorem EngineIds.not_registered_removeEngine (h : r.EngineIds) {engineName : String}
    (hname : r.engineNameToEngineType engineName = some engine) (calls : List Call) :
    ¬(DynamicRegistry.callAll calls (r.removeEngine engineName)).Registered engine := by
  refine not_registered_callAll calls ?_ ?_
  · rw [removeEngine_currentEngineType]
    exact h.named _ _ hname
  · rw [Registered, removeEngine_engineNameToEngineType, removeEngine_engineTypeToEngineName,
      engineOf, hname]
    rintro (⟨name, hname'⟩ | htype)
    · by_cases heq : name = engineName
      · simp [heq] at hname'
      · rw [Function.update_of_ne heq] at hname'
        exact heq (h.unique _ _ _ hname' hname)
    · simp at htype

/-! ## Names that are not registered -/

/-- Nothing in the registry is keyed by the engine. -/
structure HoldsNothing (r : DynamicRegistry) (engine : EEngineType) : Prop where
  engineName : r.engineTypeToEngineName engine = none
  mdIdType : r.engineToMDIdType engine = none
  costModelParams : r.costModelParamsMap engine = none
  preserveOrder : ∀ key, key.1 = engine ∨ key.2 = engine → r.enginePreserveOrder key = none
  preserveDistribution : ∀ key, key.1 = engine ∨ key.2 = engine →
    r.enginePreserveDistribution key = none
  preserveRewindability : ∀ key, key.1 = engine ∨ key.2 = engine →
    r.enginePreserveRewindability key = none
  engineTransforms : ∀ key, key.1 = engine ∨ key.2 = engine → r.engineTransformMap key = none
  physicalOps : r.engineToPhysicalOps engine = []
  logicalOps : r.engineToLogicalOps engine = []
  transforms : r.engineToTransforms engine = []
  rules : r.engineToPreprocessingRules engine = []

theorem removeEngineFromMap_eq_self_iff {α : Type} {m : EEngineType × EEngineType → Option α} :
    removeEngineFromMap m engine = m ↔
      ∀ key, key.1 = engine ∨ key.2 = engine → m key = none := by
  refine ⟨fun h key hkey => ?_, fun h => funext fun key => ?_⟩
  · rw [← congrFun h key, removeEngineFromMap, if_pos hkey]
  · by_cases hkey : key.1 = engine ∨ key.2 = engine
    · rw [removeEngineFromMap, if_pos hkey, h key hkey]
    · rw [removeEngineFromMap, if_neg hkey]

/-- Removing an engine changes nothing exactly when there is nothing to remove. -/
theorem removeEngineType_eq_self_iff :
    r.removeEngineType engine = r ↔ r.HoldsNothing engine := by
  constructor
  · intro h
    have hmaps := removeEngineType_eq engine r
    rw [h] at hmaps
    refine ⟨?_, ?_, ?_, ?_, ?_, ?_, ?_, ?_, ?_, ?_, ?_⟩
    · rw [hmaps]; exact Function.update_self ..
    · rw [hmaps]; exact Function.update_self ..
    · rw [hmaps]; exact Function.update_self ..
    · exact removeEngineFromMap_eq_self_iff.1 (congrArg enginePreserveOrder hmaps).symm
    · exact removeEngineFromMap_eq_self_iff.1 (congrArg enginePreserveDistribution hmaps).symm
    · exact removeEngineFromMap_eq_self_iff.1 (congrArg enginePreserveRewindability hmaps).symm
    · exact removeEngineFromMap_eq_self_iff.1 (congrArg engineTransformMap hmaps).symm
    · rw [hmaps]; exact Function.update_self ..
    · rw [hmaps]; exact Function.update_self ..
    · rw [hmaps]; exact Function.update_self ..
    · rw [hmaps]; exact Function.update_self ..
  · intro h
    have hmaps : r.removeEngineMaps engine = r := by
      rw [removeEngineMaps, removeEngineFromMap_eq_self_iff.2 h.preserveOrder,
        removeEngineFromMap_eq_self_iff.2 h.preserveDistribution,
        removeEngineFromMap_eq_self_iff.2 h.preserveRewindability,
        removeEngineFromMap_eq_self_iff.2 h.engineTransforms,
        Function.update_eq_self_iff.2 h.engineName.symm,
        Function.update_eq_self_iff.2 h.mdIdType.symm,
        Function.update_eq_self_iff.2 h.costModelParams.symm]
    have hphysical : r.removePhysicalOps engine = r := by
      rw [removePhysicalOps, h.physicalOps, Function.update_eq_self_iff.2 h.physicalOps.symm]
      rfl
    have hlogical : r.removeLogicalOps engine = r := by
      rw [removeLogicalOps, h.logicalOps, Function.update_eq_self_iff.2 h.logicalOps.symm]
      rfl
    have htransforms : r.removeTransforms engine = r := by
      rw [removeTransforms, h.transforms, Function.update_eq_self_iff.2 h.transforms.symm]
      rfl
    have hrules : r.removePreprocessingRules engine = r := by
      rw [removePreprocessingRules, h.rules, Function.update_eq_self_iff.2 h.rules.symm]
      rfl
    rw [removeEngineType, hmaps, hphysical, hlogical, htransforms, hrules]

/-- **A name that is not registered.** Removing it changes nothing exactly when the registry holds
    nothing for the engine 0. -/
theorem removeEngine_unregistered_iff (r : DynamicRegistry) (engineName : String)
    (hname : r.engineNameToEngineType engineName = none) :
    r.removeEngine engineName = r ↔ r.HoldsNothing eetGP := by
  have hengine : r.engineOf engineName = eetGP := by rw [engineOf, hname]; rfl
  have hnames : (r.removeEngineType eetGP).engineNameToEngineType = r.engineNameToEngineType := by
    rw [removeEngineType_eq]
    rfl
  have hremove : r.removeEngine engineName = r.removeEngineType eetGP := by
    have hself : r.removeEngine engineName = { r.removeEngineType (r.engineOf engineName) with
        engineNameToEngineType := Function.update
          (r.removeEngineType (r.engineOf engineName)).engineNameToEngineType engineName none } :=
      rfl
    rw [hself, hengine, hnames, Function.update_eq_self_iff.2 hname.symm, ← hnames]
  rw [hremove, removeEngineType_eq_self_iff]

/-- The built-in engine loses its name. -/
theorem removeEngine_unregistered_init :
    let r := init (fun _ => none) (fun _ => none)
    r.engineNameToEngineType "nosuch" = none ∧ r.engineTypeToEngineName eetGP = some "GP" ∧
      (r.removeEngine "nosuch").engineTypeToEngineName eetGP = none ∧
      r.removeEngine "nosuch" ≠ r := by
  have hlost : ((init (fun _ => none) (fun _ => none)).removeEngine
      "nosuch").engineTypeToEngineName eetGP = none := by decide
  refine ⟨by decide, by decide, hlost, fun h => ?_⟩
  rw [h] at hlost
  exact absurd hlost (by decide)

/-- After it has lost everything, a second such call changes nothing. -/
theorem removeEngine_unregistered_iff_twice :
    let r := (init (fun _ => none) (fun _ => none)).removeEngine "nosuch"
    r.removeEngine "nosuch" = r :=
  (removeEngine_unregistered_iff _ "nosuch" (by decide)).2
    ⟨by decide, by decide, by decide, fun _ h => if_pos h, fun _ h => if_pos h,
      fun _ h => if_pos h, fun _ h => if_pos h, by decide, by decide, by decide, by decide⟩

/-! ## Reading the flags back -/

/-- Another call leaves the flags alone, unless it removes the engine 0 by mistake. -/
theorem EngineIds.preserveFlags_call (h : r.EngineIds) {c : Call} {calls : List Call}
    {src dst : EEngineType} (hother : ¬c.Registers src dst)
    (hsrc : (DynamicRegistry.callAll (c :: calls) r).Registered src)
    (hdst : (DynamicRegistry.callAll (c :: calls) r).Registered dst) :
    (r.call c).preserveFlags src dst =
      if (src = eetGP ∨ dst = eetGP) ∧ c.removesUnknown r then ⟨false, false, false⟩
      else r.preserveFlags src dst := by
  cases c with
  | removeEngine engineName =>
    rw [DynamicRegistry.call, preserveFlags_removeEngine, engineOf, Call.removesUnknown]
    cases hname : r.engineNameToEngineType engineName with
    | none => simp
    | some engine =>
      have hne {engine'} (hreg : (DynamicRegistry.callAll (.removeEngine engineName :: calls)
          r).Registered engine') : engine' ≠ engine := by
        rintro rfl
        exact h.not_registered_removeEngine hname calls hreg
      simp [hne hsrc, hne hdst]
  | register reg =>
    rw [if_neg (by simp [Call.removesUnknown])]
    cases reg with
    | engineTransform src' dst' fnCost order distribution rewindability =>
      have hne : (src, dst) ≠ (src', dst') := by
        rintro heq
        obtain ⟨rfl, rfl⟩ := Prod.mk.inj heq
        exact hother ⟨rfl, rfl⟩
      simp [DynamicRegistry.call, DynamicRegistry.register, registerEngineTransform, preserveFlags,
        getEnginePreserveOrder, getEnginePreserveDistribution, getEnginePreserveRewindability,
        Function.update_of_ne hne]
    | _ => rfl

/-- The flags after a run without another registration of the pair. -/
theorem EngineIds.preserveFlags_callAll (h : r.EngineIds) {calls : List Call}
    {src dst : EEngineType} (hother : ∀ c ∈ calls, ¬c.Registers src dst)
    (hsrc : (DynamicRegistry.callAll calls r).Registered src)
    (hdst : (DynamicRegistry.callAll calls r).Registered dst) :
    (DynamicRegistry.callAll calls r).preserveFlags src dst =
      if (src = eetGP ∨ dst = eetGP) ∧ removesUnknown calls r then ⟨false, false, false⟩
      else r.preserveFlags src dst := by
  induction calls generalizing r with
  | nil => simp [removesUnknown, DynamicRegistry.callAll]
  | cons c calls ih =>
    rw [DynamicRegistry.callAll, ih (h.call c) (fun c hc => hother c (by simp [hc])) hsrc hdst,
      h.preserveFlags_call (hother c (by simp)) hsrc hdst, removesUnknown]
    by_cases hpair : src = eetGP ∨ dst = eetGP
    · cases c.removesUnknown r <;> simp [hpair]
    · simp [hpair]

/-- **What the getters return.** After any run, for engines that are registered, the getters return
    the flags of the last `RegisterEngineTransform` of the pair exactly when its last two flags
    are equal; if the engine 0 was wiped since then, exactly when no flag was set. -/
theorem preserveFlags_eq_iff (costFunctions : EOperatorId → Option FnCost)
    (pcp : EEngineType → Option ICostModelParams) (before after : List Call)
    (src dst : EEngineType) (fnCost : FnCost) (flags : PreserveFlags)
    (hlast : ∀ c ∈ after, ¬c.Registers src dst) :
    let registered := callAll (before ++ [.register (.engineTransform src dst fnCost flags.order
      flags.distribution flags.rewindability)]) (init costFunctions pcp)
    let r := callAll after registered
    r.Registered src → r.Registered dst →
      (r.preserveFlags src dst = flags ↔
        if (src = eetGP ∨ dst = eetGP) ∧ removesUnknown after registered then
          flags = ⟨false, false, false⟩
        else flags.rewindability = flags.distribution) := by
  intro registered r hsrc hdst
  have hids : registered.EngineIds := (init_engineIds costFunctions pcp).callAll _
  have hflags : registered.preserveFlags src dst =
      ⟨flags.order, flags.distribution, flags.distribution⟩ := by
    simp [registered, callAll_append, callAll, call, register, registerEngineTransform,
      preserveFlags, getEnginePreserveOrder, getEnginePreserveDistribution,
      getEnginePreserveRewindability]
  have hrun : r.preserveFlags src dst = _ := hids.preserveFlags_callAll hlast hsrc hdst
  rw [hrun, hflags]
  obtain ⟨order, distribution, rewindability⟩ := flags
  split
  · exact eq_comm
  · simp [eq_comm]

section Examples

/-- A transition into the engine 3 that only preserves the distribution. -/
def distributionOnly : List Call :=
  [.register (.engine "A"), .register (.engineTransform eetGP 3 1 false true false)]

/-- It is read back as preserving rewindability as well. -/
theorem preserveFlags_distributionOnly :
    let r := callAll distributionOnly (init (fun _ => none) (fun _ => none))
    r.engineNameToEngineType "GP" = some eetGP ∧ r.engineNameToEngineType "A" = some 3 ∧
      r.preserveFlags eetGP 3 = ⟨false, true, true⟩ ∧
      r.preserveFlags eetGP 3 ≠ ⟨false, true, false⟩ := by
  decide

/-- Equal flags are read back, after a registration for another pair and a removal. -/
theorem preserveFlags_eq_iff_twoEngines :
    let r := callAll [.register (.engineTransform 3 4 1 true true true), .removeEngine "B"]
      (callAll ([.register (.engine "A"), .register (.engine "B")] ++
        [.register (.engineTransform eetGP 3 1 false true true)])
        (init (fun _ => none) (fun _ => none)))
    r.preserveFlags eetGP 3 = ⟨false, true, true⟩ :=
  (preserveFlags_eq_iff (fun _ => none) (fun _ => none) _ _ eetGP 3 1 ⟨false, true, true⟩
    (by simp [Call.Registers]) (.inl ⟨"GP", by decide⟩) (.inl ⟨"A", by decide⟩)).2 (by decide)

end Examples

end DynamicRegistry

end BossOptimizer

import BossOptimizer.Cost.CCost

/-!
# The dynamic registry (DynamicRegistry.cpp, DynamicRegistry.hpp)

Engines register operators, transforms, rules and costs at run time and are removed with all of
them. A `std::unordered_map` is a function to `Option`, a map to vectors a function to lists (no
entry and an empty vector are the same to every reader), a set a function to `Bool`. Functions and
parameters that are only stored and handed out are numbers.

Translators (their converters are not part of the repository), the tables of default operators and
the auxiliary state are left out: no registration below reads or writes them.
-/

namespace BossOptimizer

abbrev EOperatorId := ℕ

abbrev EXformId := ℕ

abbrev EMDIdType := ℕ

abbrev FnCost := ℕ

abbrev FnOperatorFactory := ℕ

abbrev PreprocessingRule := ℕ

abbrev ICostModelParams := ℕ

/-- `EopDynamicStart` (COperator.h:275), the number of built-in operators. -/
def eopDynamicStart : EOperatorId := 154

/-- `ExfDynamicStart` (CXform.h:228). -/
def exfDynamicStart : EXformId := 152

/-- `EetDynamicStart` (EEngineType.hpp:21). -/
def eetDynamicStart : EEngineType := 2

/-- `EmdidDynamicStart` (IMDId.h:81). -/
def emdidDynamicStart : EMDIdType := 1000

/-- The registry with the maps of its cost model and the trace flags that disable xforms. -/
@[ext] structure DynamicRegistry where
  currentOperatorId : EOperatorId
  currentTransformId : EXformId
  currentEngineType : EEngineType
  currentMDIdType : EMDIdType
  opEngineAndNameToOperatorId : EEngineType × String → Option EOperatorId
  transformNameToTransformId : String → Option EXformId
  engineNameToEngineType : String → Option EEngineType
  engineTypeToEngineName : EEngineType → Option String
  preprocessingRules : String → Option PreprocessingRule
  projectOperators : EOperatorId → Bool
  relevantTransforms : EOperatorId → List EXformId
  opFactories : EXformId → List (EOperatorId × FnOperatorFactory)
  enginePreserveOrder : EEngineType × EEngineType → Option Bool
  enginePreserveDistribution : EEngineType × EEngineType → Option Bool
  enginePreserveRewindability : EEngineType × EEngineType → Option Bool
  engineToMDIdType : EEngineType → Option (EMDIdType × String)
  engineToPhysicalOps : EEngineType → List String
  engineToLogicalOps : EEngineType → List String
  engineToTransforms : EEngineType → List String
  engineToPreprocessingRules : EEngineType → List String
  costMap : EOperatorId → Option FnCost
  costModelParamsMap : EEngineType → Option ICostModelParams
  engineTransformMap : EEngineType × EEngineType → Option FnCost
  disabledXforms : EXformId → Bool

namespace DynamicRegistry

/-- The registry at the start: the cost model has cost functions for built-in operators and
    parameters. -/
def init (costFunctions : EOperatorId → Option FnCost)
    (pcp : EEngineType → Option ICostModelParams) : DynamicRegistry where
  currentOperatorId := eopDynamicStart
  currentTransformId := exfDynamicStart
  currentEngineType := eetDynamicStart
  currentMDIdType := emdidDynamicStart
  opEngineAndNameToOperatorId _ := none
  transformNameToTransformId _ := none
  engineNameToEngineType name := if name = "GP" then some eetGP else none
  engineTypeToEngineName engine := if engine = eetGP then some "GP" else none
  preprocessingRules _ := none
  projectOperators _ := false
  relevantTransforms _ := []
  opFactories _ := []
  enginePreserveOrder _ := none
  enginePreserveDistribution _ := none
  enginePreserveRewindability _ := none
  engineToMDIdType _ := none
  engineToPhysicalOps _ := []
  engineToLogicalOps _ := []
  engineToTransforms _ := []
  engineToPreprocessingRules _ := []
  costMap id := if id < eopDynamicStart then costFunctions id else none
  costModelParamsMap := pcp
  engineTransformMap _ := none
  disabledXforms _ := false

/-- `map[engine].push_back(name)`. -/
def pushBack {α β : Type} [DecidableEq α] (m : α → List β) (key : α) (x : β) : α → List β :=
  Function.update m key (m key ++ [x])

/-! ## Registrations -/

/-- `RegisterPhysicalOperator` (DynamicRegistry.cpp:39). -/
def registerPhysicalOperator (opName : String) (engine : EEngineType) (costFunc : FnCost)
    (r : DynamicRegistry) : DynamicRegistry :=
  { r with
    currentOperatorId := r.currentOperatorId + 1
    costMap := Function.update r.costMap (r.currentOperatorId + 1) (some costFunc)
    opEngineAndNameToOperatorId := Function.update r.opEngineAndNameToOperatorId (engine, opName)
      (some (r.currentOperatorId + 1))
    engineToPhysicalOps := pushBack r.engineToPhysicalOps engine opName }

/-- `RegisterLogicalOperator` (DynamicRegistry.cpp:46). -/
def registerLogicalOperator (opName : String) (engine : EEngineType) (isAProject : Bool)
    (r : DynamicRegistry) : DynamicRegistry :=
  { r with
    currentOperatorId := r.currentOperatorId + 1
    opEngineAndNameToOperatorId := Function.update r.opEngineAndNameToOperatorId (engine, opName)
      (some (r.currentOperatorId + 1))
    projectOperators :=
      if isAProject then Function.update r.projectOperators (r.currentOperatorId + 1) true
      else r.projectOperators
    engineToLogicalOps := pushBack r.engineToLogicalOps engine opName }

/-- `HookOpToTransform` (DynamicRegistry.cpp:55). -/
def hookOpToTransform (transformId : EXformId) (opId : EOperatorId) (opFactory : FnOperatorFactory)
    (r : DynamicRegistry) : DynamicRegistry :=
  { r with opFactories := pushBack r.opFactories transformId (opId, opFactory) }

/-- `HookTransformToOp` (DynamicRegistry.cpp:59). -/
def hookTransformToOp (opId : EOperatorId) (transformId : EXformId) (r : DynamicRegistry) :
    DynamicRegistry :=
  { r with relevantTransforms := pushBack r.relevantTransforms opId transformId }

/-- `RegisterTransform` (DynamicRegistry.cpp:84). -/
def registerTransform (transformName : String) (engine : EEngineType) (r : DynamicRegistry) :
    DynamicRegistry :=
  { r with
    currentTransformId := r.currentTransformId + 1
    transformNameToTransformId := Function.update r.transformNameToTransformId transformName
      (some (r.currentTransformId + 1))
    engineToTransforms := pushBack r.engineToTransforms engine transformName }

/-- `RegisterEngine` (DynamicRegistry.cpp:107). -/
def registerEngine (engineName : String) (r : DynamicRegistry) : DynamicRegistry :=
  { r with
    currentEngineType := r.currentEngineType + 1
    engineNameToEngineType := Function.update r.engineNameToEngineType engineName
      (some (r.currentEngineType + 1))
    engineTypeToEngineName := Function.update r.engineTypeToEngineName (r.currentEngineType + 1)
      (some engineName)
    currentMDIdType := r.currentMDIdType + 1
    engineToMDIdType := Function.update r.engineToMDIdType (r.currentEngineType + 1)
      (some (r.currentMDIdType + 1, engineName)) }

/-- `RegisterCostModelParams` (DynamicRegistry.hpp:272). -/
def registerCostModelParams (engine : EEngineType) (pcp : ICostModelParams) (r : DynamicRegistry) :
    DynamicRegistry :=
  { r with costModelParamsMap := Function.update r.costModelParamsMap engine (some pcp) }

/-- `RegisterEngineTransform` (DynamicRegistry.hpp:276). Rewindability is given what was meant for
    the distribution. -/
def registerEngineTransform (src dst : EEngineType) (fnCost : FnCost)
    (preserveOrder preserveDistribution _preserveRewindability : Bool) (r : DynamicRegistry) :
    DynamicRegistry :=
  { r with
    engineTransformMap := Function.update r.engineTransformMap (src, dst) (some fnCost)
    enginePreserveOrder := Function.update r.enginePreserveOrder (src, dst) (some preserveOrder)
    enginePreserveDistribution := Function.update r.enginePreserveDistribution (src, dst)
      (some preserveDistribution)
    enginePreserveRewindability := Function.update r.enginePreserveRewindability (src, dst)
      (some preserveDistribution) }

/-- `RegisterPreprocessingRule` (DynamicRegistry.hpp:422). -/
def registerPreprocessingRule (ruleName : String) (preprocessingRule : PreprocessingRule)
    (engineType : EEngineType) (r : DynamicRegistry) : DynamicRegistry :=
  { r with
    preprocessingRules := Function.update r.preprocessingRules ruleName (some preprocessingRule)
    engineToPreprocessingRules := pushBack r.engineToPreprocessingRules engineType ruleName }

/-- `RegisterCostFunctionForOperator` (DynamicRegistry.hpp:481). -/
def registerCostFunctionForOperator (opId : EOperatorId) (costFunc : FnCost)
    (r : DynamicRegistry) : DynamicRegistry :=
  { r with costMap := Function.update r.costMap opId (some costFunc) }

/-! ## Removing an engine -/

/-- `removeEngineFromMap` (DynamicRegistry.cpp:134), and `RemoveEngineTransform`
    (BOSSCostModel.cpp:2042), the same loop over another map. -/
def removeEngineFromMap {α : Type} (m : EEngineType × EEngineType → Option α)
    (engineId : EEngineType) : EEngineType × EEngineType → Option α :=
  fun key => if key.1 = engineId ∨ key.2 = engineId then none else m key

/-- The loop over `opFactories`. -/
def removeFactories (opFactories : EXformId → List (EOperatorId × FnOperatorFactory))
    (id : EOperatorId) : EXformId → List (EOperatorId × FnOperatorFactory) :=
  fun xformId => (opFactories xformId).filter fun entry => entry.1 ≠ id

/-- `opEngineAndNameToOperatorId[p]`: a missing entry is the operator 0. -/
def operatorIdOf (r : DynamicRegistry) (engine : EEngineType) (op : String) : EOperatorId :=
  (r.opEngineAndNameToOperatorId (engine, op)).getD 0

/-- `transformNameToTransformId[transform]`. -/
def transformIdOf (r : DynamicRegistry) (transform : String) : EXformId :=
  (r.transformNameToTransformId transform).getD 0

/-- One step of the loop over the physical operators. -/
def removePhysicalOp (engine : EEngineType) (r : DynamicRegistry) (op : String) :
    DynamicRegistry :=
  { r with
    costMap := Function.update r.costMap (r.operatorIdOf engine op) none
    opEngineAndNameToOperatorId :=
      Function.update r.opEngineAndNameToOperatorId (engine, op) none
    opFactories := removeFactories r.opFactories (r.operatorIdOf engine op) }

/-- One step of the loop over the logical operators. -/
def removeLogicalOp (engine : EEngineType) (r : DynamicRegistry) (op : String) :
    DynamicRegistry :=
  { r with
    projectOperators := Function.update r.projectOperators (r.operatorIdOf engine op) false
    opEngineAndNameToOperatorId :=
      Function.update r.opEngineAndNameToOperatorId (engine, op) none
    relevantTransforms := Function.update r.relevantTransforms (r.operatorIdOf engine op) []
    opFactories := removeFactories r.opFactories (r.operatorIdOf engine op) }

/-- One step of the loop over the transforms. -/
def removeTransform (r : DynamicRegistry) (transform : String) : DynamicRegistry :=
  { r with
    disabledXforms := Function.update r.disabledXforms (r.transformIdOf transform) true
    transformNameToTransformId := Function.update r.transformNameToTransformId transform none
    opFactories := Function.update r.opFactories (r.transformIdOf transform) []
    relevantTransforms := fun opId =>
      (r.relevantTransforms opId).filter fun transformId => transformId ≠ r.transformIdOf transform }

/-- `RemovePreprocessingRule` (DynamicRegistry.hpp:427). -/
def removePreprocessingRule (r : DynamicRegistry) (ruleName : String) : DynamicRegistry :=
  { r with preprocessingRules := Function.update r.preprocessingRules ruleName none }

/-- The maps that are keyed by the engine. -/
def removeEngineMaps (engine : EEngineType) (r : DynamicRegistry) : DynamicRegistry :=
  { r with
    engineTypeToEngineName := Function.update r.engineTypeToEngineName engine none
    engineToMDIdType := Function.update r.engineToMDIdType engine none
    enginePreserveOrder := removeEngineFromMap r.enginePreserveOrder engine
    enginePreserveDistribution := removeEngineFromMap r.enginePreserveDistribution engine
    enginePreserveRewindability := removeEngineFromMap r.enginePreserveRewindability engine
    engineTransformMap := removeEngineFromMap r.engineTransformMap engine
    costModelParamsMap := Function.update r.costModelParamsMap engine none }

/-- The loop over the physical operators. -/
def removePhysicalOps (engine : EEngineType) (r : DynamicRegistry) : DynamicRegistry :=
  { (r.engineToPhysicalOps engine).foldl (removePhysicalOp engine) r with
    engineToPhysicalOps := Function.update r.engineToPhysicalOps engine [] }

/-- The loop over the logical operators. -/
def removeLogicalOps (engine : EEngineType) (r : DynamicRegistry) : DynamicRegistry :=
  { (r.engineToLogicalOps engine).foldl (removeLogicalOp engine) r with
    engineToLogicalOps := Function.update r.engineToLogicalOps engine [] }

/-- The loop over the transforms. -/
def removeTransforms (engine : EEngineType) (r : DynamicRegistry) : DynamicRegistry :=
  { (r.engineToTransforms engine).foldl removeTransform r with
    engineToTransforms := Function.update r.engineToTransforms engine [] }

/-- The loop over the preprocessing rules. -/
def removePreprocessingRules (engine : EEngineType) (r : DynamicRegistry) : DynamicRegistry :=
  { (r.engineToPreprocessingRules engine).foldl removePreprocessingRule r with
    engineToPreprocessingRules := Function.update r.engineToPreprocessingRules engine [] }

/-- `RemoveEngine(EEngineType)` (DynamicRegistry.cpp:147). -/
def removeEngineType (engine : EEngineType) (r : DynamicRegistry) : DynamicRegistry :=
  ((((r.removeEngineMaps engine).removePhysicalOps engine).removeLogicalOps engine).removeTransforms
    engine).removePreprocessingRules engine

/-- `RemoveEngine(std::string &)` (DynamicRegistry.hpp:448): a missing name is the engine 0. -/
def removeEngine (engineName : String) (r : DynamicRegistry) : DynamicRegistry :=
  let removed := r.removeEngineType ((r.engineNameToEngineType engineName).getD eetGP)
  { removed with
    engineNameToEngineType := Function.update removed.engineNameToEngineType engineName none }

end DynamicRegistry

end BossOptimizer

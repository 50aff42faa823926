import BossOptimizer.Registry.DynamicRegistry
import Mathlib.Data.List.Nodup

/-!
# What `RemoveEngine` removes

Who registered an entry is kept next to the registry: the engine of an operator id, of a transform
id, of a rule name. Removing an engine should leave the registry without its entries and nothing
else changed (`without`).

The maps of rules and transforms are keyed by the name alone, and a name that is registered twice
hides the first entry. As long as names are fresh when they are registered, and transforms are
hooked to logical and costs to physical operators, as is their purpose, `removeEngine` is `without`.
-/

namespace BossOptimizer

namespace DynamicRegistry

/-! ## Registrations and who made them -/

inductive Registration where
  | engine (engineName : String)
  | physicalOperator (opName : String) (engine : EEngineType) (costFunc : FnCost)
  | logicalOperator (opName : String) (engine : EEngineType) (isAProject : Bool)
  | transform (transformName : String) (engine : EEngineType)
  | hookOpToTransform (transformId : EXformId) (opId : EOperatorId) (opFactory : FnOperatorFactory)
  | hookTransformToOp (opId : EOperatorId) (transformId : EXformId)
  | costModelParams (engine : EEngineType) (pcp : ICostModelParams)
  | engineTransform (src dst : EEngineType) (fnCost : FnCost)
      (preserveOrder preserveDistribution preserveRewindability : Bool)
  | preprocessingRule (ruleName : String) (rule : PreprocessingRule) (engine : EEngineType)
  | costFunctionForOperator (opId : EOperatorId) (costFunc : FnCost)

/-- One call of the registry. -/
def register (r : DynamicRegistry) : Registration → DynamicRegistry
  | .engine engineName => r.registerEngine engineName
  | .physicalOperator opName engine costFunc => r.registerPhysicalOperator opName engine costFunc
  | .logicalOperator opName engine isAProject => r.registerLogicalOperator opName engine isAProject
  | .transform transformName engine => r.registerTransform transformName engine
  | .hookOpToTransform transformId opId opFactory => r.hookOpToTransform transformId opId opFactory
  | .hookTransformToOp opId transformId => r.hookTransformToOp opId transformId
  | .costModelParams engine pcp => r.registerCostModelParams engine pcp
  | .engineTransform src dst fnCost order distribution rewindability =>
    r.registerEngineTransform src dst fnCost order distribution rewindability
  | .preprocessingRule ruleName rule engine => r.registerPreprocessingRule ruleName rule engine
  | .costFunctionForOperator opId costFunc => r.registerCostFunctionForOperator opId costFunc

/-- The engine an operator, a transform and a rule were registered for. -/
structure Owners where
  op : EOperatorId → Option EEngineType
  xform : EXformId → Option EEngineType
  rule : String → Option EEngineType

def Owners.none : Owners := ⟨fun _ => .none, fun _ => .none, fun _ => .none⟩

/-- What a call adds to the owners: the ids it allocates and the name of its rule. -/
def Owners.register (own : Owners) (r : DynamicRegistry) : Registration → Owners
  | .physicalOperator _ engine _ | .logicalOperator _ engine _ =>
    { own with op := Function.update own.op (r.currentOperatorId + 1) (some engine) }
  | .transform _ engine =>
    { own with xform := Function.update own.xform (r.currentTransformId + 1) (some engine) }
  | .preprocessingRule ruleName _ engine =>
    { own with rule := Function.update own.rule ruleName (some engine) }
  | _ => own

/-- A sequence of calls. -/
def registerAll : List Registration → DynamicRegistry × Owners → DynamicRegistry × Owners
  | [], s => s
  | reg :: regs, s => registerAll regs (s.1.register reg, s.2.register s.1 reg)

/-- The registry without the entries of an engine, every other entry as it was. -/
def without (own : Owners) (engine : EEngineType) (r : DynamicRegistry) : DynamicRegistry :=
  { r with
    opEngineAndNameToOperatorId := fun key =>
      if key.1 = engine then none else r.opEngineAndNameToOperatorId key
    transformNameToTransformId := fun name =>
      (r.transformNameToTransformId name).filter fun id => own.xform id ≠ some engine
    engineNameToEngineType := fun name =>
      (r.engineNameToEngineType name).filter fun engineType => engineType ≠ engine
    engineTypeToEngineName := fun engineType =>
      if engineType = engine then none else r.engineTypeToEngineName engineType
    preprocessingRules := fun name =>
      if own.rule name = some engine then none else r.preprocessingRules name
    projectOperators := fun id => own.op id ≠ some engine && r.projectOperators id
    relevantTransforms := fun id =>
      if own.op id = some engine then []
      else (r.relevantTransforms id).filter fun transformId => own.xform transformId ≠ some engine
    opFactories := fun transformId =>
      if own.xform transformId = some engine then []
      else (r.opFactories transformId).filter fun entry => own.op entry.1 ≠ some engine
    enginePreserveOrder := removeEngineFromMap r.enginePreserveOrder engine
    enginePreserveDistribution := removeEngineFromMap r.enginePreserveDistribution engine
    enginePreserveRewindability := removeEngineFromMap r.enginePreserveRewindability engine
    engineToMDIdType := fun engineType =>
      if engineType = engine then none else r.engineToMDIdType engineType
    engineToPhysicalOps := fun engineType =>
      if engineType = engine then [] else r.engineToPhysicalOps engineType
    engineToLogicalOps := fun engineType =>
      if engineType = engine then [] else r.engineToLogicalOps engineType
    engineToTransforms := fun engineType =>
      if engineType = engine then [] else r.engineToTransforms engineType
    engineToPreprocessingRules := fun engineType =>
      if engineType = engine then [] else r.engineToPreprocessingRules engineType
    costMap := fun id => if own.op id = some engine then none else r.costMap id
    costModelParamsMap := fun engineType =>
      if engineType = engine then none else r.costModelParamsMap engineType
    engineTransformMap := removeEngineFromMap r.engineTransformMap engine
    disabledXforms := fun id => own.xform id = some engine || r.disabledXforms id }

/-- The registration hides no entry: names are fresh, transforms are hooked to built-in or logical
    operators, cost functions are set for built-in or physical operators. -/
def Fresh (r : DynamicRegistry) : Registration → Prop
  | .engine engineName => r.engineNameToEngineType engineName = none
  | .physicalOperator opName engine _ | .logicalOperator opName engine _ =>
    r.opEngineAndNameToOperatorId (engine, opName) = none
  | .transform transformName _ => r.transformNameToTransformId transformName = none
  | .hookTransformToOp opId _ => opId ≤ eopDynamicStart ∨ ∃ engine, ∃ opName ∈
      r.engineToLogicalOps engine, r.opEngineAndNameToOperatorId (engine, opName) = some opId
  | .preprocessingRule ruleName _ engine =>
    r.preprocessingRules ruleName = none ∨ ruleName ∈ r.engineToPreprocessingRules engine
  | .costFunctionForOperator opId _ => opId ≤ eopDynamicStart ∨ ∃ engine, ∃ opName ∈
      r.engineToPhysicalOps engine, r.opEngineAndNameToOperatorId (engine, opName) = some opId
  | .hookOpToTransform .. | .costModelParams .. | .engineTransform .. => True

/-- Each registration is fresh when it is made. -/
def AllFresh : List Registration → DynamicRegistry → Prop
  | [], _ => True
  | reg :: regs, r => r.Fresh reg ∧ AllFresh regs (r.register reg)

/-! ## The loops -/

variable {α β : Type}

attribute [local simp] register Fresh in
/-- An entry that is erased first is erased with the others. -/
theorem ite_update [DecidableEq α] (m : α → β) (a : α) (b : β) (p : α → Prop) [DecidablePred p] :
    (fun key => if p key then b else Function.update m a b key) =
      fun key => if key = a ∨ p key then b else m key := by
  funext key
  by_cases hkey : key = a
  · simp [hkey]
  · simp [hkey]

theorem filter_filter_notMem [DecidableEq β] (f : α → β) (l : List α) (b : β)
    (bs : List β) : (l.filter fun x => f x ≠ b).filter (fun x => f x ∉ bs) =
      l.filter fun x => f x ∉ b :: bs := by
  rw [List.filter_filter]
  refine List.filter_congr fun x _ => ?_
  simp only [List.mem_cons, not_or, Bool.decide_and]
  exact Bool.and_comm _ _

/-- The ids of names of operators. -/
def operatorIds (r : DynamicRegistry) (engine : EEngineType) (ops : List String) :
    List EOperatorId :=
  ops.map (r.operatorIdOf engine)

theorem operatorIds_cons (r : DynamicRegistry) (engine : EEngineType) (op : String)
    (ops : List String) : r.operatorIds engine (op :: ops) =
      r.operatorIdOf engine op :: r.operatorIds engine ops := rfl

/-- The ids of names of transforms. -/
def transformIds (r : DynamicRegistry) (transforms : List String) : List EXformId :=
  transforms.map r.transformIdOf

theorem transformIds_cons (r : DynamicRegistry) (transform : String) (transforms : List String) :
    r.transformIds (transform :: transforms) =
      r.transformIdOf transform :: r.transformIds transforms := rfl

/-- The loop over the physical operators, all at once. -/
theorem foldl_removePhysicalOp (engine : EEngineType) {ops : List String} (hnd : ops.Nodup)
    (r : DynamicRegistry) :
    ops.foldl (removePhysicalOp engine) r = { r with
      costMap := fun id => if id ∈ r.operatorIds engine ops then none else r.costMap id
      opEngineAndNameToOperatorId := fun key =>
        if key.1 = engine ∧ key.2 ∈ ops then none else r.opEngineAndNameToOperatorId key
      opFactories := fun xformId => (r.opFactories xformId).filter fun entry =>
        entry.1 ∉ r.operatorIds engine ops } := by
  induction ops generalizing r with
  | nil => simp [operatorIds]
  | cons op ops ih =>
    obtain ⟨hop, hnd⟩ := List.nodup_cons.1 hnd
    have hids : (removePhysicalOp engine r op).operatorIds engine ops = r.operatorIds engine ops := by
      refine List.map_congr_left fun op' hop' => ?_
      have hne : op' ≠ op := fun h => hop (h ▸ hop')
      simp [operatorIdOf, removePhysicalOp, hne]
    rw [List.foldl_cons, ih hnd, hids]
    simp only [removePhysicalOp, removeFactories, operatorIds_cons]
    congr 1
    · rw [ite_update]
      funext ⟨engine', op'⟩
      simp only [Prod.mk.injEq, List.mem_cons, and_or_left]
    · exact funext fun xformId => filter_filter_notMem Prod.fst _ _ _
    · rw [ite_update]
      simp only [List.mem_cons]

/-- The loop over the logical operators, all at once. -/
theorem foldl_removeLogicalOp (engine : EEngineType) {ops : List String} (hnd : ops.Nodup)
    (r : DynamicRegistry) :
    ops.foldl (removeLogicalOp engine) r = { r with
      projectOperators := fun id =>
        if id ∈ r.operatorIds engine ops then false else r.projectOperators id
      opEngineAndNameToOperatorId := fun key =>
        if key.1 = engine ∧ key.2 ∈ ops then none else r.opEngineAndNameToOperatorId key
      relevantTransforms := fun id =>
        if id ∈ r.operatorIds engine ops then [] else r.relevantTransforms id
      opFactories := fun xformId => (r.opFactories xformId).filter fun entry =>
        entry.1 ∉ r.operatorIds engine ops } := by
  induction ops generalizing r with
  | nil => simp [operatorIds]
  | cons op ops ih =>
    obtain ⟨hop, hnd⟩ := List.nodup_cons.1 hnd
    have hids : (removeLogicalOp engine r op).operatorIds engine ops = r.operatorIds engine ops := by
      refine List.map_congr_left fun op' hop' => ?_
      have hne : op' ≠ op := fun h => hop (h ▸ hop')
      simp [operatorIdOf, removeLogicalOp, hne]
    rw [List.foldl_cons, ih hnd, hids]
    simp only [removeLogicalOp, removeFactories, operatorIds_cons]
    congr 1
    · rw [ite_update]
      funext ⟨engine', op'⟩
      simp only [Prod.mk.injEq, List.mem_cons, and_or_left]
    · rw [ite_update]
      simp only [List.mem_cons]
    · rw [ite_update]
      simp only [List.mem_cons]
    · exact funext fun xformId => filter_filter_notMem Prod.fst _ _ _

/-- The loop over the transforms, all at once. -/
theorem foldl_removeTransform {transforms : List String} (hnd : transforms.Nodup)
    (r : DynamicRegistry) :
    transforms.foldl removeTransform r = { r with
      disabledXforms := fun id => if id ∈ r.transformIds transforms then true else r.disabledXforms id
      transformNameToTransformId := fun name =>
        if name ∈ transforms then none else r.transformNameToTransformId name
      opFactories := fun id => if id ∈ r.transformIds transforms then [] else r.opFactories id
      relevantTransforms := fun opId => (r.relevantTransforms opId).filter fun transformId =>
        transformId ∉ r.transformIds transforms } := by
  induction transforms generalizing r with
  | nil => simp [transformIds]
  | cons transform transforms ih =>
    obtain ⟨htransform, hnd⟩ := List.nodup_cons.1 hnd
    have hids : (removeTransform r transform).transformIds transforms = r.transformIds transforms := by
      refine List.map_congr_left fun name hname => ?_
      have hne : name ≠ transform := fun h => htransform (h ▸ hname)
      simp [transformIdOf, removeTransform, hne]
    rw [List.foldl_cons, ih hnd, hids]
    simp only [removeTransform, transformIds_cons]
    congr 1
    · rw [ite_update]
      simp only [List.mem_cons]
    · exact funext fun opId => filter_filter_notMem id _ _ _
    · rw [ite_update]
      simp only [List.mem_cons]
    · rw [ite_update]
      simp only [List.mem_cons]

/-- The loop over the preprocessing rules, all at once. -/
theorem foldl_removePreprocessingRule (rules : List String) (r : DynamicRegistry) :
    rules.foldl removePreprocessingRule r = { r with
      preprocessingRules := fun name =>
        if name ∈ rules then none else r.preprocessingRules name } := by
  induction rules generalizing r with
  | nil => simp
  | cons rule rules ih =>
    rw [List.foldl_cons, ih]
    simp only [removePreprocessingRule, List.mem_cons]
    congr 1
    rw [ite_update]

/-! ## What holds while names are fresh -/

theorem mem_pushBack [DecidableEq α] {m : α → List β} {key key' : α} {x y : β} :
    y ∈ pushBack m key x key' ↔ y ∈ m key' ∨ key' = key ∧ y = x := by
  unfold pushBack
  by_cases hkey : key' = key
  · subst hkey
    simp
  · simp [hkey]

theorem nodup_pushBack [DecidableEq α] {m : α → List β} {key key' : α} {x : β} (h : (m key').Nodup)
    (hx : key' = key → x ∉ m key') : (pushBack m key x key').Nodup := by
  unfold pushBack
  by_cases hkey : key' = key
  · subst hkey
    rw [Function.update_self]
    refine List.nodup_append.2 ⟨h, List.nodup_singleton x, fun y hy z hz heq => hx rfl ?_⟩
    rw [← List.mem_singleton.1 hz, ← heq]
    exact hy
  · rwa [Function.update_of_ne hkey]

/-- The operators: every id has its name, and ids with costs, in the set of projects or with
    transforms are those of built-in, physical or logical operators. -/
structure OpsInv (r : DynamicRegistry) (own : Owners) : Prop where
  current : eopDynamicStart ≤ r.currentOperatorId
  range : ∀ id engine, own.op id = some engine → eopDynamicStart < id ∧ id ≤ r.currentOperatorId
  named : ∀ id engine, own.op id = some engine ↔
    ∃ op, r.opEngineAndNameToOperatorId (engine, op) = some id
  listed : ∀ engine op, (r.opEngineAndNameToOperatorId (engine, op)).isSome ↔
    op ∈ r.engineToPhysicalOps engine ∨ op ∈ r.engineToLogicalOps engine
  physical : ∀ engine, (r.engineToPhysicalOps engine).Nodup
  logical : ∀ engine, (r.engineToLogicalOps engine).Nodup
  disjoint : ∀ engine, ∀ op ∈ r.engineToLogicalOps engine, op ∉ r.engineToPhysicalOps engine
  cost : ∀ id, (r.costMap id).isSome → id ≤ eopDynamicStart ∨ ∃ engine,
    ∃ op ∈ r.engineToPhysicalOps engine, r.opEngineAndNameToOperatorId (engine, op) = some id
  project : ∀ id, r.projectOperators id = true → ∃ engine,
    ∃ op ∈ r.engineToLogicalOps engine, r.opEngineAndNameToOperatorId (engine, op) = some id
  relevant : ∀ id, r.relevantTransforms id ≠ [] → id ≤ eopDynamicStart ∨ ∃ engine,
    ∃ op ∈ r.engineToLogicalOps engine, r.opEngineAndNameToOperatorId (engine, op) = some id

/-- The transforms: every id has its name. -/
structure XformsInv (r : DynamicRegistry) (own : Owners) : Prop where
  range : ∀ id engine, own.xform id = some engine → id ≤ r.currentTransformId
  named : ∀ id engine, own.xform id = some engine ↔ ∃ transform ∈ r.engineToTransforms engine,
    r.transformNameToTransformId transform = some id
  listed : ∀ transform, (r.transformNameToTransformId transform).isSome ↔
    ∃ engine, transform ∈ r.engineToTransforms engine
  nodup : ∀ engine, (r.engineToTransforms engine).Nodup

/-- The rules: every rule is listed with the engine that registered it. -/
structure RulesInv (r : DynamicRegistry) (own : Owners) : Prop where
  owned : ∀ engine, ∀ rule ∈ r.engineToPreprocessingRules engine, own.rule rule = some engine
  listed : ∀ rule, (r.preprocessingRules rule).isSome →
    ∃ engine, rule ∈ r.engineToPreprocessingRules engine
  present : ∀ engine, ∀ rule ∈ r.engineToPreprocessingRules engine,
    (r.preprocessingRules rule).isSome

/-- The engines: names and types correspond. -/
def EnginesInv (r : DynamicRegistry) : Prop :=
  ∀ name engine, r.engineNameToEngineType name = some engine →
    engine ≤ r.currentEngineType ∧ r.engineTypeToEngineName engine = some name

structure Inv (r : DynamicRegistry) (own : Owners) : Prop where
  ops : r.OpsInv own
  xforms : r.XformsInv own
  rules : r.RulesInv own
  engines : r.EnginesInv

theorem init_inv (costFunctions : EOperatorId → Option FnCost)
    (pcp : EEngineType → Option ICostModelParams) :
    (init costFunctions pcp).Inv .none := by
  refine ⟨⟨le_rfl, ?_, ?_, ?_, ?_, ?_, ?_, ?_, ?_, ?_⟩, ⟨?_, ?_, ?_, ?_⟩, ⟨?_, ?_, ?_⟩, ?_⟩
  case refine_7 =>
    intro id hcost
    simp only [init] at hcost
    split_ifs at hcost with hid
    · exact .inl hid.le
    · cases hcost
  case refine_17 =>
    intro name engine h
    simp only [init] at h ⊢
    split_ifs at h with hname
    obtain rfl := Option.some.inj h
    exact ⟨by decide, by simp [hname]⟩
  all_goals simp [init, Owners.none]

variable {engine : EEngineType} {r : DynamicRegistry} {own : Owners}

/-- A new operator id and its name. -/
theorem OpsInv.named_update (h : r.OpsInv own) {opName : String}
    (hfresh : r.opEngineAndNameToOperatorId (engine, opName) = none) (id : EOperatorId)
    (engine' : EEngineType) :
    Function.update own.op (r.currentOperatorId + 1) (some engine) id = some engine' ↔
      ∃ op, Function.update r.opEngineAndNameToOperatorId (engine, opName)
        (some (r.currentOperatorId + 1)) (engine', op) = some id := by
  by_cases hid : id = r.currentOperatorId + 1
  · subst hid
    rw [Function.update_self]
    constructor
    · intro heq
      obtain rfl := Option.some.inj heq
      exact ⟨opName, Function.update_self ..⟩
    · rintro ⟨op, hop⟩
      by_cases hkey : (engine', op) = (engine, opName)
      · rw [(Prod.mk.inj hkey).1]
      · rw [Function.update_of_ne hkey] at hop
        have hle := (h.range _ _ ((h.named _ _).2 ⟨op, hop⟩)).2
        exact absurd hle (Nat.not_succ_le_self _)
  · rw [Function.update_of_ne hid, h.named]
    refine exists_congr fun op => ?_
    by_cases hkey : (engine', op) = (engine, opName)
    · rw [hkey, hfresh, Function.update_self]
      simp only [reduceCtorEq, Option.some.injEq, false_iff]
      exact fun heq => hid heq.symm
    · rw [Function.update_of_ne hkey]

/-- The new id is above all that are owned. -/
theorem OpsInv.range_update (h : r.OpsInv own) (id : EOperatorId) (engine' : EEngineType)
    (hid : Function.update own.op (r.currentOperatorId + 1) (some engine) id = some engine') :
    eopDynamicStart < id ∧ id ≤ r.currentOperatorId + 1 := by
  by_cases heq : id = r.currentOperatorId + 1
  · rw [heq]
    exact ⟨Nat.lt_succ_of_le h.current, le_rfl⟩
  · rw [Function.update_of_ne heq] at hid
    obtain ⟨hlt, hle⟩ := h.range id engine' hid
    exact ⟨hlt, Nat.le_succ_of_le hle⟩

/-- A name that is registered keeps its id when another one is registered. -/
theorem named_of_fresh {key key' : EEngineType × String} {id id' : EOperatorId}
    (hfresh : r.opEngineAndNameToOperatorId key = none)
    (h : r.opEngineAndNameToOperatorId key' = some id) :
    Function.update r.opEngineAndNameToOperatorId key (some id') key' = some id := by
  have hne : key' ≠ key := by
    rintro rfl
    rw [hfresh] at h
    cases h
  rw [Function.update_of_ne hne, h]

theorem OpsInv.registerPhysicalOperator (h : r.OpsInv own) {opName : String} (costFunc : FnCost)
    (hfresh : r.opEngineAndNameToOperatorId (engine, opName) = none) :
    (r.registerPhysicalOperator opName engine costFunc).OpsInv
      (own.register r (.physicalOperator opName engine costFunc)) := by
  have hnot := (h.listed engine opName).not.1 (by simp [hfresh])
  rw [not_or] at hnot
  refine ⟨Nat.le_succ_of_le h.current, h.range_update, h.named_update hfresh, fun engine' op => ?_,
    fun engine' => ?_, h.logical, fun engine' op hop hphys => ?_, fun id hcost => ?_,
    fun id hproj => ?_, fun id hrel => ?_⟩
  · simp only [DynamicRegistry.registerPhysicalOperator, mem_pushBack]
    by_cases hkey : (engine', op) = (engine, opName)
    · obtain ⟨rfl, rfl⟩ := Prod.mk.inj hkey
      simp
    · rw [Function.update_of_ne hkey, h.listed]
      rw [Prod.mk.injEq] at hkey
      tauto
  · exact nodup_pushBack (h.physical engine') fun heq => heq ▸ hnot.1
  · rcases mem_pushBack.1 hphys with hphys | ⟨rfl, rfl⟩
    · exact h.disjoint engine' op hop hphys
    · exact hnot.2 hop
  · simp only [DynamicRegistry.registerPhysicalOperator] at hcost ⊢
    by_cases heq : id = r.currentOperatorId + 1
    · exact .inr ⟨engine, opName, mem_pushBack.2 (.inr ⟨rfl, rfl⟩), by rw [heq, Function.update_self]⟩
    · rw [Function.update_of_ne heq] at hcost
      refine (h.cost id hcost).imp_right fun ⟨engine', op, hop, hid⟩ => ?_
      exact ⟨engine', op, mem_pushBack.2 (.inl hop), named_of_fresh hfresh hid⟩
  · obtain ⟨engine', op, hop, hid⟩ := h.project id hproj
    exact ⟨engine', op, hop, named_of_fresh hfresh hid⟩
  · refine (h.relevant id hrel).imp_right fun ⟨engine', op, hop, hid⟩ => ?_
    exact ⟨engine', op, hop, named_of_fresh hfresh hid⟩

theorem OpsInv.registerLogicalOperator (h : r.OpsInv own) {opName : String} (isAProject : Bool)
    (hfresh : r.opEngineAndNameToOperatorId (engine, opName) = none) :
    (r.registerLogicalOperator opName engine isAProject).OpsInv
      (own.register r (.logicalOperator opName engine isAProject)) := by
  have hnot := (h.listed engine opName).not.1 (by simp [hfresh])
  rw [not_or] at hnot
  refine ⟨Nat.le_succ_of_le h.current, h.range_update, h.named_update hfresh, fun engine' op => ?_,
    h.physical, fun engine' => ?_, fun engine' op hop hphys => ?_, fun id hcost => ?_,
    fun id hproj => ?_, fun id hrel => ?_⟩
  · simp only [DynamicRegistry.registerLogicalOperator, mem_pushBack]
    by_cases hkey : (engine', op) = (engine, opName)
    · obtain ⟨rfl, rfl⟩ := Prod.mk.inj hkey
      simp
    · rw [Function.update_of_ne hkey, h.listed]
      rw [Prod.mk.injEq] at hkey
      tauto
  · exact nodup_pushBack (h.logical engine') fun heq => heq ▸ hnot.2
  · rcases mem_pushBack.1 hop with hop | ⟨rfl, rfl⟩
    · exact h.disjoint engine' op hop hphys
    · exact hnot.1 hphys
  · refine (h.cost id hcost).imp_right fun ⟨engine', op, hop, hid⟩ => ?_
    exact ⟨engine', op, hop, named_of_fresh hfresh hid⟩
  · have hold : r.projectOperators id = true → ∃ engine', ∃ op ∈
        pushBack r.engineToLogicalOps engine opName engine', Function.update
          r.opEngineAndNameToOperatorId (engine, opName) (some (r.currentOperatorId + 1))
            (engine', op) = some id := by
      intro hproj
      obtain ⟨engine', op, hop, hid⟩ := h.project id hproj
      exact ⟨engine', op, mem_pushBack.2 (.inl hop), named_of_fresh hfresh hid⟩
    simp only [DynamicRegistry.registerLogicalOperator] at hproj
    split at hproj
    · by_cases heq : id = r.currentOperatorId + 1
      · exact ⟨engine, opName, mem_pushBack.2 (.inr ⟨rfl, rfl⟩), by
          rw [heq]
          exact Function.update_self ..⟩
      · rw [Function.update_of_ne heq] at hproj
        exact hold hproj
    · exact hold hproj
  · refine (h.relevant id hrel).imp_right fun ⟨engine', op, hop, hid⟩ => ?_
    exact ⟨engine', op, mem_pushBack.2 (.inl hop), named_of_fresh hfresh hid⟩

theorem XformsInv.registerTransform (h : r.XformsInv own) {transformName : String}
    (hfresh : r.transformNameToTransformId transformName = none) :
    (r.registerTransform transformName engine).XformsInv
      (own.register r (.transform transformName engine)) := by
  have hnot : ∀ engine', transformName ∉ r.engineToTransforms engine' := by
    intro engine' hmem
    have := (h.listed transformName).2 ⟨engine', hmem⟩
    simp [hfresh] at this
  refine ⟨fun id engine' hid => ?_, fun id engine' => ?_, fun transform => ?_, fun engine' => ?_⟩
  · simp only [Owners.register] at hid
    by_cases heq : id = r.currentTransformId + 1
    · exact heq.le
    · rw [Function.update_of_ne heq] at hid
      exact Nat.le_succ_of_le (h.range id engine' hid)
  · simp only [DynamicRegistry.registerTransform, Owners.register]
    by_cases heq : id = r.currentTransformId + 1
    · subst heq
      rw [Function.update_self]
      constructor
      · intro heq
        obtain rfl := Option.some.inj heq
        exact ⟨transformName, mem_pushBack.2 (.inr ⟨rfl, rfl⟩), Function.update_self ..⟩
      · rintro ⟨transform, hmem, hid⟩
        rcases mem_pushBack.1 hmem with hmem | ⟨rfl, -⟩
        · have hne : transform ≠ transformName := fun heq => hnot engine' (heq ▸ hmem)
          rw [Function.update_of_ne hne] at hid
          have hle := h.range _ _ ((h.named _ _).2 ⟨transform, hmem, hid⟩)
          exact absurd hle (Nat.not_succ_le_self _)
        · rfl
    · rw [Function.update_of_ne heq, h.named]
      refine exists_congr fun transform => ?_
      by_cases hname : transform = transformName
      · subst hname
        simp only [Function.update_self, Option.some.injEq, hnot, false_and, false_iff, not_and]
        exact fun _ heq' => heq heq'.symm
      · rw [Function.update_of_ne hname, mem_pushBack]
        tauto
  · simp only [DynamicRegistry.registerTransform, mem_pushBack]
    by_cases hname : transform = transformName
    · subst hname
      simp
    · rw [Function.update_of_ne hname, h.listed]
      exact exists_congr fun engine' => by tauto
  · exact nodup_pushBack (h.nodup engine') fun _ => hnot engine'

theorem RulesInv.registerPreprocessingRule (h : r.RulesInv own) {ruleName : String}
    (rule : PreprocessingRule) (hfresh : r.preprocessingRules ruleName = none ∨
      ruleName ∈ r.engineToPreprocessingRules engine) :
    (r.registerPreprocessingRule ruleName rule engine).RulesInv
      (own.register r (.preprocessingRule ruleName rule engine)) := by
  -- no other engine has registered the name
  have hother : ∀ engine', ruleName ∈ r.engineToPreprocessingRules engine' → engine' = engine := by
    intro engine' hmem
    rcases hfresh with hnone | hown
    · have := h.present engine' ruleName hmem
      simp [hnone] at this
    · have heq := (h.owned engine' ruleName hmem).symm.trans (h.owned engine ruleName hown)
      exact Option.some.inj heq
  refine ⟨fun engine' name hmem => ?_, fun name hsome => ?_, fun engine' name hmem => ?_⟩
  · simp only [Owners.register]
    by_cases hname : name = ruleName
    · subst hname
      rw [Function.update_self]
      rcases mem_pushBack.1 hmem with hmem | ⟨heq, -⟩
      · rw [hother engine' hmem]
      · rw [heq]
    · rw [Function.update_of_ne hname]
      rcases mem_pushBack.1 hmem with hmem | ⟨-, heq⟩
      · exact h.owned engine' name hmem
      · exact absurd heq hname
  · by_cases hname : name = ruleName
    · exact ⟨engine, mem_pushBack.2 (.inr ⟨rfl, hname⟩)⟩
    · simp only [DynamicRegistry.registerPreprocessingRule, Function.update_of_ne hname] at hsome
      obtain ⟨engine', hmem⟩ := h.listed name hsome
      exact ⟨engine', mem_pushBack.2 (.inl hmem)⟩
  · simp only [DynamicRegistry.registerPreprocessingRule]
    by_cases hname : name = ruleName
    · simp [hname]
    · rw [Function.update_of_ne hname]
      rcases mem_pushBack.1 hmem with hmem | ⟨-, heq⟩
      · exact h.present engine' name hmem
      · exact absurd heq hname

theorem OpsInv.hookTransformToOp (h : r.OpsInv own) {opId : EOperatorId} (transformId : EXformId)
    (hop : opId ≤ eopDynamicStart ∨ ∃ engine, ∃ opName ∈ r.engineToLogicalOps engine,
      r.opEngineAndNameToOperatorId (engine, opName) = some opId) :
    (r.hookTransformToOp opId transformId).OpsInv own := by
  refine ⟨h.current, h.range, h.named, h.listed, h.physical, h.logical, h.disjoint, h.cost,
    h.project, fun id hrel => ?_⟩
  by_cases heq : id = opId
  · exact heq ▸ hop
  · refine h.relevant id ?_
    simpa only [DynamicRegistry.hookTransformToOp, pushBack, Function.update_of_ne heq] using hrel

theorem OpsInv.registerCostFunctionForOperator (h : r.OpsInv own) {opId : EOperatorId}
    (costFunc : FnCost)
    (hop : opId ≤ eopDynamicStart ∨ ∃ engine, ∃ opName ∈ r.engineToPhysicalOps engine,
      r.opEngineAndNameToOperatorId (engine, opName) = some opId) :
    (r.registerCostFunctionForOperator opId costFunc).OpsInv own := by
  refine ⟨h.current, h.range, h.named, h.listed, h.physical, h.logical, h.disjoint,
    fun id hcost => ?_, h.project, h.relevant⟩
  by_cases heq : id = opId
  · exact heq ▸ hop
  · refine h.cost id ?_
    simpa only [DynamicRegistry.registerCostFunctionForOperator, Function.update_of_ne heq]
      using hcost

theorem EnginesInv.registerEngine (h : r.EnginesInv) {engineName : String}
    (hfresh : r.engineNameToEngineType engineName = none) :
    (r.registerEngine engineName).EnginesInv := by
  intro name engine hname
  simp only [DynamicRegistry.registerEngine] at hname ⊢
  by_cases heq : name = engineName
  · subst heq
    rw [Function.update_self] at hname
    obtain rfl := Option.some.inj hname
    exact ⟨le_rfl, Function.update_self ..⟩
  · rw [Function.update_of_ne heq] at hname
    obtain ⟨hle, htype⟩ := h name engine hname
    refine ⟨Nat.le_succ_of_le hle, ?_⟩
    rw [Function.update_of_ne (Nat.ne_of_lt (Nat.lt_succ_of_le hle)), htype]

/-- Every fresh registration keeps the invariant. -/
theorem Inv.register (h : r.Inv own) {reg : Registration}
    (hfresh : r.Fresh reg) : (r.register reg).Inv (own.register r reg) := by
  obtain ⟨hops, hxforms, hrules, hengines⟩ := h
  -- what a registration does not touch stays
  refine ⟨?_, ?_, ?_, ?_⟩
  · cases reg with
    | physicalOperator _ _ costFunc => exact hops.registerPhysicalOperator costFunc hfresh
    | logicalOperator _ _ isAProject => exact hops.registerLogicalOperator isAProject hfresh
    | hookTransformToOp _ transformId => exact hops.hookTransformToOp transformId hfresh
    | costFunctionForOperator _ costFunc =>
      exact hops.registerCostFunctionForOperator costFunc hfresh
    | _ => exact ⟨hops.current, hops.range, hops.named, hops.listed, hops.physical, hops.logical,
        hops.disjoint, hops.cost, hops.project, hops.relevant⟩
  · cases reg with
    | transform => exact hxforms.registerTransform hfresh
    | _ => exact ⟨hxforms.range, hxforms.named, hxforms.listed, hxforms.nodup⟩
  · cases reg with
    | preprocessingRule _ rule => exact hrules.registerPreprocessingRule rule hfresh
    | _ => exact ⟨hrules.owned, hrules.listed, hrules.present⟩
  · cases reg with
    | engine => exact hengines.registerEngine hfresh
    | _ => exact hengines

/-- The invariant holds after any sequence of fresh registrations. -/
theorem Inv.registerAll {regs : List Registration} (h : r.Inv own) (hfresh : AllFresh regs r) :
    (registerAll regs (r, own)).1.Inv (DynamicRegistry.registerAll regs (r, own)).2 := by
  induction regs generalizing r own with
  | nil => exact h
  | cons reg regs ih => exact ih (h.register hfresh.1) hfresh.2

/-! ## Removing an engine -/

variable {r : DynamicRegistry} {own : Owners}

variable {id : EOperatorId}

theorem operatorIdOf_eq {op : String}
    (h : r.opEngineAndNameToOperatorId (engine, op) = some id) : r.operatorIdOf engine op = id := by
  simp [operatorIdOf, h]

/-- The ids that the loops over the operators collect are the ids of the engine. -/
theorem mem_operatorIds {ops : List String}
    (hops : ∀ op ∈ ops, (r.opEngineAndNameToOperatorId (engine, op)).isSome) :
    id ∈ r.operatorIds engine ops ↔
      ∃ op ∈ ops, r.opEngineAndNameToOperatorId (engine, op) = some id := by
  simp only [operatorIds, List.mem_map]
  refine exists_congr fun op => and_congr_right fun hop => ?_
  obtain ⟨id', hid'⟩ := Option.isSome_iff_exists.1 (hops op hop)
  rw [operatorIdOf_eq hid', hid', Option.some.injEq]

theorem OpsInv.mem_physicalIds (h : r.OpsInv own) :
    id ∈ r.operatorIds engine (r.engineToPhysicalOps engine) ↔ ∃ op ∈ r.engineToPhysicalOps engine,
      r.opEngineAndNameToOperatorId (engine, op) = some id :=
  mem_operatorIds fun op hop => (h.listed engine op).2 (.inl hop)

theorem OpsInv.mem_logicalIds (h : r.OpsInv own) :
    id ∈ r.operatorIds engine (r.engineToLogicalOps engine) ↔ ∃ op ∈ r.engineToLogicalOps engine,
      r.opEngineAndNameToOperatorId (engine, op) = some id :=
  mem_operatorIds fun op hop => (h.listed engine op).2 (.inr hop)

theorem OpsInv.owned_iff (h : r.OpsInv own) :
    own.op id = some engine ↔ id ∈ r.operatorIds engine (r.engineToPhysicalOps engine) ∨
      id ∈ r.operatorIds engine (r.engineToLogicalOps engine) := by
  rw [h.named, h.mem_physicalIds, h.mem_logicalIds]
  constructor
  · rintro ⟨op, hop⟩
    rcases (h.listed engine op).1 (by simp [hop]) with hmem | hmem
    · exact .inl ⟨op, hmem, hop⟩
    · exact .inr ⟨op, hmem, hop⟩
  · rintro (⟨op, -, hop⟩ | ⟨op, -, hop⟩) <;> exact ⟨op, hop⟩

theorem OpsInv.owned_of_physical (h : r.OpsInv own) (engine : EEngineType) :
    ∀ id ∈ r.operatorIds engine (r.engineToPhysicalOps engine), own.op id = some engine :=
  fun _ hid => h.owned_iff.2 (.inl hid)

theorem OpsInv.owned_of_logical (h : r.OpsInv own) (engine : EEngineType) :
    ∀ id ∈ r.operatorIds engine (r.engineToLogicalOps engine), own.op id = some engine :=
  fun _ hid => h.owned_iff.2 (.inr hid)

/-- What only operators of a list have is erased for the engine when it is erased for its list. -/
theorem OpsInv.erase_eq (h : r.OpsInv own) {listed : EEngineType → List String}
    {f : EOperatorId → β} {erased : β}
    (howned : ∀ id ∈ r.operatorIds engine (listed engine), own.op id = some engine)
    (hf : ∀ id, f id ≠ erased → id ≤ eopDynamicStart ∨ ∃ engine, ∃ op ∈ listed engine,
      r.opEngineAndNameToOperatorId (engine, op) = some id) (id : EOperatorId) :
    (if id ∈ r.operatorIds engine (listed engine) then erased else f id) =
      if own.op id = some engine then erased else f id := by
  by_cases hown : own.op id = some engine
  · simp only [hown, if_true, ite_eq_left_iff]
    intro hnot
    by_contra hne
    rcases hf id hne with hle | ⟨engine', op, hop, hid⟩
    · exact absurd (h.range id engine hown).1 (Nat.not_lt_of_le hle)
    · have heq := hown.symm.trans ((h.named id engine').2 ⟨op, hid⟩)
      obtain rfl := Option.some.inj heq
      exact hnot (List.mem_map.2 ⟨op, hop, operatorIdOf_eq hid⟩)
  · rw [if_neg (mt (howned id) hown), if_neg hown]

theorem XformsInv.owned_iff (h : r.XformsInv own) {id : EXformId} :
    own.xform id = some engine ↔ id ∈ r.transformIds (r.engineToTransforms engine) := by
  simp only [h.named, transformIds, List.mem_map]
  refine exists_congr fun transform => and_congr_right fun hmem => ?_
  obtain ⟨id', hid'⟩ := Option.isSome_iff_exists.1 ((h.listed transform).2 ⟨engine, hmem⟩)
  simp [transformIdOf, hid']

/-- The loops over the physical and the logical operators. -/
theorem OpsInv.removeOps (h : r.OpsInv own) (engine : EEngineType) :
    (r.removePhysicalOps engine).removeLogicalOps engine = { r with
      opEngineAndNameToOperatorId := fun key =>
        if key.1 = engine then none else r.opEngineAndNameToOperatorId key
      projectOperators := fun id => own.op id ≠ some engine && r.projectOperators id
      relevantTransforms := fun id =>
        if own.op id = some engine then [] else r.relevantTransforms id
      opFactories := fun transformId =>
        (r.opFactories transformId).filter fun entry => own.op entry.1 ≠ some engine
      engineToPhysicalOps := Function.update r.engineToPhysicalOps engine []
      engineToLogicalOps := Function.update r.engineToLogicalOps engine []
      costMap := fun id => if own.op id = some engine then none else r.costMap id } := by
  have hids : (r.removePhysicalOps engine).operatorIds engine (r.engineToLogicalOps engine) =
      r.operatorIds engine (r.engineToLogicalOps engine) := by
    refine List.map_congr_left fun op hop => ?_
    have hnot := h.disjoint engine op hop
    simp [operatorIdOf, removePhysicalOps, foldl_removePhysicalOp engine (h.physical engine), hnot]
  have hlogical : (r.removePhysicalOps engine).engineToLogicalOps = r.engineToLogicalOps := by
    simp [removePhysicalOps, foldl_removePhysicalOp engine (h.physical engine)]
  rw [removeLogicalOps, hlogical, foldl_removeLogicalOp engine (h.logical engine), hids,
    removePhysicalOps, foldl_removePhysicalOp engine (h.physical engine)]
  dsimp only
  congr 1
  · funext ⟨engine', op⟩
    by_cases heq : engine' = engine
    · subst heq
      have hlisted := h.listed engine' op
      cases hop : r.opEngineAndNameToOperatorId (engine', op) with
      | none => simp
      | some id =>
        have hmem : op ∈ r.engineToPhysicalOps engine' ∨ op ∈ r.engineToLogicalOps engine' :=
          hlisted.1 (by simp [hop])
        rcases hmem with hmem | hmem <;> simp [hmem]
    · simp [heq]
  · funext id
    have herase := h.erase_eq (h.owned_of_logical engine) (fun id (hproj : r.projectOperators id ≠ false) =>
      .inr (h.project id (by simpa using hproj))) id
    by_cases hown : own.op id = some engine <;> simpa [hown] using herase
  · exact funext (h.erase_eq (h.owned_of_logical engine) h.relevant)
  · funext transformId
    rw [List.filter_filter]
    refine List.filter_congr fun entry _ => ?_
    simp only [ne_eq, h.owned_iff, not_or, Bool.decide_and]
    exact Bool.and_comm _ _
  · exact funext (h.erase_eq (h.owned_of_physical engine) fun id hcost =>
      h.cost id (Option.isSome_iff_ne_none.2 hcost))

/-- The loop over the transforms. -/
theorem XformsInv.removeTransforms (h : r.XformsInv own) (engine : EEngineType) :
    r.removeTransforms engine = { r with
      transformNameToTransformId := fun name =>
        (r.transformNameToTransformId name).filter fun id => own.xform id ≠ some engine
      relevantTransforms := fun opId => (r.relevantTransforms opId).filter fun transformId =>
        own.xform transformId ≠ some engine
      opFactories := fun id => if own.xform id = some engine then [] else r.opFactories id
      engineToTransforms := Function.update r.engineToTransforms engine []
      disabledXforms := fun id => own.xform id = some engine || r.disabledXforms id } := by
  rw [DynamicRegistry.removeTransforms, foldl_removeTransform (h.nodup engine)]
  simp only [h.owned_iff]
  congr 1
  · funext name
    cases hname : r.transformNameToTransformId name with
    | none => simp
    | some id =>
      have hid : r.transformIdOf name = id := by simp [transformIdOf, hname]
      have hiff : name ∈ r.engineToTransforms engine ↔
          id ∈ r.transformIds (r.engineToTransforms engine) := by
        constructor
        · exact fun hmem => List.mem_map.2 ⟨name, hmem, hid⟩
        · intro hmem
          obtain ⟨engine', hlisted⟩ := (h.listed name).1 (by simp [hname])
          have hown := h.owned_iff.2 hmem
          have heq := hown.symm.trans ((h.named id engine').2 ⟨name, hlisted, hname⟩)
          obtain rfl := Option.some.inj heq
          exact hlisted
      by_cases hmem : name ∈ r.engineToTransforms engine
      · simp [hmem, h.owned_iff.2 (hiff.1 hmem), Option.filter]
      · simp [hmem, h.owned_iff.not.2 (hiff.not.1 hmem), Option.filter]
  · funext opId
    refine List.filter_congr fun transformId _ => ?_
    simp only [ne_eq, h.owned_iff]
  · funext id
    by_cases hmem : id ∈ r.transformIds (r.engineToTransforms engine) <;> simp [hmem]

/-- The loop over the rules. -/
theorem RulesInv.removePreprocessingRules (h : r.RulesInv own) (engine : EEngineType) :
    r.removePreprocessingRules engine = { r with
      preprocessingRules := fun name =>
        if own.rule name = some engine then none else r.preprocessingRules name
      engineToPreprocessingRules := Function.update r.engineToPreprocessingRules engine [] } := by
  rw [DynamicRegistry.removePreprocessingRules, foldl_removePreprocessingRule]
  congr 1
  funext name
  by_cases hmem : name ∈ r.engineToPreprocessingRules engine
  · simp [hmem, h.owned engine name hmem]
  · by_cases hown : own.rule name = some engine
    · simp only [hmem, hown, if_false, if_true]
      by_contra hsome
      obtain ⟨engine', hlisted⟩ := h.listed name (Option.isSome_iff_ne_none.2 hsome)
      have heq := hown.symm.trans (h.owned engine' name hlisted)
      obtain rfl := Option.some.inj heq
      exact hmem hlisted
    · simp [hmem, hown]

theorem update_eq_ite [DecidableEq α] (m : α → β) (a : α) (b : β) :
    Function.update m a b = fun key => if key = a then b else m key := by
  funext key
  by_cases hkey : key = a
  · simp [hkey]
  · simp [hkey]

/-- Where names are fresh, removing an engine removes its entries and nothing else. -/
theorem Inv.removeEngine (h : r.Inv own) {engineName : String}
    (hname : r.engineNameToEngineType engineName = some engine) :
    r.removeEngine engineName = r.without own engine := by
  obtain ⟨hops, hxforms, hrules, hengines⟩ := h
  -- the maps that the loops read are not touched before
  have hops' : (r.removeEngineMaps engine).OpsInv own :=
    ⟨hops.current, hops.range, hops.named, hops.listed, hops.physical, hops.logical, hops.disjoint,
      hops.cost, hops.project, hops.relevant⟩
  have hloops := hops'.removeOps engine
  have hxforms' : (((r.removeEngineMaps engine).removePhysicalOps engine).removeLogicalOps
      engine).XformsInv own := by
    rw [hloops]
    exact ⟨hxforms.range, hxforms.named, hxforms.listed, hxforms.nodup⟩
  have htransforms := hxforms'.removeTransforms engine
  have hrules' : ((((r.removeEngineMaps engine).removePhysicalOps engine).removeLogicalOps
      engine).removeTransforms engine).RulesInv own := by
    rw [htransforms, hloops]
    exact ⟨hrules.owned, hrules.listed, hrules.present⟩
  have hall := hrules'.removePreprocessingRules engine
  rw [DynamicRegistry.removeEngine, hname, Option.getD_some, removeEngineType, hall, htransforms,
    hloops]
  simp only [removeEngineMaps, without, update_eq_ite]
  congr 1
  · -- only this name has this type
    funext name
    by_cases heq : name = engineName
    · simp [heq, hname, Option.filter]
    · simp only [heq, if_false]
      cases hother : r.engineNameToEngineType name with
      | none => rfl
      | some engine' =>
        have hne : engine' ≠ engine := by
          rintro rfl
          have hsame := (hengines name engine' hother).2.symm.trans (hengines _ _ hname).2
          exact heq (Option.some.inj hsame)
        simp [hne, Option.filter]
  · funext id
    by_cases hown : own.op id = some engine <;> simp [hown]

/-- **Removing an engine** after any sequence of registrations that were fresh when they were made
    leaves the registry without the entries of the engine and everything else as it was. -/
theorem removeEngine_eq_without (costFunctions : EOperatorId → Option FnCost)
    (pcp : EEngineType → Option ICostModelParams) (regs : List Registration)
    (hfresh : AllFresh regs (init costFunctions pcp)) (engineName : String) (engine : EEngineType)
    (hname : (registerAll regs (init costFunctions pcp, .none)).1.engineNameToEngineType engineName =
      some engine) :
    let s := registerAll regs (init costFunctions pcp, .none)
    s.1.removeEngine engineName = s.1.without s.2 engine :=
  ((init_inv costFunctions pcp).registerAll hfresh).removeEngine hname

section Examples

/-- Two engines that register an operator under the same name. -/
def twoEngineOps : List Registration :=
  [.engine "A", .engine "B", .physicalOperator "Scan" 3 7, .physicalOperator "Scan" 4 8,
    .transform "A2B" 3, .hookOpToTransform 153 156 9, .hookTransformToOp 0 153,
    .engineTransform 3 4 5 true false true, .preprocessingRule "rule" 1 3]

/-- Removing one leaves the cost function and the operator of the other. -/
theorem removeEngine_eq_without_twoEngineOps :
    let s := registerAll twoEngineOps (init (fun _ => none) (fun _ => none), .none)
    s.1.removeEngine "A" = s.1.without s.2 3 ∧ (s.1.removeEngine "A").costMap 156 = some 8 :=
  ⟨removeEngine_eq_without _ _ twoEngineOps (by simp [AllFresh, twoEngineOps, Fresh, register, init,
      registerEngine, registerPhysicalOperator, registerTransform, hookOpToTransform,
      hookTransformToOp, registerEngineTransform, eopDynamicStart, eetDynamicStart]) "A" 3
      (by decide), by decide⟩

/-- Two engines that register a rule and a transform under the same name, and a transform that is
    hooked to a physical operator. -/
def sharedNames : List Registration :=
  [.engine "A", .engine "B", .preprocessingRule "rule" 1 3, .preprocessingRule "rule" 2 4,
    .transform "xform" 3, .transform "xform" 4, .physicalOperator "Scan" 3 7,
    .hookTransformToOp 155 10]

/-- Removing the first engine removes the rule of the second, disables its transform instead of its
    own, and leaves the transform of its own operator. -/
theorem removeEngine_eq_without_sharedNames :
    let s := registerAll sharedNames (init (fun _ => none) (fun _ => none), .none)
    let removed := s.1.removeEngine "A"
    s.1.engineNameToEngineType "A" = some 3 ∧
      (s.1.preprocessingRules "rule" = some 2 ∧ s.2.rule "rule" = some 4 ∧
        removed.preprocessingRules "rule" = none) ∧
      (s.1.transformNameToTransformId "xform" = some 154 ∧ s.2.xform 154 = some 4 ∧
        removed.transformNameToTransformId "xform" = none ∧ removed.disabledXforms 154 = true ∧
        s.2.xform 153 = some 3 ∧ removed.disabledXforms 153 = false) ∧
      s.2.op 155 = some 3 ∧ removed.relevantTransforms 155 = [10] := by
  decide

end Examples

end DynamicRegistry

end BossOptimizer

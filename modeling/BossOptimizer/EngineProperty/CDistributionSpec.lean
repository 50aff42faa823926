/-!
# Distribution types: `CDistributionSpec` (CDistributionSpec.h)
-/

namespace BossOptimizer

/-- `EDistributionType` (CDistributionSpec.h:37). -/
inductive EDistributionType where
  | edtHashed | edtHashedNoOp | edtStrictHashed | edtReplicated | edtAny | edtSingleton
  | edtStrictSingleton | edtRandom | edtStrictRandom | edtRouted | edtUniversal | edtNonSingleton
  | edtExternal
  deriving DecidableEq

/-- `EDistributionPartitioningType` (CDistributionSpec.h:57). -/
inductive EDistributionPartitioningType where
  | edptPartitioned | edptNonPartitioned | edptUnknown
  deriving DecidableEq

/-- `Edpt`, of the class that has the type: `CDistributionSpecHashed` and so on. -/
def EDistributionType.edpt : EDistributionType → EDistributionPartitioningType
  | .edtHashed | .edtHashedNoOp | .edtStrictHashed => .edptPartitioned
  | .edtRandom | .edtStrictRandom | .edtRouted | .edtExternal => .edptPartitioned
  | .edtReplicated | .edtSingleton | .edtStrictSingleton | .edtUniversal => .edptNonPartitioned
  | .edtAny | .edtNonSingleton => .edptUnknown

end BossOptimizer

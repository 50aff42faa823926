import BossOptimizer.Search.Pruning
import BossOptimizer.Common.CBitSetRuns
import BossOptimizer.Search.TreeMapPlans
import BossOptimizer.Search.SchedulerExact
import BossOptimizer.EngineProperty.CPhysicalEngineTransition
import BossOptimizer.Registry.CXformFactory
import BossOptimizer.Search.ContextKept
import BossOptimizer.Search.BoundTransparency
import BossOptimizer.Operators.MaxCardSoundness
import BossOptimizer.Base.CDatumSortedSet
import BossOptimizer.Base.EquivalenceClasses
import BossOptimizer.Base.PropagatorCount
import BossOptimizer.Search.MemoIds
import BossOptimizer.Base.HashedSatisfaction
import BossOptimizer.Base.HashedCopies
import BossOptimizer.Base.ConstraintProjection
import BossOptimizer.Operators.UnnestNormalForm
import BossOptimizer.Operators.Factorization
import BossOptimizer.Operators.InferredFilters
import BossOptimizer.Operators.QuantifiedSubqueries
import BossOptimizer.Operators.ScalarSubqueries
import BossOptimizer.Operators.InSubqueries
import BossOptimizer.Operators.OuterRefRemoval
import BossOptimizer.Operators.ImpliedConjuncts
import BossOptimizer.Operators.SelfComparison
import BossOptimizer.Operators.NullRejecting
import BossOptimizer.Operators.CteProducers
import BossOptimizer.Operators.ComputedColumnPruning
import BossOptimizer.Xforms.JoinCosts
import BossOptimizer.Xforms.BestJoinOrder
import BossOptimizer.Statistics.LasjHistogram
import BossOptimizer.Statistics.JoinHistogram
import BossOptimizer.Statistics.FilterHistogram
import BossOptimizer.Xforms.SetOpWindows
import BossOptimizer.Xforms.LeftOuterJoinPushDown
import BossOptimizer.Xforms.LeftOuterExpansion
import BossOptimizer.Xforms.EagerAgg
import BossOptimizer.Xforms.GbAggPushDown
import BossOptimizer.Xforms.JoinSwap
import BossOptimizer.Xforms.DistinctAggJoin
import BossOptimizer.Xforms.SimplifiedSubqueries
import BossOptimizer.Xforms.PartialIndexes
import BossOptimizer.Xforms.BitmapAccess

import Melinoe.Runs
import Melinoe.Tiles
import Melinoe.Tasks
import Melinoe.Clocks
import Melinoe.ForkJoin
import Melinoe.Passes
import Melinoe.Usize
import Melinoe.Region
import Melinoe.Chunkers
import Melinoe.PartitionPlan
import Melinoe.DriverCore
import Melinoe.DriverRegistered
import Melinoe.DriverScoped
import Melinoe.DriverRuns
import Melinoe.DriverInOrder
import Melinoe.DriverProcess
import Melinoe.DriverSkips
import Melinoe.DriverRaces
import Melinoe.PartitionMap
import Melinoe.PartitionRead
import Melinoe.ChunkArithmetic
import Melinoe.PlanLaws
import Melinoe.NestedPartitions
import Melinoe.Deque
import Melinoe.DequePartition
import Melinoe.DequePlan
import Melinoe.PartitionPasses
import Melinoe.PartitionPrograms
import Melinoe.ShardDerivation
import Melinoe.Reentrant
import Melinoe.ReentrantMeaning
import Melinoe.ThreadCached
import Melinoe.ThreadCachedInits
import Melinoe.Loans
import Melinoe.Permits
import Melinoe.PermitRuns
import Melinoe.CowViews
import Melinoe.ShardViews
import Melinoe.ThreadedPermits
import Melinoe.ThreadedRuns
import Melinoe.Executions
import Melinoe.ConditionalAtomics
import Melinoe.PlainCells

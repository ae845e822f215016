import ParallelDeterminism.Types
import ParallelDeterminism.DepGraph
import ParallelDeterminism.Leveling
import ParallelDeterminism.Invariant
import ParallelDeterminism.Height
import ParallelDeterminism.Schedule
import ParallelDeterminism.Swap
import ParallelDeterminism.Execution
import ParallelDeterminism.Append
import ParallelDeterminism.Visualize
import ParallelDeterminism.Workflow

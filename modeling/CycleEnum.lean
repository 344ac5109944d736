import CycleEnum.Core.Types
import CycleEnum.Core.Histogram
import CycleEnum.Core.Search
import CycleEnum.Core.Counting
import CycleEnum.Core.Grouping
import CycleEnum.Core.Merge
import CycleEnum.Core.Reduction
import CycleEnum.Core.Timestamp
import CycleEnum.Core.Graph
import CycleEnum.Core.GraphView
import CycleEnum.Core.Transpose
import CycleEnum.Core.RunLength
import CycleEnum.Core.VertexLoop
import CycleEnum.Core.Stream
import CycleEnum.Core.ReadGraph
import CycleEnum.Core.DataRows
import CycleEnum.Core.RowGrammar
import CycleEnum.Core.Lossless
import CycleEnum.Core.CompactIds
import CycleEnum.Core.WordBits
import CycleEnum.Enumeration.Closings
import CycleEnum.Enumeration.Reaches
import CycleEnum.Enumeration.Loops
import CycleEnum.Enumeration.Blocking
import CycleEnum.Enumeration.Johnson
import CycleEnum.Enumeration.Cascade
import CycleEnum.Enumeration.JohnsonCap
import CycleEnum.Enumeration.FindPath
import CycleEnum.Enumeration.ReadTarjan
import CycleEnum.Enumeration.CycleLists
import CycleEnum.Enumeration.Anchored
import CycleEnum.Enumeration.Timed
import CycleEnum.Enumeration.Completions
import CycleEnum.Sequential.Successors
import CycleEnum.Sequential.Bruteforce
import CycleEnum.Sequential.Johnson
import CycleEnum.Sequential.ReadTarjan
import CycleEnum.Sequential.ClosingTime
import CycleEnum.Sequential.TemporalReadTarjan
import CycleEnum.Sequential.TemporalJohnson
import CycleEnum.Sequential.Endless
import CycleEnum.Sequential.BruteforceClosings
import CycleEnum.Sequential.JohnsonClosings
import CycleEnum.Sequential.ReadTarjanClosings
import CycleEnum.Sequential.SimpleCycles
import CycleEnum.Sequential.WindowCycles
import CycleEnum.Sequential.Theorems
import CycleEnum.Sequential.JohnsonMoments
import CycleEnum.Sequential.ClosingHistory
import CycleEnum.Sequential.TemporalClosings
import CycleEnum.Sequential.TemporalBundles
import CycleEnum.Sequential.TemporalInstances
import CycleEnum.Sequential.TemporalTheorems
import CycleEnum.Dynamic.EdgeChange
import CycleEnum.Dynamic.DirectedGraph
import CycleEnum.Dynamic.CyclesThroughEdge
import CycleEnum.Dynamic.UpdateSequential
import CycleEnum.Dynamic.HistogramDelta
import CycleEnum.Dynamic.Recount
import CycleEnum.Dynamic.Theorems
import CycleEnum.OpenMP.Team
import CycleEnum.OpenMP.Outcome
import CycleEnum.OpenMP.Static
import CycleEnum.OpenMP.Tasks
import CycleEnum.OpenMP.TaskPool
import CycleEnum.OpenMP.RootParallel
import CycleEnum.OpenMP.TemporalJohnson
import CycleEnum.OpenMP.TemporalReadTarjan
import CycleEnum.OpenMP.TemporalErrors
import CycleEnum.OpenMP.Theorems
import CycleEnum.OpenMP.TemporalTheorems
import CycleEnum.Parallel.Pool
import CycleEnum.Parallel.Stacks
import CycleEnum.Cuda.Kernel
import CycleEnum.Cuda.VisitedSet
import CycleEnum.Cuda.KernelRun
import CycleEnum.Cuda.Accounting
import CycleEnum.Cuda.Progress
import CycleEnum.Cuda.Graph
import CycleEnum.Cuda.RootKernels
import CycleEnum.Cuda.RootSearch
import CycleEnum.Cuda.RootPools
import CycleEnum.Cuda.ItemKernel
import CycleEnum.Cuda.RootItems
import CycleEnum.Cuda.HostHistogram
import CycleEnum.Parallel.Items
import CycleEnum.Cuda.Theorems
import CycleEnum.Cuda.TimestampGroups
import CycleEnum.Core.PartitionPoint
import CycleEnum.Enumeration.BreadthFirst
import CycleEnum.Sequential.CycleUnion
import CycleEnum.Cuda.Timestamp
import CycleEnum.Cuda.TimestampLookups
import CycleEnum.Cuda.WorkItem
import CycleEnum.Cuda.TemporalKernel
import CycleEnum.Cuda.TemporalSearch
import CycleEnum.Cuda.TemporalPending
import CycleEnum.Cuda.TemporalItems
import CycleEnum.Sequential.UnionTheorems
import CycleEnum.Cuda.TemporalTheorems
import CycleEnum.Cuda.WindowTheorems
import CycleEnum.Cuda.WindowHost
import CycleEnum.Dynamic.EdgeTheorems
import CycleEnum.Dynamic.UpdateOpenmp
import CycleEnum.Dynamic.Rebuild
import CycleEnum.Dynamic.GraphConversion
import CycleEnum.Dynamic.BatchGenerator
import CycleEnum.Dynamic.RedundantChanges
import CycleEnum.Dynamic.IndexChecks
import CycleEnum.Sequential.OverflowTheorems
import CycleEnum.Cuda.SplitTheorems
import CycleEnum.Dynamic.UpdateKernel
import CycleEnum.Dynamic.UpdateItems
import CycleEnum.Dynamic.UpdateCuda
import CycleEnum.Cuda.DeviceResult
import CycleEnum.Cuda.StaticHost
import CycleEnum.Cuda.QueueHost
import CycleEnum.Cuda.TemporalHost
import CycleEnum.Core.Options
import CycleEnum.Cli.Arguments
import CycleEnum.Core.Decimal
import CycleEnum.Cli.Settings
import CycleEnum.Cli.Accepted
import CycleEnum.Core.HistogramCsv
import CycleEnum.Benchmarks.Cases
import CycleEnum.Benchmarks.Text
import CycleEnum.Benchmarks.Readers
import CycleEnum.Dynamic.UpdateHost
import CycleEnum.Dynamic.UpdateTeam
import CycleEnum.Core.Process
import CycleEnum.Engine.HistogramEngine
import CycleEnum.Engine.Stream
import CycleEnum.OpenMP.Returns
import CycleEnum.Core.Exceptions
import CycleEnum.Sequential.Results
import CycleEnum.Cuda.HostResults
import CycleEnum.Cli.Run
import CycleEnum.Cli.Counts
import CycleEnum.Cli.Main
import CycleEnum.Dynamic.BatchResults
import CycleEnum.Cli.Update
import CycleEnum.Core.Queries
import CycleEnum.Enumeration.CycleMaps
import CycleEnum.Sequential.RowCycles
import CycleEnum.Sequential.RowWindows
import CycleEnum.Sequential.Relabelling
import CycleEnum.Sequential.Growth
import CycleEnum.Cli.Rows
import CycleEnum.Cli.Status
import CycleEnum.Cli.Growth
import CycleEnum.Dynamic.Undo
import CycleEnum.Engine.Undo

import TorchMojoBackend.Foundation.Transition
import TorchMojoBackend.Foundation.Threads
import TorchMojoBackend.Watchdog.Teardown
import TorchMojoBackend.Watchdog.Ownership
import TorchMojoBackend.Watchdog.Reaper
import TorchMojoBackend.Watchdog.Queue
import TorchMojoBackend.Watchdog.QueueInvariant
import TorchMojoBackend.Ccl.Net.Ring
import TorchMojoBackend.Ccl.Net.ExchangeSafety
import TorchMojoBackend.Foundation.Spans
import TorchMojoBackend.Ccl.Geometry
import TorchMojoBackend.Ccl.Plans
import TorchMojoBackend.Ccl.PlansFit
import TorchMojoBackend.Ccl.GridBarrier
import TorchMojoBackend.Distributed.IndexKey
import TorchMojoBackend.Distributed.Poller
import TorchMojoBackend.Distributed.DumpSignal
import TorchMojoBackend.Watchdog.Entry
import TorchMojoBackend.FlightRecorder.Record
import TorchMojoBackend.Watchdog.Groups
import TorchMojoBackend.Watchdog.GroupCalls
import TorchMojoBackend.FlightRecorder.Completion
import TorchMojoBackend.FlightRecorder.SeqIds
import TorchMojoBackend.Watchdog.Positions
import TorchMojoBackend.Distributed.Desync
import TorchMojoBackend.Foundation.SeqLock
import TorchMojoBackend.FlightRecorder.Ring
import TorchMojoBackend.FlightRecorder.RingIntegrity
import TorchMojoBackend.Kernels.NmsGreedy
import TorchMojoBackend.Foundation.Partition
import TorchMojoBackend.Kernels.BatchedCopy
import TorchMojoBackend.Kernels.BatchedCopyWidth
import TorchMojoBackend.Kernels.BatchedCopyKernels
import TorchMojoBackend.Kernels.BatchedCopyExact
import TorchMojoBackend.Foundation.Tournament
import TorchMojoBackend.Kernels.ArgReduce
import TorchMojoBackend.Kernels.ArgReduceFirst
import TorchMojoBackend.Kernels.ArgReduceRoutes
import TorchMojoBackend.Foundation.ScanNetwork
import TorchMojoBackend.Kernels.Scan
import TorchMojoBackend.Kernels.ScanAlgebra
import TorchMojoBackend.Kernels.ScanRows
import TorchMojoBackend.Kernels.ScanCub
import TorchMojoBackend.Kernels.ScanPrefix
import TorchMojoBackend.Foundation.Bitonic
import TorchMojoBackend.Foundation.Selection
import TorchMojoBackend.Kernels.RowSort
import TorchMojoBackend.Kernels.RowSortTile
import TorchMojoBackend.Kernels.RowSortOrder
import TorchMojoBackend.Kernels.RowSortRoutes
import TorchMojoBackend.Kernels.RowSortStable
import TorchMojoBackend.Kernels.OrderStatistics
import TorchMojoBackend.Foundation.FloatBits
import TorchMojoBackend.Kernels.SortKey
import TorchMojoBackend.Kernels.Unique
import TorchMojoBackend.Foundation.Runs
import TorchMojoBackend.Kernels.UniqueOrder
import TorchMojoBackend.Kernels.UniqueGroups
import TorchMojoBackend.Kernels.UniqueCorrect
import TorchMojoBackend.Foundation.Atomics
import TorchMojoBackend.Kernels.EmbeddingBackward
import TorchMojoBackend.Kernels.EmbeddingBackwardSum
import TorchMojoBackend.Kernels.EmbeddingBackwardTable
import TorchMojoBackend.Kernels.EmbeddingBackwardWrap
import TorchMojoBackend.Foundation.Layout
import TorchMojoBackend.Kernels.OpUtils
import TorchMojoBackend.Kernels.Fill
import TorchMojoBackend.Foundation.Counters
import TorchMojoBackend.Kernels.Repeat
import TorchMojoBackend.Kernels.RandomFill
import TorchMojoBackend.Kernels.RandomFillPlan
import TorchMojoBackend.Kernels.RandomFillExact
import TorchMojoBackend.Kernels.PhiloxStreams
import TorchMojoBackend.Kernels.PhiloxStreamsExact
import TorchMojoBackend.Foundation.Intervals
import TorchMojoBackend.Kernels.ForeachCopy
import TorchMojoBackend.Kernels.ForeachCopyPairs
import TorchMojoBackend.Kernels.ForeachCopyExact
import TorchMojoBackend.Kernels.StridedCopy
import TorchMojoBackend.Kernels.StridedCopyKernels
import TorchMojoBackend.Kernels.StridedCopyExact
import TorchMojoBackend.Watchdog.BoundarySearch
import TorchMojoBackend.Foundation.Reorder
import TorchMojoBackend.Ccl.ProxyCpu
import TorchMojoBackend.Foundation.Grouping
import TorchMojoBackend.Foundation.ExactFloat
import TorchMojoBackend.Foundation.DenseLayout
import TorchMojoBackend.Kernels.FlatLaunch
import TorchMojoBackend.Ops.ResizeOut
import TorchMojoBackend.Foundation.FloatRemainder
import TorchMojoBackend.Kernels.Fmod
import TorchMojoBackend.Foundation.Compaction
import TorchMojoBackend.Ccl.Nvls
import TorchMojoBackend.Ccl.NvlsBarrier
import TorchMojoBackend.Ccl.NvlsJob
import TorchMojoBackend.Ccl.SymmetricAllReduce
import TorchMojoBackend.Foundation.Schedule
import TorchMojoBackend.Ccl.ReduceScatter
import TorchMojoBackend.Ccl.ReduceScatterExact
import TorchMojoBackend.Ccl.Topology
import TorchMojoBackend.Kernels.MaskedSelect
import TorchMojoBackend.Ops.ScalarChecks
import TorchMojoBackend.Foundation.RowMajor
import TorchMojoBackend.Ops.Views
import TorchMojoBackend.Ops.StatelessPhilox
import TorchMojoBackend.Ops.StatelessPhiloxExact
import TorchMojoBackend.Foundation.RoundInt
import TorchMojoBackend.Ops.RandomRange
import TorchMojoBackend.Ops.RandomRangeExact
import TorchMojoBackend.Ops.RandomRangeStays
import TorchMojoBackend.Foundation.DimOrder
import TorchMojoBackend.Ops.BernoulliTensor
import TorchMojoBackend.Ops.BernoulliTensorExact
import TorchMojoBackend.Ops.Roll
import TorchMojoBackend.Ops.Unfold
import TorchMojoBackend.Foundation.IntLoops
import TorchMojoBackend.Kernels.Pool
import TorchMojoBackend.Kernels.PoolWindows
import TorchMojoBackend.Kernels.PoolMax
import TorchMojoBackend.Ops.Pooling
import TorchMojoBackend.Ops.PoolingChecks
import TorchMojoBackend.Ops.MaxPooling
import TorchMojoBackend.Kernels.PoolAvg
import TorchMojoBackend.Kernels.PoolFold
import TorchMojoBackend.Ops.AveragePooling
import TorchMojoBackend.Foundation.Moments
import TorchMojoBackend.Foundation.Reductions
import TorchMojoBackend.Kernels.BatchNormSync
import TorchMojoBackend.Kernels.BatchNormSyncExact
import TorchMojoBackend.Kernels.Welford
import TorchMojoBackend.Kernels.WelfordMoments
import TorchMojoBackend.Ccl.Net.Fabric
import TorchMojoBackend.Ccl.Net.FabricDelivery
import TorchMojoBackend.Ccl.Net.FabricOverflow
import TorchMojoBackend.Compiler.BufferCache
import TorchMojoBackend.Compiler.SymInt
import TorchMojoBackend.Compiler.GraphInputs
import TorchMojoBackend.Compiler.GraphInputsExact
import TorchMojoBackend.Foundation.ThreadCode
import TorchMojoBackend.Kernels.Linalg.Cells
import TorchMojoBackend.Kernels.Linalg.Pivots
import TorchMojoBackend.Kernels.Linalg.PivotSafety
import TorchMojoBackend.Foundation.BlockThreads
import TorchMojoBackend.Foundation.BlockRules
import TorchMojoBackend.Foundation.BatchLaunch
import TorchMojoBackend.Kernels.Linalg.MatrixPhase
import TorchMojoBackend.Kernels.Linalg.Potrf
import TorchMojoBackend.Foundation.MatrixBlocks
import TorchMojoBackend.Kernels.Linalg.Trsm
import TorchMojoBackend.Kernels.Linalg.Cholesky
import TorchMojoBackend.Ops.Linalg.Views
import TorchMojoBackend.Ops.Linalg.Launches
import TorchMojoBackend.Ops.Linalg.Cholesky
import TorchMojoBackend.Kernels.ScanThreads
import TorchMojoBackend.Ccl.ShardRange
import TorchMojoBackend.Ccl.CopyLoops
import TorchMojoBackend.Foundation.NearestCode
import TorchMojoBackend.Foundation.FloatRounding
import TorchMojoBackend.Kernels.Float8
import TorchMojoBackend.Kernels.Float8Encoding
import TorchMojoBackend.Distributed.StoreWorker
import TorchMojoBackend.Distributed.StoreWorkerRuns
import TorchMojoBackend.Kernels.AtomicUpdates
import TorchMojoBackend.Kernels.Multinomial
import TorchMojoBackend.Kernels.Linalg.JacobiRounds

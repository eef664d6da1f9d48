import BitsAndBytes.MemAllocStrategies
import BitsAndBytes.BufferManagerClients
import BitsAndBytes.BufferManagerOccupancy
import BitsAndBytes.CircularQueueFifo
import BitsAndBytes.MemoryControllerLru
import BitsAndBytes.PrefetchingBounds
import BitsAndBytes.StridePrefetcher
import BitsAndBytes.PageTableTlb
import BitsAndBytes.PageFlushIsolation
import BitsAndBytes.PageFlushEntries
import BitsAndBytes.AllocatorRuns
import BitsAndBytes.BufferPoolRefinement
import BitsAndBytes.BufferPoolPins
import BitsAndBytes.BufferPoolLeaks
import BitsAndBytes.CpuWriteback
import BitsAndBytes.RwLockOwners
import BitsAndBytes.RwLockBufferStuck
import BitsAndBytes.WritePrefRwLockFairness
import BitsAndBytes.AggressiveRwLock
import BitsAndBytes.UpgradeableRwLockStuck
import BitsAndBytes.RtMutex
import BitsAndBytes.LeaderElection
import BitsAndBytes.SemaphoreMessages
import BitsAndBytes.SharedPointerLifetime
import BitsAndBytes.UniquePointer
import BitsAndBytes.CommandSchedulingOrder
import BitsAndBytes.TwoLevelCache
import BitsAndBytes.ReadWriteGroupingTransfers
import BitsAndBytes.SchedulingAlgorithmsBatch
import BitsAndBytes.SchedulingAlgorithmsThreads
import BitsAndBytes.AdaptiveScheduling
import BitsAndBytes.BatchScheduling
import BitsAndBytes.RoundRobinWaiting
import BitsAndBytes.RoundRobinTermination
import BitsAndBytes.MultiLevelQueueSharing
import BitsAndBytes.CompletelyFair
import BitsAndBytes.PrioritySchedulingTermination
import BitsAndBytes.ContextSwitchStatistics
import BitsAndBytes.PriorityInheritance
import BitsAndBytes.MultiCpu
import BitsAndBytes.ZeroCopyServer
import BitsAndBytes.ShellSplitting
import BitsAndBytes.MemoryPool
import BitsAndBytes.CustomAlloc
import BitsAndBytes.CustomBuffer
import BitsAndBytes.BinarySearchWrapping
import BitsAndBytes.MatrixMultiplyOptimized
import BitsAndBytes.TensorCore
import BitsAndBytes.AllocatorSweep
import BitsAndBytes.AllocatorNeighbours
import BitsAndBytes.AllocatorMark
import BitsAndBytes.ParallelArrays
import BitsAndBytes.DramTiming
import BitsAndBytes.NetworkStack
import BitsAndBytes.EchoServer
import BitsAndBytes.MappedDatabase
import BitsAndBytes.RandomPages
import BitsAndBytes.DramChip
import BitsAndBytes.FirstReady
import BitsAndBytes.UartReceiver

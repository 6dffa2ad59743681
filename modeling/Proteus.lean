import Proteus.BucketChain
import Proteus.Chunks
import Proteus.Distributed.ClusterControl
import Proteus.Distributed.QueryStatus
import Proteus.Gpu.BucketHeads
import Proteus.Gpu.BucketMoves
import Proteus.Gpu.BuildPartitions
import Proteus.Gpu.ChainKernels
import Proteus.Gpu.GpuToCpu
import Proteus.Gpu.GroupBy
import Proteus.Gpu.HashPartitioner
import Proteus.Gpu.PartitionRuns
import Proteus.Network.Delivery
import Proteus.Network.RemoteRead
import Proteus.Olap.BlockScan
import Proteus.Olap.BloomFilter
import Proteus.Olap.Compression
import Proteus.Olap.DivMod
import Proteus.Olap.ExtractDate
import Proteus.Olap.Hash
import Proteus.Olap.HashJoin
import Proteus.Olap.JoinTable
import Proteus.Olap.MemMove
import Proteus.Olap.RadixJoin
import Proteus.Olap.WorkUnits
import Proteus.Oltp.ArtBytes
import Proteus.Oltp.ArtOlcSafe
import Proteus.Oltp.CircularMaster
import Proteus.Oltp.DeltaGc
import Proteus.Oltp.DeltaMemory
import Proteus.Oltp.IntervalMap
import Proteus.Oltp.LazyColumn
import Proteus.Oltp.Snapshot
import Proteus.Oltp.StorageUtils
import Proteus.Planner.JoinSeq
import Proteus.Planner.LikeToJoin
import Proteus.Planner.ProjectPush
import Proteus.Platform.AsyncQueue
import Proteus.Platform.BufferManager
import Proteus.Platform.DeviceBuffers
import Proteus.Platform.MemoryManager
import Proteus.Platform.QueueConsumers
import Proteus.Platform.QueueReset
import Proteus.Platform.ThreadPool
import Proteus.Routing.Blocks
import Proteus.Routing.Conservation
import Proteus.Routing.ScaleOutExchange
import Proteus.Storage.FileRecord
import Proteus.Storage.IoUring
import Proteus.Vec

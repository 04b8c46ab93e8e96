import Straid.Split
import Straid.EcEncoder
import Straid.KFifo
import Straid.Cache
import Straid.Encode
import Straid.StorageMod
import Straid.ReadPath
import Straid.Delegation
import Straid.FullStripe
import Straid.DegradedRead
import Straid.ParityRows
import Straid.CacheCoherence
import Straid.AddressMap
import Straid.ParityPlacement
import Straid.Partition
import Straid.RequestIds
import Straid.WorkerPath
import Straid.DeltaEncoding
import Straid.ParityPositions
import Straid.ReconstructWrite
import Straid.DoubleParity
import Straid.TraceReplay
import Straid.Batches
import Straid.Handoffs
import Straid.RingDepth
import Straid.CacheCapacity
import Straid.Ownership
import Straid.QueueBounds
import Straid.RelaxedOrder
import Straid.KFifoThreads
import Straid.StrandedItems
import Straid.AlignedRanges
import Straid.RandomOffsets
import Straid.TraceLoader
import Straid.Workloads
import Straid.HashTable
import Straid.BitmapFlush
import Straid.ReadBack
import Straid.DegradedRuns
import Straid.Fairness
import Straid.Completion
import Straid.DecodeMatrix
import Straid.Submissions
import Straid.Linearization
import Straid.Conservation
import Straid.AtomicBitvector
import Straid.DirtyParts
import Straid.TraceText
import Straid.Accounting
import Straid.InitRaid
import Straid.ConcurrentReads
import Straid.SequentialRequests
import Straid.CacheThreads
import Straid.BenchRequests
import Straid.SeparateStripes

import Mccl.Agent.Pipeline
import Mccl.Backend.Acceptor
import Mccl.Backend.ByteStreams
import Mccl.Backend.ChunkTable
import Mccl.Backend.Completion
import Mccl.Backend.Compositions
import Mccl.Backend.ElementCount
import Mccl.Backend.Endpoints
import Mccl.Backend.Failures
import Mccl.Backend.ListStaging
import Mccl.Backend.Progress
import Mccl.Backend.SplitBounds
import Mccl.Coherence.Barrier
import Mccl.Coherence.PageCache
import Mccl.Distributed.Sharding
import Mccl.Distributed.TensorRegions
import Mccl.Dmem.Gets
import Mccl.Dmem.NodeRemoval
import Mccl.Dmem.ShortBuffers
import Mccl.Metal.Blits
import Mccl.Metal.ScaleFactors
import Mccl.Metal.Shaders
import Mccl.Runtime.Allocation
import Mccl.Runtime.FairShare
import Mccl.Runtime.HeartbeatMonitor
import Mccl.Runtime.MembershipLocks
import Mccl.Runtime.MemoryPool
import Mccl.Runtime.Placement
import Mccl.Runtime.ProgressEngine
import Mccl.Runtime.RegionRegistry
import Mccl.Runtime.Rendezvous
import Mccl.Runtime.ShaderDispatch

import Vpsim.Lib.StateSpec
import Vpsim.Lib.BitField
import Vpsim.Lib.Coverage
import Vpsim.Lib.Propagation
import Vpsim.Lib.Run
import Vpsim.Lib.ByteMemory
import Vpsim.Lib.OrderedMap
import Vpsim.Lib.Keeps
import Vpsim.Lib.Cooperative
import Vpsim.Lib.ByteBuffer
import Vpsim.Lib.Traversal
import Vpsim.Lib.Recency
import Vpsim.Lib.SortedMap
import Vpsim.Lib.Span
import Vpsim.Lib.PatternScan
import Vpsim.Lib.History
import Vpsim.Lib.RoundRobin
import Vpsim.Lib.Distance
import Vpsim.Lib.PriorityQueue
import Vpsim.Lib.Ledger
import Vpsim.Memory.Geometry
import Vpsim.Memory.CacheSet
import Vpsim.Memory.CacheBase
import Vpsim.Memory.CoherentAccess
import Vpsim.Memory.SoundCache
import Vpsim.Memory.View
import Vpsim.Memory.Hierarchy
import Vpsim.Memory.Invariant
import Vpsim.Memory.ForwardSpec
import Vpsim.Memory.HomeSpec
import Vpsim.Memory.HomeAccess
import Vpsim.Memory.NodeSpec
import Vpsim.Memory.CpuSpec
import Vpsim.Memory.Coherence
import Vpsim.Memory.ExclusiveHome
import Vpsim.Memory.NonCoherent
import Vpsim.Memory.Access
import Vpsim.Memory.AccessKeeps
import Vpsim.Memory.DirtyLines
import Vpsim.Memory.HitSound
import Vpsim.Memory.WriteAround
import Vpsim.Memory.EvictionNotice
import Vpsim.Memory.LineSplit
import Vpsim.Memory.HomePutS
import Vpsim.Memory.InstructionCache
import Vpsim.Memory.FetchFlags
import Vpsim.Memory.LruReplacement
import Vpsim.Memory.MruReplacement
import Vpsim.Memory.WayIndices
import Vpsim.Memory.TwoLevels
import Vpsim.Memory.Inclusion
import Vpsim.Connect.Interleave
import Vpsim.Connect.Mesh
import Vpsim.Connect.XYRouting
import Vpsim.Connect.MemoryControllers
import Vpsim.Connect.PacketLatency
import Vpsim.Connect.NetworkTiming
import Vpsim.Connect.BufferBounds
import Vpsim.Connect.NocStatistics
import Vpsim.Connect.Transport
import Vpsim.Connect.DeviceBursts
import Vpsim.Connect.FlitCounts
import Vpsim.Connect.Bookkeeping
import Vpsim.Connect.Positions
import Vpsim.Connect.NocTopology
import Vpsim.Connect.NocMesh
import Vpsim.Connect.Router
import Vpsim.Connect.Dijkstra
import Vpsim.Connect.DefaultRouting
import Vpsim.Connect.NocRing
import Vpsim.Connect.CycleAccurate
import Vpsim.Connect.Endpoints
import Vpsim.Core.HybridList
import Vpsim.Core.AddrSpace
import Vpsim.Core.ParamContainer
import Vpsim.Core.ContainerSpec
import Vpsim.Core.ContainerOps
import Vpsim.Core.ParameterSet
import Vpsim.Core.ParameterPool
import Vpsim.Core.Fragmentation
import Vpsim.Core.Defrag
import Vpsim.Core.ParameterSetModifier
import Vpsim.Core.ModifierChain
import Vpsim.Core.VpsimModule
import Vpsim.Core.RefreshSpec
import Vpsim.Core.TranslatedDelay
import Vpsim.Core.AllowedSpaces
import Vpsim.Core.Exports
import Vpsim.Core.Connections
import Vpsim.Core.Settling
import Vpsim.Core.DefiningEquations
import Vpsim.Core.Trimming
import Vpsim.Core.IntervalUpdate
import Vpsim.Core.ParameterAlgebra
import Vpsim.Core.RangeQuery
import Vpsim.Core.CallOrder
import Vpsim.Core.TranslationFailure
import Vpsim.Core.Appointments
import Vpsim.Core.ParamScheduler
import Vpsim.Core.LoggerScheduler
import Vpsim.Peripherals.Gic
import Vpsim.Peripherals.GicAccess
import Vpsim.Peripherals.GicServe
import Vpsim.Peripherals.GicKeeps
import Vpsim.Peripherals.GicEnable
import Vpsim.Peripherals.GicIndex
import Vpsim.Peripherals.GicFootprint
import Vpsim.Peripherals.GicPrivate
import Vpsim.Peripherals.GicAck
import Vpsim.Peripherals.GicVirtualEnd
import Vpsim.Peripherals.GicRefusal
import Vpsim.Peripherals.GicBanked
import Vpsim.Peripherals.GicStatus
import Vpsim.Peripherals.GicVmcr
import Vpsim.Peripherals.RemoteTransaction
import Vpsim.Peripherals.RemoteInStep
import Vpsim.Peripherals.RemotePoll
import Vpsim.Peripherals.Rtc
import Vpsim.Core.TargetIf
import Vpsim.Core.SpaceAlgebra
import Vpsim.Peripherals.ItCtrl
import Vpsim.Memory.MainMemory
import Vpsim.Memory.ElfLoader
import Vpsim.Peripherals.SesamController
import Vpsim.Peripherals.Xuartps
import Vpsim.Cosim.MainMemCosim
import Vpsim.Cosim.Order
import Vpsim.Cosim.CaptureMarkers
import Vpsim.Components.SegmentedStats
import Vpsim.Components.SmartUart
import Vpsim.Cosim.Delays
import Vpsim.Cosim.Progress
import Vpsim.Cosim.Epochs
import Vpsim.Lib.CircularBuffer
import Vpsim.Cosim.ReaderWriterQueue
import Vpsim.Cosim.IOAccessCosim

import McSim.Lib.Multimap
import McSim.Lib.Contract
import McSim.Lib.RingBuffer
import McSim.Lib.Agenda
import McSim.Lib.OrderedMap
import McSim.Lib.SetAssociative
import McSim.Lib.BitFields
import McSim.Lib.Lru
import McSim.Lib.BatchQueue
import McSim.Lib.Waiting
import McSim.Component
import McSim.GlobalEventQueue
import McSim.Crossbar
import McSim.CrossbarDispatch
import McSim.CrossbarDelivery
import McSim.CacheL2
import McSim.CacheL2Invariant
import McSim.CacheL2Conservation
import McSim.CacheL2Ledger
import McSim.Directory
import McSim.DirectoryNet
import McSim.DirectoryInvariant
import McSim.DirectoryStages
import McSim.DirectoryMessages
import McSim.DirectoryRun
import McSim.DirectoryTrail
import McSim.DirectoryCopies
import McSim.DirectoryHandled
import McSim.DirectoryTaken
import McSim.DirectoryWriteBack
import McSim.WakeUp
import McSim.Pthread.Pts
import McSim.Pthread.Batching
import McSim.Pthread.Scheduler
import McSim.Pthread.HthreadMap
import McSim.Pthread.SchedulerThreads
import McSim.Pthread.Sim
import McSim.Pthread.SimMoves
import McSim.Pthread.SimQueues
import McSim.Pthread.SimSettled
import McSim.Pthread.SimKill
import McSim.Pthread.Join
import McSim.Pthread.JoinOrders
import McSim.Lib.LastWrite
import McSim.Pthread.Key
import McSim.Pthread.KeyErrors
import McSim.Pthread.Malloc
import McSim.O3Core
import McSim.O3CorePhases
import McSim.O3CoreRings
import McSim.O3CoreFetch
import McSim.O3CoreClock
import McSim.O3CoreHistory
import McSim.O3CoreNamed
import McSim.O3CoreDependency
import McSim.O3CoreSequence
import McSim.O3CoreProgress
import McSim.O3CoreSingle
import McSim.BranchPrediction
import McSim.TLB
import McSim.TLBConsistency
import McSim.TLBExact
import McSim.Pthread.FlowControl
import McSim.Pthread.Mailbox
import McSim.DirectoryCache
import McSim.DirectoryVictims
import McSim.DirectoryInfo
import McSim.DirectoryStation
import McSim.TraceGen
import McSim.Pthread.PlayTraces
import McSim.TraceRoundTrip
import McSim.MemoryController
import McSim.MemoryControllerSelection
import McSim.MemoryControllerConservation
import McSim.MemoryControllerTiming
import McSim.MemoryControllerBus
import McSim.MemoryControllerAvailability
import McSim.MemoryControllerCandidate
import McSim.MemoryControllerBatch
import McSim.MemoryControllerRows
import McSim.MemoryControllerRowHits
import McSim.AddressMapping
import McSim.PageAccounting
import McSim.CacheL1
import McSim.CacheL1Lines
import McSim.CacheL1DirRd
import McSim.CacheL1Sets
import McSim.CacheL2Sets
import McSim.CacheReplacement
import McSim.Lib.Loop
import McSim.Topology
import McSim.Lib.Weighing
import McSim.Machine
import McSim.NackAccounting
import McSim.Lib.Inbox
import McSim.Routes
import McSim.RoutesL1
import McSim.RoutesL2
import McSim.RoutesDirectory
import McSim.ReturnPath
import McSim.Connected
import McSim.RequestCopies
import McSim.Lib.Rotation
import McSim.CacheL1Prefetch
import McSim.Latencies
import McSim.MachineWakeUp
import McSim.Lib.Blocks
import McSim.Pthread.Backend
import McSim.Pthread.BackendRuns

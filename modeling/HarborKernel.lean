import HarborKernel.Transition
import HarborKernel.RingBuffer
import HarborKernel.ReadyQueue
import HarborKernel.TaskTable
import HarborKernel.TaskInvariant
import HarborKernel.TaskSteps
import HarborKernel.TaskSwitch
import HarborKernel.SchedulerRuns
import HarborKernel.Processors
import HarborKernel.StackSafety
import HarborKernel.ResumeAfterSave
import HarborKernel.Capability
import HarborKernel.Ipc
import HarborKernel.IrqWait
import HarborKernel.ParkTime
import HarborKernel.CapSlots
import HarborKernel.LockSections
import HarborKernel.SectionSteps
import HarborKernel.IpcWaiters
import HarborKernel.RecvWakeup
import HarborKernel.IrqWakeup
import HarborKernel.TimedRecv
import HarborKernel.CancelMatch
import HarborKernel.SignalMatch
import HarborKernel.IpcHolds
import HarborKernel.CapSections
import HarborKernel.CapTenancy
import HarborKernel.AutoReap
import HarborKernel.ByteWords
import HarborKernel.ErrorState
import HarborKernel.DurableMedia
import HarborKernel.PowerCuts
import HarborKernel.StorePartition
import HarborKernel.Paging
import HarborKernel.PageWalk
import HarborKernel.KernelMap
import HarborKernel.KernelMapSteps
import HarborKernel.UnmapSteps
import HarborKernel.UnmapRuns
import HarborKernel.AddressSpace
import HarborKernel.FrameMemory
import HarborKernel.CloneTables
import HarborKernel.UserPages
import HarborKernel.PreparedSpace
import HarborKernel.WindowPages
import HarborKernel.SpaceCalls
import HarborKernel.SpaceRuns
import HarborKernel.BlankKernel
import HarborKernel.SpaceIsolation
import HarborKernel.RegionPlacement
import HarborKernel.FrameConservation
import HarborKernel.Channels
import HarborKernel.ChannelTable
import HarborKernel.ChannelRuns
import HarborKernel.ChannelIdentity
import HarborKernel.SendHolds
import HarborKernel.ByteStrings
import HarborKernel.DurableBlobs
import HarborKernel.BlobService
import HarborKernel.CyclicTable
import HarborKernel.PacketPool
import HarborKernel.ReadyList
import HarborKernel.GenetRing
import HarborKernel.GenetNet
import HarborKernel.GenetSending
import HarborKernel.GenetRuns
import HarborKernel.GenetReceiving
import HarborKernel.VirtioNet
import HarborKernel.VirtioQueues
import HarborKernel.VirtioRuns
import HarborKernel.NetworkRuntime
import HarborKernel.NetworkServer
import HarborKernel.TransmitReports
import HarborKernel.NetworkBackends
import HarborKernel.TransportStock
import HarborKernel.ReceiveSlots
import HarborKernel.AgentStore
import HarborKernel.LoaderPlan
import HarborKernel.StoreAuthority
import HarborKernel.SlotAliasing
import HarborKernel.Stealing
import HarborKernel.QueueProgress
import HarborKernel.StackHandout
import HarborKernel.StaleIds
import HarborKernel.CapMoves
import HarborKernel.FreeList
import HarborKernel.BlockTiling
import HarborKernel.HeapShape
import HarborKernel.HeapAlloc
import HarborKernel.HeapFree
import HarborKernel.HeapRuns
import HarborKernel.HeapContract
import HarborKernel.DoubleFree
import HarborKernel.PageChunks
import HarborKernel.FrameStack
import HarborKernel.PacketWire
import HarborKernel.PacketRuns
import HarborKernel.BitWords
import HarborKernel.TextGrid
import HarborKernel.TextDrain
import HarborKernel.StatusFrame
import HarborKernel.Mailbox
import HarborKernel.GenetFifo
import HarborKernel.KernelLayout
import HarborKernel.PokeText
import HarborKernel.StorePacking
import HarborKernel.PeriodicTimer
import HarborKernel.RunQueueCalls

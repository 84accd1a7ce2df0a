import NexusKernel.Common.Mem
import NexusKernel.Common.Run
import NexusKernel.Common.Bits
import NexusKernel.Common.Tiling
import NexusKernel.Memory.Kheap
import NexusKernel.Memory.KheapRepr
import NexusKernel.Memory.KheapInvariant
import NexusKernel.Memory.KheapCanonical
import NexusKernel.Common.Bitmap
import NexusKernel.Memory.Pmm
import NexusKernel.Memory.PmmAccounting
import NexusKernel.Memory.PmmKernelImage
import NexusKernel.Memory.Vmm
import NexusKernel.Memory.PageTables
import NexusKernel.Memory.AddressSpaces
import NexusKernel.Common.Chain
import NexusKernel.Lib.String
import NexusKernel.Process.Process
import NexusKernel.Process.Scheduler
import NexusKernel.Process.SchedulerView
import NexusKernel.Process.SchedulerRuns
import NexusKernel.Process.SchedulerSafety
import NexusKernel.Process.ReadyQueue
import NexusKernel.Process.WakeUps
import NexusKernel.Process.Termination
import NexusKernel.Process.ProcessTable
import NexusKernel.Common.Heap
import NexusKernel.Common.Tree
import NexusKernel.Fs.Ramfs
import NexusKernel.Memory.KernelMappings
import NexusKernel.Fs.Vfs
import NexusKernel.Fs.Mounts
import NexusKernel.Fs.RamfsTree
import NexusKernel.Fs.FileData
import NexusKernel.Fs.RamfsCalls
import NexusKernel.Common.Ownership
import NexusKernel.Fs.RamfsBlocks
import NexusKernel.Fs.Directories
import NexusKernel.Fs.FileBytes
import NexusKernel.Fs.HeldBlocks
import NexusKernel.Fs.Leftovers
import NexusKernel.Syscall.Paths
import NexusKernel.Memory.MemoryMaps
import NexusKernel.Memory.PmmExhaustion
import NexusKernel.Memory.KheapSizes
import NexusKernel.Memory.KheapAligned
import NexusKernel.Memory.IdentityMap
import NexusKernel.Common.Ring
import NexusKernel.Drivers.Keyboard
import NexusKernel.Drivers.Driver
import NexusKernel.Drivers.Lifecycle
import NexusKernel.Lib.Vga
import NexusKernel.Memory.KheapRealloc
import NexusKernel.Fs.FileBounds
import NexusKernel.Memory.KheapClient
import NexusKernel.Fs.FileCreation
import NexusKernel.Fs.UsableDirectories
import NexusKernel.Fs.PathBuffer
import NexusKernel.Lib.StringFields
import NexusKernel.Memory.OwnedFrames
import NexusKernel.Process.PidReuse
import NexusKernel.Process.CreateUnwinding
import NexusKernel.Memory.PageRights
import NexusKernel.Common.Numeral
import NexusKernel.Lib.Stdio
import NexusKernel.Common.Orbit
import NexusKernel.Cpu.Gdt
import NexusKernel.Drivers.Timer
import NexusKernel.Memory.MapWalk
import NexusKernel.Process.Quantum
import NexusKernel.Syscall.Write
import NexusKernel.Drivers.Listing
import NexusKernel.Lib.Copies
import NexusKernel.Lib.StringOrder
import NexusKernel.Process.RoundRobin
import NexusKernel.Process.Preemption
import NexusKernel.Common.X86
import NexusKernel.Cpu.Idt
import NexusKernel.Cpu.Pic
import NexusKernel.Cpu.Interrupts
import NexusKernel.Process.ContextSwitch
import NexusKernel.Process.CurrentProcess
import NexusKernel.Syscall.Dispatch
import NexusKernel.Common.Cache
import NexusKernel.Memory.Tlb
import NexusKernel.Common.Follow
import NexusKernel.Fs.PathMap
import NexusKernel.Fs.PathCalls
import NexusKernel.Common.SharedHeap
import NexusKernel.Fs.Footprint
import NexusKernel.Process.Footprint
import NexusKernel.System.HeapClients
import NexusKernel.Common.Capacity
import NexusKernel.System.ProcessMemory

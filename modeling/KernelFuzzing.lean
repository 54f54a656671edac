import KernelFuzzing.Foundation.Run
import KernelFuzzing.Foundation.Memory
import KernelFuzzing.Mmu.Bitmap
import KernelFuzzing.Foundation.Ownership
import KernelFuzzing.Mmu.PageOwnership
import KernelFuzzing.Foundation.PageWalk
import KernelFuzzing.Mmu.PageTable
import KernelFuzzing.Mmu.Kmalloc
import KernelFuzzing.Mmu.Translation
import KernelFuzzing.Mmu.Exhaustion
import KernelFuzzing.Foundation.Chain
import KernelFuzzing.Scheduler.Sched
import KernelFuzzing.Scheduler.RoundRobin
import KernelFuzzing.Scheduler.Conservation
import KernelFuzzing.Scheduler.Confined
import KernelFuzzing.Foundation.AArch64
import KernelFuzzing.Vectors.Text
import KernelFuzzing.Vectors.Frame
import KernelFuzzing.Vectors.Entry
import KernelFuzzing.Vectors.Switch
import KernelFuzzing.Vectors.Nested
import KernelFuzzing.Block.Backend
import KernelFuzzing.Block.Requests
import KernelFuzzing.Foundation.Slots
import KernelFuzzing.Block.Slots
import KernelFuzzing.Block.Ring
import KernelFuzzing.Block.Completion
import KernelFuzzing.Block.Disk
import KernelFuzzing.VirtioBlk.Init
import KernelFuzzing.Foundation.Exclusive
import KernelFuzzing.Sync.Spinlock
import KernelFuzzing.Foundation.Nesting
import KernelFuzzing.Sync.Mask
import KernelFuzzing.Mmu.UserTables
import KernelFuzzing.Mmu.UserMapping
import KernelFuzzing.Mmu.Isolation
import KernelFuzzing.Mmu.Windows
import KernelFuzzing.Mmu.FirstFit
import KernelFuzzing.Mmu.ResultArray
import KernelFuzzing.Foundation.Bump
import KernelFuzzing.Mmu.BumpAllocator
import KernelFuzzing.Mmu.Contiguous
import KernelFuzzing.Mmu.BitmapSize
import KernelFuzzing.Foundation.Lowest
import KernelFuzzing.Foundation.Reading
import KernelFuzzing.Foundation.DeviceTree
import KernelFuzzing.Dtd.Walkers
import KernelFuzzing.Dtd.Tokens
import KernelFuzzing.Dtd.InStep
import KernelFuzzing.Dtd.Blob
import KernelFuzzing.Dtd.Bounds
import KernelFuzzing.Dtd.TotalRam
import KernelFuzzing.Dtd.DriveInfo
import KernelFuzzing.Foundation.Rotation
import KernelFuzzing.Block.Sequential
import KernelFuzzing.Block.Queue
import KernelFuzzing.Mmu.ReservedTables
import KernelFuzzing.Foundation.Descriptor
import KernelFuzzing.Mmu.Encoding
import KernelFuzzing.Mmu.FindFree
import KernelFuzzing.Start.Bss
import KernelFuzzing.Foundation.Decimal
import KernelFuzzing.Uart.Output
import KernelFuzzing.Uart.Digits
import KernelFuzzing.Uart.Printf
import KernelFuzzing.Fuzzing.Ops
import KernelFuzzing.Fuzzing.Sequence
import KernelFuzzing.Scheduler.InMemory
import KernelFuzzing.Scheduler.Waiting
import KernelFuzzing.Block.Sectors
import KernelFuzzing.Block.InFlight
import KernelFuzzing.Foundation.Progress
import KernelFuzzing.Sync.Progress
import KernelFuzzing.Foundation.Code
import KernelFuzzing.Start.Boot
import KernelFuzzing.Mmu.HeapMemory
import KernelFuzzing.Mmu.UserAccess
import KernelFuzzing.Mmu.HeapAccess
import KernelFuzzing.Start.InitTask
import KernelFuzzing.Start.Kmain

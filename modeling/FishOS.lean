import FishOS.Heap.Misses
import FishOS.Sched.GsBase
import FishOS.Mem.FlatMap
import FishOS.Fs.ByteArray
import FishOS.Mem.Handout
import FishOS.Mem.PmmInit
import FishOS.Sched.KernelHalf
import FishOS.Sched.DemandPaging
import FishOS.Sched.Program
import FishOS.Klib.ListRing
import FishOS.Sched.Dispatch
import FishOS.Sched.Preempt
import FishOS.Mem.Locking
import FishOS.Fs.Cwd
import FishOS.Fs.SequentialIo
import FishOS.Fs.LoadInto
import FishOS.Klib.FiniteMap
import FishOS.Heap.Buddies
import FishOS.Ps2.KeyboardFifo
import FishOS.Gfx.Damage
import FishOS.Cpu.Routing
import FishOS.Acpi.Bounds
import FishOS.Fs.Registry
import FishOS.Mem.FreePages
import FishOS.Mem.Regions
import FishOS.Mem.RejectedFault
import FishOS.Sched.MmapRanges
import FishOS.Heap.LargeRequests
import FishOS.Fs.BufferBounds
import FishOS.Fs.HeapFile
import FishOS.Fs.MissingPath
import FishOS.Fs.Slashes
import FishOS.Sched.RoundRobin
import FishOS.Klib.Rehash
import FishOS.Fs.FreshNodes
import FishOS.Fs.GetcwdBounds
import FishOS.Fs.LoaderReads
import FishOS.Klib.Conversions
import FishOS.Klib.Format
import FishOS.Klib.PrintfReturns
import FishOS.Klib.PrintedNumbers
import FishOS.Fs.ConsoleWrite
import FishOS.Klib.Occupancy
import FishOS.Klib.BitmapCells
import FishOS.Klib.StaticGuards
import FishOS.Acpi.Progress
import FishOS.Gfx.Rectangles
import FishOS.Sched.ApicTimer
import FishOS.Heap.Fixpoint
import FishOS.Sched.Noninterference
import FishOS.Lib.X86.Machine
import FishOS.Lib.X86.Routine
import FishOS.Lib.X86.Strings
import FishOS.Klib.MemAsm
import FishOS.Cpu.GateWrappers
import FishOS.Cpu.SyscallEntry

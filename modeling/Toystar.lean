import Toystar.Drivers.Console
import Toystar.Drivers.Keyboard
import Toystar.Drivers.Tty
import Toystar.Fs.CallOpens
import Toystar.Fs.CallRuns
import Toystar.Fs.CallSteps
import Toystar.Fs.CallTables
import Toystar.Fs.Cursor
import Toystar.Fs.Dispatch
import Toystar.Fs.FileBounds
import Toystar.Fs.FilePaths
import Toystar.Fs.FileRuns
import Toystar.Fs.FileSound
import Toystar.Fs.FileStore
import Toystar.Fs.FileWrites
import Toystar.Fs.Files
import Toystar.Fs.Fork
import Toystar.Fs.InitTmpfs
import Toystar.Fs.Initrd
import Toystar.Fs.Lookup
import Toystar.Fs.Mounts
import Toystar.Fs.Offsets
import Toystar.Fs.OpenLeak
import Toystar.Fs.OutOfMemory
import Toystar.Fs.PathBounds
import Toystar.Fs.Programs
import Toystar.Fs.Tmpfs
import Toystar.Fs.TmpfsFile
import Toystar.Fs.TmpfsForm
import Toystar.Fs.TmpfsOps
import Toystar.Fs.TmpfsPath
import Toystar.Fs.TmpfsTree
import Toystar.Fs.Vfs
import Toystar.Kernel.Lock
import Toystar.Klibc.Bitmap
import Toystar.Klibc.Map
import Toystar.Klibc.Memory
import Toystar.Klibc.Numerals
import Toystar.Klibc.Queue
import Toystar.Klibc.Strings
import Toystar.Klibc.Vector
import Toystar.Klibc.VectorRuns
import Toystar.Loader.Arguments
import Toystar.Loader.Bounds
import Toystar.Loader.Contents
import Toystar.Loader.Elf
import Toystar.Loader.Image
import Toystar.Loader.Isolation
import Toystar.Loader.Program
import Toystar.Loader.Rollback
import Toystar.Loader.StackTop
import Toystar.Loader.Validity
import Toystar.Memory.AddressSpaces
import Toystar.Memory.Destroy
import Toystar.Memory.Duplicate
import Toystar.Memory.FramesInUse
import Toystar.Memory.FramesTaken
import Toystar.Memory.Heap
import Toystar.Memory.HeapAlloc
import Toystar.Memory.HeapForeign
import Toystar.Memory.HeapLists
import Toystar.Memory.HeapMerge
import Toystar.Memory.HeapRealloc
import Toystar.Memory.HeapRequest
import Toystar.Memory.HeapRest
import Toystar.Memory.HeapRun
import Toystar.Memory.HeapShape
import Toystar.Memory.HeapSplit
import Toystar.Memory.LiveFrames
import Toystar.Memory.PageTree
import Toystar.Memory.Pmm
import Toystar.Memory.PmmCores
import Toystar.Memory.PmmInit
import Toystar.Memory.PmmRun
import Toystar.Memory.SpaceCopies
import Toystar.Memory.SpaceFork
import Toystar.Memory.SpacePrivacy
import Toystar.Memory.SpaceRuns
import Toystar.Memory.SpaceSound
import Toystar.Memory.Vmm
import Toystar.Memory.VmmCopy
import Toystar.Memory.VmmExhaustion
import Toystar.Memory.VmmFrames
import Toystar.Memory.VmmRange
import Toystar.Memory.VmmRun
import Toystar.Memory.VmmSpec
import Toystar.Scheduler.Conservation
import Toystar.Scheduler.Exit
import Toystar.Scheduler.ExitFrame
import Toystar.Scheduler.ExitSafety
import Toystar.Scheduler.Handshake
import Toystar.Scheduler.Ids
import Toystar.Scheduler.KernelStack
import Toystar.Scheduler.Lifecycle
import Toystar.Scheduler.LockSafety
import Toystar.Scheduler.Locks
import Toystar.Scheduler.Pids
import Toystar.Scheduler.RoundRobin
import Toystar.Scheduler.Sched
import Toystar.Scheduler.Tick
import Toystar.Scheduler.TickSafety
import Toystar.Verified.Buddy
import Toystar.Verified.ByteMem
import Toystar.Verified.Chain
import Toystar.Verified.FirstFit
import Toystar.Verified.LittleEndian
import Toystar.Verified.Locked
import Toystar.Verified.NameTree
import Toystar.Verified.PathTree
import Toystar.Verified.Pool
import Toystar.Verified.Rotation
import Toystar.Verified.Run
import Toystar.Verified.Tiling
import Toystar.X86.EntryStubs
import Toystar.X86.IoApic
import Toystar.X86.Madt

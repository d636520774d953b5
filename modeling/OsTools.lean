import OsTools.Lib.Run
import OsTools.Lib.Count
import OsTools.Lib.Bytes
import OsTools.Lib.Tiling
import OsTools.Lib.Word
import OsTools.Lib.Except
import OsTools.Lib.Ring
import OsTools.Lib.DList
import OsTools.Lib.Runs
import OsTools.Threads.Semaphore
import OsTools.Threads.Lock
import OsTools.Threads.RwLock
import OsTools.Threads.RwLockInv
import OsTools.Threads.RwLockQueue
import OsTools.Threads.RwLockSafe
import OsTools.Threads.Scheduler
import OsTools.Devices.Intq
import OsTools.Devices.Serial
import OsTools.MmAlloc.Heap
import OsTools.MmAlloc.Shape
import OsTools.MmAlloc.Free
import OsTools.MmAlloc.Malloc
import OsTools.MmAlloc.Realloc
import OsTools.MmAlloc.Program
import OsTools.MmAlloc.Intact
import OsTools.Vm.Vaddr
import OsTools.Vm.Pagedir
import OsTools.Vm.Palloc
import OsTools.Vm.Load
import OsTools.Vm.Sbrk
import OsTools.Vm.Coverage
import OsTools.Vm.Break
import OsTools.Vm.Frames
import OsTools.Userprog.Load
import OsTools.Userprog.Start
import OsTools.Kernel.Bitmap
import OsTools.Kernel.BitVector
import OsTools.Kernel.List
import OsTools.Kernel.ListOps
import OsTools.Kernel.Lists
import OsTools.Threads.Palloc
import OsTools.Threads.Malloc
import OsTools.Threads.Arenas
import OsTools.Threads.FreeBlocks
import OsTools.Threads.MallocSteps
import OsTools.Threads.MallocSound
import OsTools.Threads.MallocRun
import OsTools.Threads.Capacity
import OsTools.Threads.PallocSteps
import OsTools.Threads.PallocSafe
import OsTools.Filesys.Inode
import OsTools.Filesys.FreeMap
import OsTools.Filesys.Layout
import OsTools.Filesys.Alloc
import OsTools.Filesys.Arrays
import OsTools.Filesys.Handles
import OsTools.Filesys.References
import OsTools.Filesys.Directory
import OsTools.Filesys.Scan
import OsTools.Filesys.DirOps
import OsTools.Filesys.DirMap
import OsTools.Filesys.FileSystem
import OsTools.Filesys.FileOps
import OsTools.Filesys.Format
import OsTools.Filesys.Session
import OsTools.Filesys.Reboot
import OsTools.Lib.Mask
import OsTools.Paging.Pte
import OsTools.Paging.Pagedir
import OsTools.Paging.Repr
import OsTools.Paging.Operations
import OsTools.Paging.Destroy
import OsTools.Paging.History
import OsTools.Words.Count
import OsTools.Words.Automata
import OsTools.Kernel.ListSort
import OsTools.Kernel.Hash
import OsTools.Kernel.HashTable
import OsTools.Kernel.Rehash
import OsTools.Kernel.HashWalk
import OsTools.Kernel.HashSet
import OsTools.Words.Pwords
import OsTools.Shell.Tokenizer
import OsTools.Shell.Commands
import OsTools.Shell.Quoting
import OsTools.Shell.Bounds
import OsTools.Shell.Redirection
import OsTools.Shell.Stages
import OsTools.Shell.ReadLoop
import OsTools.Shell.Pipeline
import OsTools.Shell.Deadlock
import OsTools.Lib.BigEndian
import OsTools.Lib.Text
import OsTools.MapReduce.Codec
import OsTools.Http.Messages
import OsTools.Http.Server
import OsTools.Vm.HeapStart
import OsTools.Vm.Rollback
import OsTools.Filesys.CreateFails
import OsTools.MmAlloc.Contents
import OsTools.MmAlloc.Refused
import OsTools.MmAlloc.Sums
import OsTools.Lib.Traversal
import OsTools.Devices.Partition
import OsTools.Lib.Grouping
import OsTools.Lib.Tally
import OsTools.MapReduce.Apps
import OsTools.MapReduce.Counting
import OsTools.Lib.CString
import OsTools.Lib.Digits
import OsTools.Filesys.Ustar
import OsTools.Filesys.Fsutil
import OsTools.Filesys.Extract
import OsTools.Lib.Estimate
import OsTools.Kernel.Arithmetic
import OsTools.Threads.FixedPoint
import OsTools.Kernel.InPlaceSort
import OsTools.Lib.Heap
import OsTools.Filesys.Headers
import OsTools.Words.Limits
import OsTools.Vm.SyscallArgs
import OsTools.Stdlib.Memmove
import OsTools.Stdlib.Strtok
import OsTools.Stdlib.Sort
import OsTools.Stdlib.Search
import OsTools.Stdlib.Printf
import OsTools.Stdlib.FormatInteger
import OsTools.Stdlib.Formats
import OsTools.Kernel.Unique
import OsTools.Devices.Access
import OsTools.Stdlib.Snprintf
import OsTools.Lib.RelativePath
import OsTools.Http.RequestLine
import OsTools.Http.Confinement
import OsTools.MapReduce.Grep
import OsTools.Lib.Processor
import OsTools.Threads.Switch
import OsTools.Threads.Preempt
import OsTools.Kernel.Console
import OsTools.Devices.Vga
import OsTools.Stdlib.Random
import OsTools.Devices.Rtc
import OsTools.Devices.Kbd
import OsTools.Lib.Trap
import OsTools.Threads.IntrStubs
import OsTools.Vm.SyscallStubs
import OsTools.Lib.Fields
import OsTools.Userprog.Descriptors
import OsTools.Userprog.AddressSpaces
import OsTools.Threads.Monitor
import OsTools.Devices.Ide
import OsTools.Paging.Mmu
import OsTools.Paging.Init
import OsTools.Boot.CommandLine
import OsTools.Boot.Options

import X86OsDev.Lib.Transition
import X86OsDev.Lib.Counting
import X86OsDev.Lib.Memory
import X86OsDev.Lib.Crash
import X86OsDev.Lib.Tiling
import X86OsDev.Lib.CircularList
import X86OsDev.Xv6.Param
import X86OsDev.Xv6.Disk
import X86OsDev.Xv6.Pipe
import X86OsDev.Xv6.PipeWakeups
import X86OsDev.Xv6.Proc
import X86OsDev.Xv6.ProcKill
import X86OsDev.Xv6.LogProtocol
import X86OsDev.Xv6.LogAdmission
import X86OsDev.Xv6.LogRecovery
import X86OsDev.Xv6.LogCrash
import X86OsDev.Tutorial.OrderedArray
import X86OsDev.Tutorial.Heap
import X86OsDev.Tutorial.HeapTiling
import X86OsDev.Tutorial.HeapAlloc
import X86OsDev.Tutorial.HeapFree
import X86OsDev.Tutorial.HeapLaw
import X86OsDev.Lib.Fault
import X86OsDev.Xv6.Mmu
import X86OsDev.Xv6.Vm
import X86OsDev.Xv6.VmPages
import X86OsDev.Xv6.VmMap
import X86OsDev.Xv6.VmFree
import X86OsDev.Xv6.VmBuild
import X86OsDev.Xv6.VmUser
import X86OsDev.Xv6.Exec
import X86OsDev.Xv6.ExecLoad
import X86OsDev.Xv6.ExecStack
import X86OsDev.Xv6.ExecLaw
import X86OsDev.Xv6.VmOwners
import X86OsDev.Xv6.Pages
import X86OsDev.Xv6.PageInv
import X86OsDev.Xv6.PageFiles
import X86OsDev.Xv6.PageCalls
import X86OsDev.Xv6.PageProcs
import X86OsDev.Xv6.PageBoot
import X86OsDev.Xv6.PageLaw
import X86OsDev.Xv6.VmFork
import X86OsDev.Xv6.ExecSegments
import X86OsDev.Xv6.ExecCall
import X86OsDev.Xv6.PageGrow
import X86OsDev.Xv6.PipeFifo
import X86OsDev.Xv6.LogCommit
import X86OsDev.Xv6.ProcPids
import X86OsDev.Tutorial.FrameLaw
import X86OsDev.Tutorial.Tasks
import X86OsDev.Tutorial.DirectoryLaw
import X86OsDev.Xv6.BufCacheLaw
import X86OsDev.Lib.Ownership
import X86OsDev.Xv6.FsContentLaw
import X86OsDev.Xv6.FileLaw
import X86OsDev.Xv6.SleepLock
import X86OsDev.Tutorial.ReadyQueue
import X86OsDev.Tutorial.HeapAligned
import X86OsDev.Tutorial.HeapContract
import X86OsDev.Lib.CString
import X86OsDev.Tutorial.Initrd
import X86OsDev.Tutorial.InitrdLaw
import X86OsDev.Lib.LinkedQueue
import X86OsDev.Xv6.Ide
import X86OsDev.Xv6.IdeInv
import X86OsDev.Xv6.IdeLaw
import X86OsDev.Xv6.FileRw
import X86OsDev.Xv6.FileRwLaw
import X86OsDev.Xv6.FileWrite
import X86OsDev.Xv6.Mkfs
import X86OsDev.Xv6.MkfsImage
import X86OsDev.Xv6.MkfsAppend
import X86OsDev.Xv6.MkfsBuild
import X86OsDev.Xv6.MkfsLaw
import X86OsDev.Xv6.MkfsSound
import X86OsDev.Tutorial.InitrdRead
import X86OsDev.Tutorial.InitrdDir
import X86OsDev.Tutorial.HeapPages
import X86OsDev.Tutorial.PagingBlocks
import X86OsDev.Tutorial.HeapTouch
import X86OsDev.Xv6.ExecArgs
import X86OsDev.Xv6.Sh
import X86OsDev.Xv6.ShTokens
import X86OsDev.Xv6.ShGrammar
import X86OsDev.Xv6.ShParse
import X86OsDev.Xv6.ShWords
import X86OsDev.Lib.SlotTable
import X86OsDev.Xv6.Dir
import X86OsDev.Xv6.DirTable
import X86OsDev.Xv6.DirLaw
import X86OsDev.Xv6.DirLink
import X86OsDev.Xv6.Namex
import X86OsDev.Xv6.MkfsDir
import X86OsDev.Xv6.DirMap
import X86OsDev.Xv6.NamexLaw
import X86OsDev.Xv6.MkfsRead
import X86OsDev.Xv6.GrepReads
import X86OsDev.Xv6.Mp
import X86OsDev.Lib.RingBuffer
import X86OsDev.Xv6.ConsoleLaw
import X86OsDev.Xv6.VmInverse
import X86OsDev.Xv6.SyscallArgs
import X86OsDev.Lib.Numeral
import X86OsDev.Lib.Terminal
import X86OsDev.Tutorial.Monitor
import X86OsDev.Tutorial.MonitorLaw
import X86OsDev.Tutorial.OrderedArrayLaw
import X86OsDev.Tutorial.DescriptorTables
import X86OsDev.Lib.Copying
import X86OsDev.Xv6.X86
import X86OsDev.Xv6.MemOps
import X86OsDev.Xv6.Boot
import X86OsDev.Xv6.BootLaw
import X86OsDev.Xv6.Spinlock
import X86OsDev.Xv6.SpinlockLaw
import X86OsDev.Lib.Recording
import X86OsDev.Tutorial.OrderedArrayBounds
import X86OsDev.Tutorial.HeapIndexLaw
import X86OsDev.Tutorial.HeapCut
import X86OsDev.Lib.Fuel
import X86OsDev.Tutorial.PagingLaw
import X86OsDev.Xv6.SchedulerLaw
import X86OsDev.Xv6.SchedulerHold
import X86OsDev.Lib.Extents
import X86OsDev.Xv6.UmallocLaw
import X86OsDev.Lib.ForkJoin
import X86OsDev.Xv6.ShRun
import X86OsDev.Xv6.ShRunFiles
import X86OsDev.Xv6.ShRunPipes
import X86OsDev.Xv6.ShRunSteps

import OsKernel.Library.IntrusiveList
import OsKernel.Library.LinkStore
import OsKernel.Library.Outcome
import OsKernel.Library.RingBuffer
import OsKernel.Library.ByteMemory
import OsKernel.Library.Paging
import OsKernel.Library.Script
import OsKernel.Library.Window
import OsKernel.Library.Exec
import OsKernel.Library.X86
import OsKernel.Library.X86View
import OsKernel.Library.X86Call
import OsKernel.Library.Interrupts
import OsKernel.Library.Pic8259
import OsKernel.Debug
import OsKernel.Thread.Scheduler
import OsKernel.Thread.SchedulerInvariant
import OsKernel.Thread.SchedulerSteps
import OsKernel.Thread.SchedulerRuns
import OsKernel.Thread.ReadyQueue
import OsKernel.Thread.RoundRobin
import OsKernel.Thread.Turns
import OsKernel.Thread.Lock
import OsKernel.Thread.LockInvariant
import OsKernel.Thread.LockRuns
import OsKernel.Thread.LockCalls
import OsKernel.Thread.Semaphore
import OsKernel.Thread.Pid
import OsKernel.Thread.PidRuns
import OsKernel.Thread.Switch
import OsKernel.Thread.SwitchRuns
import OsKernel.Thread.StartProcess
import OsKernel.Thread.StartProcessRuns
import OsKernel.Thread.KernelProg
import OsKernel.Thread.FlagRules
import OsKernel.Thread.FlagRuns
import OsKernel.Interrupt.Entry
import OsKernel.Interrupt.Resume
import OsKernel.Interrupt.Syscall
import OsKernel.Interrupt.Idt
import OsKernel.Interrupt.TaskState
import OsKernel.Interrupt.Pic
import OsKernel.Thread.Preempt
import OsKernel.Thread.PreemptFrames
import OsKernel.Thread.PreemptRuns
import OsKernel.Thread.UserPorts
import OsKernel.Device.Ioqueue
import OsKernel.Device.Keyboard
import OsKernel.Device.IoqThreads
import OsKernel.Device.IoqFrame
import OsKernel.Device.IoqProtocol
import OsKernel.Memory.Bitmap
import OsKernel.Memory.Machine
import OsKernel.Memory.Page
import OsKernel.Memory.PageMap
import OsKernel.Memory.PageInvariant
import OsKernel.Memory.PageTables
import OsKernel.Memory.PageEdits
import OsKernel.Memory.Access
import OsKernel.Memory.PageLookup
import OsKernel.Memory.PageAlloc
import OsKernel.Memory.PageGrow
import OsKernel.Memory.PageCalls
import OsKernel.Memory.PageFree
import OsKernel.Memory.DataWindow
import OsKernel.Memory.PageHand
import OsKernel.Memory.PoolUse
import OsKernel.Memory.Heap
import OsKernel.Memory.HeapAccess
import OsKernel.Memory.HeapLists
import OsKernel.Memory.HeapArenas
import OsKernel.Memory.OwnPages
import OsKernel.Memory.HeapEdits
import OsKernel.Memory.HeapBlocks
import OsKernel.Memory.HeapPages
import OsKernel.Memory.HeapCalls
import OsKernel.Memory.HeapFree
import OsKernel.Memory.HeapStart
import OsKernel.Memory.HeapSys
import OsKernel.Memory.HeapConserve
import OsKernel.Memory.HasPages
import OsKernel.Memory.PoolLocks
import OsKernel.Memory.PoolCalls
import OsKernel.Memory.HeapOutcome
import OsKernel.Memory.HeapSequences
import OsKernel.Memory.Process
import OsKernel.Memory.PageDir
import OsKernel.Memory.PageProc
import OsKernel.Memory.PageThreads
import OsKernel.Memory.PageBoot
import OsKernel.Memory.PageSys
import OsKernel.Memory.PageAgreement
import OsKernel.Memory.Tlb
import OsKernel.Memory.TableExact
import OsKernel.Memory.NoAssert
import OsKernel.Memory.AllOrNothing
import OsKernel.Memory.FirstFit
import OsKernel.Memory.PoolLayout
import OsKernel.Memory.PageRoom
import OsKernel.Memory.Isolation
import OsKernel.Device.KeyboardModifiers
import OsKernel.Device.KeyboardTyping
import OsKernel.Library.X86Narrow
import OsKernel.Print.Text
import OsKernel.Print.Screen
import OsKernel.Print.Paint
import OsKernel.Print.Char
import OsKernel.Print.Terminal
import OsKernel.Print.Printing
import OsKernel.Print.Calls
import OsKernel.Print.Number
import OsKernel.Print.Access
import OsKernel.Print.Convention
import OsKernel.Lib.Stdio
import OsKernel.Lib.Format
import OsKernel.Lib.FormatRuns
import OsKernel.Lib.Search
import OsKernel.Library.OrderSign
import OsKernel.Lib.Compare
import OsKernel.Lib.KernelList
import OsKernel.Lib.KernelListRuns
import OsKernel.Device.Timer
import OsKernel.Lib.FormatStale
import OsKernel.Lib.Itoa
import OsKernel.Print.Renderers
import OsKernel.Device.Console
import OsKernel.Device.ConsoleRuns
import OsKernel.Boot.BootPages
import OsKernel.Boot.KernelInit
import OsKernel.Boot.KernelInitRuns
import OsKernel.Boot.KernelImage
import OsKernel.Boot.KernelInstalls
import OsKernel.Boot.MemDetect
import OsKernel.Boot.MemDetectRuns
import OsKernel.Boot.MemSize
import OsKernel.Device.Ide
import OsKernel.Device.IdeSectors
import OsKernel.Device.IdeTransfers
import OsKernel.Device.IdeThreads
import OsKernel.Device.IdePhases
import OsKernel.Device.IdeProtocol
import OsKernel.Device.IdeRuns
import OsKernel.Device.IdeCompletion
import OsKernel.Device.BusyWait

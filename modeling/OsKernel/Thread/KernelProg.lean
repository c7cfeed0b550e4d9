import OsKernel.Thread.Lock
import OsKernel.Library.Interrupts

/-! The kernel one statement at a time: the list functions, the semaphores and locks, the
scheduler and the functions that start threads, as programs that an interrupt may cut
between any two reads or writes. The code of the memory allocator that they call is a
parameter. -/
namespace OsKernel
open IntrusiveList Interrupts

/-- The locks of the kernel. -/
inductive LockId
  | pidLock
  | kernelPool
  | consoleLock
  | other (plock : ℕ)
  deriving DecidableEq, Repr

/-- The variables that the functions below read and write. -/
structure KernelData where
  links : Links Node
  task : TaskId → Task
  pid : TaskId → BitVec 16
  value : SemaphoreId → ℕ
  lock : LockId → Lock
  ticks : ℕ
  nextPid : BitVec 16
  mainThread : TaskId

/-- The functions whose calls are marked. -/
inductive Fn
  | listInsertBefore | listRemove | elemFind
  | semaDown | semaUp | lockAcquire | lockRelease
  | schedule | threadBlock | threadUnblock
  | intrTimerHandler | threadStart | processExecute
  deriving DecidableEq, Repr

abbrev KProg := Prog KernelData Node Fn TaskId Panic

/-- A statement that neither reads nor writes the list elements. -/
def Unlisted (β : Type) (f : TaskId → KernelData → β × KernelData) : Prop :=
  ∀ cur s links, f cur { s with links := links } = ((f cur s).1,{ (f cur s).2 with links := links })

namespace KProg

/-- A statement of the running task that is not about list nodes. -/
def exec {β : Type} (f : TaskId → KernelData → β × KernelData) : KProg β := .act f [] .ret

def get {β : Type} (f : KernelData → β) : KProg β := exec fun _ s => (f s,s)

def modify (f : KernelData → KernelData) : KProg Unit := exec fun _ s => ((),f s)

def runningThread : KProg TaskId := exec fun cur s => (cur,s)

def setTask (t : TaskId) (f : Task → Task) : KProg Unit :=
  modify fun s => { s with task := Function.update s.task t (f (s.task t)) }

def setLock (plock : LockId) (f : Lock → Lock) : KProg Unit :=
  modify fun s => { s with lock := Function.update s.lock plock (f (s.lock plock)) }

def assert (condition : Prop) [Decidable condition] (func text : String) : KProg Unit :=
  if condition then .ret () else .halt (.assert func text)

def panic (func message : String) : KProg Unit := .halt (.panic func message)

section List

/-! list.c -/

def readNext (a : Node) : KProg Node := .act (fun _ s => (s.links.next a,s)) [a] .ret

def readPrev (a : Node) : KProg Node := .act (fun _ s => (s.links.prev a,s)) [a] .ret

def writeNext (a b : Node) : KProg Unit :=
  .act (fun _ s => ((),{ s with links := s.links.setNext a b })) [a] .ret

def writePrev (a b : Node) : KProg Unit :=
  .act (fun _ s => ((),{ s with links := s.links.setPrev a b })) [a] .ret

def intrEnable : KProg Bool :=
  .getFlag fun oldStatus => if oldStatus then .ret true else .setFlag true (.ret false)

def intrDisable : KProg Bool :=
  .getFlag fun oldStatus => if oldStatus then .setFlag false (.ret true) else .ret false

def intrSetStatus (status : Bool) : KProg Bool := if status then intrEnable else intrDisable

def listInsertBefore (before elem : Node) : KProg Unit := .call .listInsertBefore do
  let oldStatus ← intrDisable
  let p ← readPrev before
  writeNext p elem
  writeNext elem before
  let p ← readPrev before
  writePrev elem p
  writePrev before elem
  let _ ← intrSetStatus oldStatus

def listPush (plist : ListName) (elem : Node) : KProg Unit := do
  let n ← readNext (.head plist)
  listInsertBefore n elem

def listAppend (plist : ListName) (elem : Node) : KProg Unit := listInsertBefore (.tail plist) elem

def listRemove (pelem : Node) : KProg Unit := .call .listRemove do
  let oldStatus ← intrDisable
  let n ← readNext pelem
  let p ← readPrev pelem
  writeNext p n
  let p ← readPrev pelem
  let n ← readNext pelem
  writePrev n p
  let _ ← intrSetStatus oldStatus

def listPop (plist : ListName) : KProg Node := do
  let n ← readNext (.head plist)
  assert (n ≠ .tail plist) "list_pop" "plist->head.next != &plist->tail"
  let ret ← readNext (.head plist)
  let n ← readNext (.head plist)
  listRemove n
  return ret

def listEmpty (plist : ListName) : KProg Bool := do
  let n ← readNext (.head plist)
  return decide (n = .tail plist)

def elemFind (plist : ListName) (objElem : Node) : KProg Bool := .call .elemFind do
  let ptr ← readNext (.head plist)
  Prog.loop ptr fun ptr =>
    if ptr = .tail plist then .ret (.inr false)
    else if ptr = objElem then .ret (.inr true)
    else do
      let n ← readNext ptr
      return .inl n

/-- elem2entry(struct task_struct, general_tag, elem). -/
def elem2entry (func : String) : Node → KProg TaskId
  | .generalTag t => .ret t
  | _ => .halt (.undefined func)

end List

/-- The code of memory.c, bitmap.c, string.c and process.c that the functions below call and
that touches neither the lists nor the interrupt flag. -/
structure MemoryCode where
  mallocPage : ℕ → KProg ℕ
  memset : ℕ → ℕ → KProg Unit
  bitmapInit : TaskId → ℕ → KProg Unit
  /-- memcpy and the last entry of the new page directory. -/
  fillPageDir : ℕ → KProg Unit
  setPgdir : TaskId → ℕ → KProg Unit
  blockDescInit : TaskId → KProg Unit
  processActivate : TaskId → KProg Unit
  putStr : String → KProg Unit

/-- Each of these programs is made of statements that do not touch the lists. -/
structure MemoryCode.Plain (mem : MemoryCode) : Prop where
  mallocPage : ∀ n, (mem.mallocPage n).Plain Unlisted
  memset : ∀ vaddr n, (mem.memset vaddr n).Plain Unlisted
  bitmapInit : ∀ t n, (mem.bitmapInit t n).Plain Unlisted
  fillPageDir : ∀ n, (mem.fillPageDir n).Plain Unlisted
  setPgdir : ∀ t n, (mem.setPgdir t n).Plain Unlisted
  blockDescInit : ∀ t, (mem.blockDescInit t).Plain Unlisted
  processActivate : ∀ t, (mem.processActivate t).Plain Unlisted
  putStr : ∀ text, (mem.putStr text).Plain Unlisted

variable (mem : MemoryCode)

/-! thread.c and sync.c -/

/-- The branch of schedule for a task that is still running. -/
def requeue (cur : TaskId) : KProg Unit := do
  let found ← elemFind .threadReadyList (.generalTag cur)
  assert (found = false) "schedule" "!elem_find(&thread_ready_list,&cur->general_tag)"
  listAppend .threadReadyList (.generalTag cur)
  setTask cur fun p => { p with ticks := p.priority }
  setTask cur fun p => { p with status := .ready }

def schedule : KProg Unit := .call .schedule do
  let status ← .getFlag .ret
  assert (status = false) "schedule" "intr_get_status()==INTR_OFF"
  let cur ← runningThread
  let stat ← get fun s => (s.task cur).status
  (if stat = .running then requeue cur else .ret ())
  let empty ← listEmpty .threadReadyList
  assert (empty = false) "schedule" "!list_empty(&thread_ready_list)"
  let threadTag ← listPop .threadReadyList
  let next ← elem2entry "schedule" threadTag
  setTask next fun p => { p with status := .running }
  mem.processActivate next
  Prog.switch next (.ret ())

def threadBlock (stat : TaskStatus) : KProg Unit := .call .threadBlock do
  assert (stat = .blocked ∨ stat = .waiting ∨ stat = .hanging) "thread_block"
    "((stat == TASK_BLOCKED) || (stat == TASK_WAITING) || stat == TASK_HANGING)"
  let oldStatus ← intrDisable
  let cur ← runningThread
  setTask cur fun p => { p with status := stat }
  schedule mem
  let _ ← intrSetStatus oldStatus

/-- The branch of thread_unblock for a task that is not ready. -/
def makeReady (pthread : TaskId) : KProg Unit := do
  let found ← elemFind .threadReadyList (.generalTag pthread)
  assert (found = false) "thread_unblock" "!elem_find(&thread_ready_list,&pthread->general_tag)"
  let found ← elemFind .threadReadyList (.generalTag pthread)
  (if found then panic "thread_unblock" "thread_unblock: blocked thread in ready_list\n"
    else .ret ())
  listPush .threadReadyList (.generalTag pthread)
  setTask pthread fun p => { p with status := .ready }

def threadUnblock (pthread : TaskId) : KProg Unit := .call .threadUnblock do
  let oldStatus ← intrDisable
  let stat ← get fun s => (s.task pthread).status
  assert (stat = .blocked ∨ stat = .waiting ∨ stat = .hanging) "thread_unblock"
    "((pthread->status == TASK_BLOCKED) || (pthread->status == TASK_WAITING) || (pthread->status == TASK_HANGING))"
  (if stat ≠ .ready then makeReady pthread else .ret ())
  let _ ← intrSetStatus oldStatus

/-- The body of the loop in sema_down. -/
def semaWait (psema : SemaphoreId) : KProg Unit := do
  let cur ← runningThread
  let found ← elemFind (.waiters psema) (.generalTag cur)
  assert (found = false) "sema_down" "!elem_find(&psema->waiters,&running_thread()->general_tag)"
  let cur ← runningThread
  let found ← elemFind (.waiters psema) (.generalTag cur)
  (if found then panic "sema_down" "sema_down: seme_down thread already in ready_list\n"
    else .ret ())
  let cur ← runningThread
  listAppend (.waiters psema) (.generalTag cur)
  threadBlock mem .blocked

def semaDown (psema : SemaphoreId) : KProg Unit := .call .semaDown do
  let oldStatus ← intrDisable
  Prog.loop () fun _ => do
    let value ← get fun s => s.value psema
    if value = 0 then do
      semaWait mem psema
      return .inl ()
    else return .inr ()
  modify fun s => { s with value := Function.update s.value psema (s.value psema-1) }
  let value ← get fun s => s.value psema
  assert (value = 0) "sema_down" "psema->value==0"
  let _ ← intrSetStatus oldStatus

/-- The first waiter becomes ready. -/
def wakeWaiter (psema : SemaphoreId) : KProg Unit := do
  let tag ← listPop (.waiters psema)
  let threadBlocked ← elem2entry "sema_up" tag
  threadUnblock threadBlocked

def semaUp (psema : SemaphoreId) : KProg Unit := .call .semaUp do
  let oldStatus ← intrDisable
  let value ← get fun s => s.value psema
  assert (value = 0) "sema_up" "psema->value==0"
  let empty ← listEmpty (.waiters psema)
  (if empty = false then wakeWaiter psema else .ret ())
  modify fun s => { s with value := Function.update s.value psema ((s.value psema+1) % 2^8) }
  let value ← get fun s => s.value psema
  assert (value = 1) "sema_up" "psema->value==1"
  let _ ← intrSetStatus oldStatus

/-- The branch of lock_acquire for a task that does not hold the lock. -/
def acquireFirst (plock : LockId) : KProg Unit := do
  let psema ← get fun s => (s.lock plock).semaphore
  semaDown mem psema
  let cur ← runningThread
  setLock plock fun l => { l with holder := some cur }
  let nr ← get fun s => (s.lock plock).holderRepeatNr
  assert (nr = 0) "lock_acquire" "!plock->holder_repeat_nr"
  setLock plock fun l => { l with holderRepeatNr := 1 }

def lockAcquire (plock : LockId) : KProg Unit := .call .lockAcquire do
  let holder ← get fun s => (s.lock plock).holder
  let cur ← runningThread
  if holder ≠ some cur then acquireFirst mem plock
  else do
    let nr ← get fun s => (s.lock plock).holderRepeatNr
    setLock plock fun l => { l with holderRepeatNr := incr32 nr }

/-- The rest of lock_release for a lock that was acquired once. -/
def releaseLast (plock : LockId) : KProg Unit := do
  let nr ← get fun s => (s.lock plock).holderRepeatNr
  assert (nr = 1) "lock_release" "plock->holder_repeat_nr == 1"
  setLock plock fun l => { l with holder := none }
  setLock plock fun l => { l with holderRepeatNr := 0 }
  let psema ← get fun s => (s.lock plock).semaphore
  semaUp psema

def lockRelease (plock : LockId) : KProg Unit := .call .lockRelease do
  let holder ← get fun s => (s.lock plock).holder
  let cur ← runningThread
  assert (holder = some cur) "lock_release" "plock->holder == running_thread()"
  let nr ← get fun s => (s.lock plock).holderRepeatNr
  if nr > 1 then do
    let nr ← get fun s => (s.lock plock).holderRepeatNr
    setLock plock fun l => { l with holderRepeatNr := decr32 nr }
  else releaseLast plock

/-- The interrupt gate has cleared the flag, and the return from the handler is iretd. -/
def intrTimerHandler : KProg Unit := .call .intrTimerHandler do
  let cur ← runningThread
  let magic ← get fun s => (s.task cur).stackMagic
  assert (magic = 0x19980906) "intr_timer_handler" "cur_thread->stack_magic==0x19980906"
  setTask cur fun p => { p with elapsedTicks := (p.elapsedTicks+1) % 2^32 }
  modify fun s => { s with ticks := (s.ticks+1) % 2^32 }
  let ticks ← get fun s => (s.task cur).ticks
  if ticks = 0 then schedule mem else setTask cur fun p => { p with ticks := p.ticks-1 }

def allocatePid : KProg (BitVec 16) := do
  lockAcquire mem .pidLock
  let n ← get fun s => s.nextPid
  modify fun s => { s with nextPid := n+1 }
  lockRelease .pidLock
  get fun s => s.nextPid

/-- The PCB is on no list yet; memset clears its tags together with its fields. -/
def initThread (pthread : TaskId) (prio : ℕ) : KProg Unit := do
  modify fun s => { s with
    task := Function.update s.task pthread ⟨.running,0,0,0,0⟩
    links := ((((s.links.setNext (.generalTag pthread) .null).setPrev (.generalTag pthread)
      .null).setNext (.allListTag pthread) .null).setPrev (.allListTag pthread) .null) }
  let pid ← allocatePid mem
  modify fun s => { s with pid := Function.update s.pid pthread pid }
  let mainThread ← get fun s => s.mainThread
  setTask pthread fun p => { p with status := if pthread = mainThread then .running else .ready }
  setTask pthread fun p =>
    { p with priority := prio % 2^8, ticks := prio % 2^8, elapsedTicks := 0 }
  setTask pthread fun p => { p with stackMagic := 0x19980906 }

def getKernelPages (pgCnt : ℕ) : KProg ℕ := do
  lockAcquire mem .kernelPool
  let vaddr ← mem.mallocPage pgCnt
  assert (vaddr ≠ 0) "get_kernel_pages" "vaddr!=NULL"
  (if vaddr ≠ 0 then mem.memset vaddr (pgCnt*4096) else .ret ())
  lockRelease .kernelPool
  return vaddr

/-- The first function of a new thread. -/
def kernelThread (function : KProg Unit) : KProg Unit := do
  let _ ← intrEnable
  function

/-- thread_create: the stack of the new thread makes its first switch enter kernel_thread. -/
def threadCreate (pthread : TaskId) (function : KProg Unit) : KProg Unit :=
  Prog.spawn pthread (kernelThread function) (.ret ())

/-- The part of thread_start and process_execute on the two lists. -/
def enqueue (func : String) (thread : TaskId) : KProg Unit := do
  let found ← elemFind .threadReadyList (.generalTag thread)
  assert (found = false) func "!elem_find(&thread_ready_list,&thread->general_tag)"
  listAppend .threadReadyList (.generalTag thread)
  let found ← elemFind .threadAllList (.allListTag thread)
  assert (found = false) func "!elem_find(&thread_all_list,&thread->all_list_tag)"
  listAppend .threadAllList (.allListTag thread)

def threadStart (prio : ℕ) (function : KProg Unit) : KProg TaskId := .call .threadStart do
  let thread ← getKernelPages mem 1
  initThread mem thread prio
  threadCreate thread function
  enqueue "thread_start" thread
  return thread

/-- console_put_str. -/
def consolePutStr (text : String) : KProg Unit := do
  lockAcquire mem .consoleLock
  mem.putStr text
  lockRelease .consoleLock

def createPageDir : KProg ℕ := do
  let pageDirVaddr ← getKernelPages mem 1
  if pageDirVaddr = 0 then do
    consolePutStr mem "create_page_dir: get_kernel_page failed!\n"
    return 0
  else do
    mem.fillPageDir pageDirVaddr
    return pageDirVaddr

def createUserVaddrBitmap (userProg : TaskId) : KProg Unit := do
  let bits ← getKernelPages mem 23
  mem.bitmapInit userProg bits

/-- The function is start_process on the file name. -/
def processExecute (startProcess : KProg Unit) : KProg Unit := .call .processExecute do
  let thread ← getKernelPages mem 1
  initThread mem thread Sched.defaultPrio
  createUserVaddrBitmap mem thread
  threadCreate thread startProcess
  let pgdir ← createPageDir mem
  mem.setPgdir thread pgdir
  mem.blockDescInit thread
  let oldStatus ← intrDisable
  enqueue "process_execute" thread
  let _ ← intrSetStatus oldStatus

/-- Any other code of the kernel, of an interrupt handler or of a user process: it touches
the lists through these functions only, and may set the flag and fail where it likes. -/
inductive Client : {α : Type} → KProg α → Prop
  | ret {α : Type} (a : α) : Client (.ret a)
  | bind {α β : Type} {p : KProg α} {g : α → KProg β} (hp : Client p) (hg : ∀ a, Client (g a)) :
      Client (p >>= g)
  | exec {β : Type} {f : TaskId → KernelData → β × KernelData} (hf : Unlisted β f) : Client (exec f)
  | intrGetStatus : Client (.getFlag .ret)
  | sti : Client (.setFlag true (.ret ()))
  | cli : Client (.setFlag false (.ret ()))
  | loop {β γ : Type} {b : β} {body : β → KProg (β ⊕ γ)} (h : ∀ b, Client (body b)) :
      Client (Prog.loop b body)
  | halt {α : Type} (e : Panic) : Client (.halt e : KProg α)
  | listInsertBefore (before elem : Node) : Client (listInsertBefore before elem)
  | listRemove (pelem : Node) : Client (listRemove pelem)
  | semaDown (psema : SemaphoreId) : Client (semaDown mem psema)
  | semaUp (psema : SemaphoreId) : Client (semaUp psema)
  | lockAcquire (plock : LockId) : Client (lockAcquire mem plock)
  | lockRelease (plock : LockId) : Client (lockRelease plock)
  | threadBlock (stat : TaskStatus) : Client (threadBlock mem stat)
  | threadUnblock (pthread : TaskId) : Client (threadUnblock pthread)
  | threadStart (prio : ℕ) {function : KProg Unit} (h : Client function) :
      Client (threadStart mem prio function)
  | processExecute {startProcess : KProg Unit} (h : Client startProcess) :
      Client (processExecute mem startProcess)

/-- What an interrupt may start: the timer handler, or a handler of another device. -/
def Handler (p : KProg Unit) : Prop := p = intrTimerHandler mem ∨ Client mem p

end KProg

/-- The processor with one thread, which has just switched interrupts off. -/
def kernelStart (data : KernelData) (mainThread : TaskId) (p : KProg Unit) :
    Interrupts.Machine KernelData Node Fn TaskId Panic where
  data := data
  flag := false
  current := mainThread
  stack := Function.update (fun _ => []) mainThread [⟨p,[]⟩]

end OsKernel

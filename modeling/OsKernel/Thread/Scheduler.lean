import OsKernel.Debug
import OsKernel.Library.IntrusiveList

/-! Tasks, the two scheduler lists, semaphores and the context switch. All lists are threaded
through the tags of the tasks, as in the source: a tag has one pair of pointers, whichever
list it is on. Every function acts on the running task and runs with interrupts off from
the point where the source switches them off. -/
namespace OsKernel
open IntrusiveList

/-- A struct task_struct pointer is the address of the PCB page. -/
abbrev TaskId := ℕ

/-- The address of a struct semaphore. -/
abbrev SemaphoreId := ℕ

inductive TaskStatus
  | running | ready | blocked | waiting | hanging | died
  deriving DecidableEq, Repr

inductive ListName
  | threadReadyList
  | threadAllList
  | waiters (psema : SemaphoreId)
  deriving DecidableEq, Repr

/-- The list elements of the kernel: two sentinels for each list and two tags for each PCB. -/
inductive Node
  | null
  | head (plist : ListName)
  | tail (plist : ListName)
  | generalTag (pthread : TaskId)
  | allListTag (pthread : TaskId)
  deriving DecidableEq, Repr

/-- What a suspended task does when switch_to returns on its stack. The flag is the value of
old_status that thread_block or sema_down restores in the end. -/
inductive Resume
  /-- The first switch enters kernel_thread, which enables interrupts. -/
  | kernelThread
  /-- Return from intr_timer_handler by iret. -/
  | timer
  /-- Return to the caller of schedule. -/
  | schedule
  | threadBlock (oldStatus : Bool)
  /-- thread_block returns into the loop of sema_down. -/
  | semaDown (psema : SemaphoreId) (oldStatus : Bool)
  deriving DecidableEq, Repr

structure Task where
  status : TaskStatus
  priority : ℕ
  ticks : ℕ
  elapsedTicks : ℕ
  stackMagic : ℕ
  deriving DecidableEq, Repr

/-- The state shared by all tasks. The task list records which PCBs have been created. -/
structure Sched where
  links : Links Node
  task : TaskId → Task
  resume : TaskId → Resume
  runningThread : TaskId
  /-- The interrupt flag. -/
  intr : Bool
  /-- The running task is at the head of the loop in sema_down, with interrupts off. -/
  pending : Option (SemaphoreId × Bool)
  value : SemaphoreId → ℕ
  ticks : ℕ
  created : List TaskId

namespace Sched

def setTask (s : Sched) (t : TaskId) (f : Task → Task) : Sched :=
  { s with task := Function.update s.task t (f (s.task t)) }

def setStatus (s : Sched) (t : TaskId) (stat : TaskStatus) : Sched :=
  s.setTask t fun p => { p with status := stat }

def setIntr (s : Sched) (status : Bool) : Sched := { s with intr := status }

/-- A traversal that has met more nodes than there are tasks is going round in circles. -/
def elemFind (func : String) (s : Sched) (plist : ListName) (objElem : Node) :
    Except Panic Bool :=
  match find s.links (.tail plist) objElem (s.created.length+1) (s.links.next (.head plist)) with
  | some found => .ok found
  | none => .error (.undefined func)

def listAppend (s : Sched) (plist : ListName) (elem : Node) : Sched :=
  { s with links := insertBefore s.links (.tail plist) elem }

def listPush (s : Sched) (plist : ListName) (elem : Node) : Sched :=
  { s with links := insertBefore s.links (s.links.next (.head plist)) elem }

def listEmpty (s : Sched) (plist : ListName) : Bool :=
  decide (s.links.next (.head plist) = .tail plist)

def listPop (s : Sched) (plist : ListName) : Except Panic (Node × Sched) := do
  assert (s.links.next (.head plist) ≠ .tail plist) "list_pop" "plist->head.next != &plist->tail"
  let ret := s.links.next (.head plist)
  return (ret,{ s with links := IntrusiveList.remove s.links ret })

/-- elem2entry(struct task_struct, general_tag, elem). -/
def elem2entry (func : String) : Node → Except Panic TaskId
  | .generalTag t => .ok t
  | _ => .error (.undefined func)

/-- The instructions of a task from the point where switch_to returns on its stack, up to
the point where it has restored its interrupt flag or tests a semaphore again. -/
def goOn (s : Sched) : Resume → Sched
  | .kernelThread => s.setIntr true
  | .timer => s.setIntr true
  | .schedule => s
  | .threadBlock oldStatus => s.setIntr oldStatus
  | .semaDown psema oldStatus => { s with pending := some (psema,oldStatus) }

/-- switch_to leaves cur where it is and goes on with next. -/
def switchTo (s : Sched) (cur next : TaskId) (r : Resume) : Sched :=
  let s := { s with resume := Function.update s.resume cur r, runningThread := next }
  s.goOn (s.resume next)

/-- The second half of schedule: give the processor to the first ready task. -/
def scheduleNext (s : Sched) (cur : TaskId) (r : Resume) : Except Panic Sched := do
  assert (s.listEmpty .threadReadyList = false) "schedule" "!list_empty(&thread_ready_list)"
  let (threadTag,s) ← s.listPop .threadReadyList
  let next ← elem2entry "schedule" threadTag
  return (s.setStatus next .running).switchTo cur next r

def schedule (s : Sched) (r : Resume) : Except Panic Sched := do
  assert (s.intr = false) "schedule" "intr_get_status()==INTR_OFF"
  let cur := s.runningThread
  let s ← if (s.task cur).status = .running then do
      let found ← s.elemFind "schedule" .threadReadyList (.generalTag cur)
      assert (found = false) "schedule" "!elem_find(&thread_ready_list,&cur->general_tag)"
      pure ((s.listAppend .threadReadyList (.generalTag cur)).setTask cur fun p =>
        { p with ticks := p.priority, status := .ready })
    else pure s
  s.scheduleNext cur r

/-- The argument says what the caller of thread_block goes on with. -/
def threadBlock (s : Sched) (stat : TaskStatus) (r : Bool → Resume) : Except Panic Sched := do
  assert (stat = .blocked ∨ stat = .waiting ∨ stat = .hanging) "thread_block"
    "((stat == TASK_BLOCKED) || (stat == TASK_WAITING) || stat == TASK_HANGING)"
  let oldStatus := s.intr
  let s := s.setIntr false
  (s.setStatus s.runningThread stat).schedule (r oldStatus)

def threadUnblock (s : Sched) (pthread : TaskId) : Except Panic Sched := do
  let oldStatus := s.intr
  let s := s.setIntr false
  let stat := (s.task pthread).status
  assert (stat = .blocked ∨ stat = .waiting ∨ stat = .hanging) "thread_unblock"
    "((pthread->status == TASK_BLOCKED) || (pthread->status == TASK_WAITING) || (pthread->status == TASK_HANGING))"
  let s ← if stat ≠ .ready then do
      let found ← s.elemFind "thread_unblock" .threadReadyList (.generalTag pthread)
      assert (found = false) "thread_unblock"
        "!elem_find(&thread_ready_list,&pthread->general_tag)"
      if ← s.elemFind "thread_unblock" .threadReadyList (.generalTag pthread) then
        .error (.panic "thread_unblock" "thread_unblock: blocked thread in ready_list\n")
      else
        pure ((s.listPush .threadReadyList (.generalTag pthread)).setStatus pthread .ready)
    else pure s
  return s.setIntr oldStatus

/-- The while loop of sema_down, entered with interrupts off, and what follows it. -/
def semaDownLoop (s : Sched) (psema : SemaphoreId) (oldStatus : Bool) : Except Panic Sched := do
  let tag := Node.generalTag s.runningThread
  if s.value psema = 0 then
    let found ← s.elemFind "sema_down" (.waiters psema) tag
    assert (found = false) "sema_down" "!elem_find(&psema->waiters,&running_thread()->general_tag)"
    if ← s.elemFind "sema_down" (.waiters psema) tag then
      .error (.panic "sema_down" "sema_down: seme_down thread already in ready_list\n")
    else
      (s.listAppend (.waiters psema) tag).threadBlock .blocked fun _ => .semaDown psema oldStatus
  else
    let s := { s with value := Function.update s.value psema (s.value psema-1) }
    assert (s.value psema = 0) "sema_down" "psema->value==0"
    return s.setIntr oldStatus

def semaDown (s : Sched) (psema : SemaphoreId) : Except Panic Sched :=
  (s.setIntr false).semaDownLoop psema s.intr

/-- The if statement of sema_up: the first waiter becomes ready. -/
def wakeWaiter (s : Sched) (psema : SemaphoreId) : Except Panic Sched :=
  if s.listEmpty (.waiters psema) = false then do
    let (tag,s) ← s.listPop (.waiters psema)
    let threadBlocked ← elem2entry "sema_up" tag
    s.threadUnblock threadBlocked
  else .ok s

def semaUp (s : Sched) (psema : SemaphoreId) : Except Panic Sched := do
  let oldStatus := s.intr
  let s := s.setIntr false
  assert (s.value psema = 0) "sema_up" "psema->value==0"
  let s ← s.wakeWaiter psema
  let s := { s with value := Function.update s.value psema ((s.value psema+1) % 2^8) }
  assert (s.value psema = 1) "sema_up" "psema->value==1"
  return s.setIntr oldStatus

/-- The interrupt gate clears the flag, and iret sets it again. -/
def intrTimerHandler (s : Sched) : Except Panic Sched := do
  let s := s.setIntr false
  let cur := s.runningThread
  assert ((s.task cur).stackMagic = 0x19980906) "intr_timer_handler"
    "cur_thread->stack_magic==0x19980906"
  let s := s.setTask cur fun p => { p with elapsedTicks := (p.elapsedTicks+1) % 2^32 }
  let s := { s with ticks := (s.ticks+1) % 2^32 }
  if (s.task cur).ticks = 0 then
    s.schedule .timer
  else
    return (s.setTask cur fun p => { p with ticks := p.ticks-1 }).setIntr true

/-- The fields that init_thread sets in a PCB other than main_thread. -/
def initThread (status : TaskStatus) (prio : ℕ) : Task where
  status := status
  priority := prio % 2^8
  ticks := prio % 2^8
  elapsedTicks := 0
  stackMagic := 0x19980906

/-- The part of thread_start and process_execute after the PCB has been filled. -/
def enqueue (func : String) (s : Sched) (thread : TaskId) : Except Panic Sched := do
  let found ← s.elemFind func .threadReadyList (.generalTag thread)
  assert (found = false) func "!elem_find(&thread_ready_list,&thread->general_tag)"
  let s := s.listAppend .threadReadyList (.generalTag thread)
  let found ← s.elemFind func .threadAllList (.allListTag thread)
  assert (found = false) func "!elem_find(&thread_all_list,&thread->all_list_tag)"
  return s.listAppend .threadAllList (.allListTag thread)

/-- init_thread and thread_create on a PCB that get_kernel_pages has just returned. -/
def create (s : Sched) (thread : TaskId) (prio : ℕ) : Sched :=
  { s with
    task := Function.update s.task thread (initThread .ready prio)
    resume := Function.update s.resume thread .kernelThread
    created := s.created ++ [thread] }

/-- A completed call of thread_start, whose PCB is the page thread. -/
def threadStart (s : Sched) (thread : TaskId) (prio : ℕ) : Except Panic Sched :=
  (s.create thread prio).enqueue "thread_start" thread

def defaultPrio : ℕ := 31

/-- A completed call of process_execute, whose PCB is the page thread. -/
def processExecute (s : Sched) (thread : TaskId) : Except Panic Sched := do
  let s := s.create thread defaultPrio
  let oldStatus := s.intr
  let s ← (s.setIntr false).enqueue "process_execute" thread
  return s.setIntr oldStatus

/-- list_init on every list. -/
def listInit : Links Node where
  next
    | .head l => .tail l
    | _ => .null
  prev
    | .tail l => .head l
    | _ => .null

/-- The state that thread_init leaves, with the given initial values of the semaphores. -/
def threadInit (mainThread : TaskId) (value : SemaphoreId → ℕ) : Sched where
  links := insertBefore listInit (.tail .threadAllList) (.allListTag mainThread)
  task := fun _ => initThread .running 1
  resume := fun _ => .kernelThread
  runningThread := mainThread
  intr := false
  pending := none
  value := value
  ticks := 0
  created := [mainThread]

end Sched
end OsKernel

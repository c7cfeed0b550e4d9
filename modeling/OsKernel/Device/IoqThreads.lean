import OsKernel.Device.Ioqueue
import OsKernel.Thread.Lock

/-! Any number of threads that call ioq_getchar and ioq_putchar on one queue. A thread in one of
the functions runs with interrupts off and gives up the processor only where it blocks, in
lock_acquire or in ioq_wait. The lock of the queue is the lock of the lock functions. -/
namespace OsKernel
open Ioqueue

/-- Where a thread is in ioq_getchar or ioq_putchar, when it is in no lock function. -/
inductive IoqPc
  | outside
  /-- while(ioq_empty(ioq)) -/
  | getTest
  /-- lock_acquire has returned: ioq_wait(ioq->consumer) -/
  | getWait
  /-- In thread_block, called from ioq_wait. -/
  | getAsleep
  /-- while(ioq_full(ioq)) -/
  | putTest (chr : UInt8)
  /-- lock_acquire has returned: ioq_wait(&ioq->producer) -/
  | putWait (chr : UInt8)
  /-- In thread_block, called from ioq_wait. -/
  | putAsleep (chr : UInt8)
  deriving DecidableEq, Repr

/-- The kernel with one queue. A failed assertion halts it. -/
structure IoqSys where
  sys : LockSys
  ioq : Ioqueue
  pc : TaskId → IoqPc
  halted : Option Panic

namespace IoqSys

/-- The running thread. -/
def cur (s : IoqSys) : TaskId := s.sys.sched.runningThread

def goto (s : IoqSys) (p : IoqPc) : IoqSys := { s with pc := Function.update s.pc s.cur p }

def setSys (s : IoqSys) (sys : LockSys) : IoqSys := { s with sys := sys }

/-- The scheduler and the queue as a function of ioqueue.c has left them. -/
def setQueue (s : IoqSys) (sched : Sched) (ioq : Ioqueue) : IoqSys :=
  { s with sys := { s.sys with sched := sched }, ioq := ioq }

/-- What the running thread does up to the next place where it may block. -/
def stmt (s : IoqSys) : Except Panic IoqSys :=
  match s.pc s.cur with
  | .outside => .ok s
  | .getTest => do
    if ← ioqEmpty s.sys.sched s.ioq then
      return (s.setSys (s.sys.goto .acquireTest)).goto .getWait
    else
      let (_,sched,ioq) ← takeByte s.sys.sched s.ioq
      return (s.goto .outside).setQueue sched ioq
  | .getWait => do
    let (sched,ioq) ← ioqWait s.sys.sched s.ioq (.ofTask s.ioq.consumer)
    return (s.goto .getAsleep).setQueue sched ioq
  | .getAsleep => .ok ((s.setSys (s.sys.goto .assertHolder)).goto .getTest)
  | .putTest chr => do
    if ← ioqFull s.sys.sched s.ioq then
      return (s.setSys (s.sys.goto .acquireTest)).goto (.putWait chr)
    else
      let (sched,ioq) ← storeByte s.sys.sched s.ioq chr
      return (s.goto .outside).setQueue sched ioq
  | .putWait chr => do
    let (sched,ioq) ← ioqWait s.sys.sched s.ioq .producerField
    return (s.goto (.putAsleep chr)).setQueue sched ioq
  | .putAsleep chr => .ok ((s.setSys (s.sys.goto .assertHolder)).goto (.putTest chr))

/-- The thread is in ioq_wait, in a call of ioq_getchar. -/
def AsleepGet (s : IoqSys) (t : TaskId) : Prop :=
  s.pc t = .getAsleep ∧ (s.sys.sched.task t).status = .blocked

/-- The thread is in ioq_wait, in a call of ioq_putchar. -/
def AsleepPut (s : IoqSys) (t : TaskId) : Prop :=
  (∃ chr, s.pc t = .putAsleep chr) ∧ (s.sys.sched.task t).status = .blocked

/-- The running thread is neither in a function of the queue nor in a lock function. -/
def Elsewhere (s : IoqSys) : Prop := s.pc s.cur = .outside ∧ s.sys.pc s.cur = .outside

/-- One step: a call with interrupts off, the running thread goes on in a function of the queue
or in a lock function, or the kernel does something else while no function of the queue
runs. Only wakeup unblocks a thread in ioq_wait. -/
inductive Step (s : IoqSys) : IoqSys → Prop
  | getchar (hh : s.halted = none) (hp : s.sys.sched.pending = none) (he : s.Elsewhere)
      (hi : s.sys.sched.intr = false) : Step s (s.goto .getTest)
  | putchar (chr : UInt8) (hh : s.halted = none) (hp : s.sys.sched.pending = none)
      (he : s.Elsewhere) (hi : s.sys.sched.intr = false) : Step s (s.goto (.putTest chr))
  | stmt {s'} (hh : s.halted = none) (hp : s.sys.sched.pending = none)
      (hpc : s.pc s.cur ≠ .outside) (hl : s.sys.pc s.cur = .outside) (h : s.stmt = .ok s') :
      Step s s'
  | stmtFails {e} (hh : s.halted = none) (hp : s.sys.sched.pending = none)
      (hpc : s.pc s.cur ≠ .outside) (hl : s.sys.pc s.cur = .outside) (h : s.stmt = .error e) :
      Step s { s with halted := some e }
  | lock {sys} (hh : s.halted = none) (hl : s.sys.pc s.cur ≠ .outside)
      (hp : s.sys.sched.pending = none ∨ s.sys.pc s.cur = .semaDownWait)
      (h : s.sys.stmt = .ok sys) : Step s (s.setSys sys)
  | lockFails {e} (hh : s.halted = none) (hl : s.sys.pc s.cur ≠ .outside)
      (hp : s.sys.sched.pending = none ∨ s.sys.pc s.cur = .semaDownWait)
      (h : s.sys.stmt = .error e) : Step s { s with halted := some e }
  | kernel {sched} (op : Sched.Op) (hh : s.halted = none) (hen : s.sys.sched.Enabled op)
      (he : s.Elsewhere) (hop : LockSys.Avoids s.sys.lock.semaphore op)
      (hw : ∀ t, op = .threadUnblock t → ¬ s.AsleepGet t ∧ ¬ s.AsleepPut t)
      (h : s.sys.sched.exec op = .ok sched) : Step s (s.setQueue sched s.ioq)

/-- The state after thread_init and init_ioqueue. -/
def init (mainThread : TaskId) (value : SemaphoreId → ℕ) (psema : SemaphoreId)
    (buf : ℕ → UInt8) : IoqSys where
  sys := LockSys.init mainThread value psema
  ioq := initIoqueue buf
  pc := fun _ => .outside
  halted := none

/-- The states that some run reaches. -/
def Reachable (s : IoqSys) : Prop :=
  ∃ mainThread value psema buf, Relation.ReflTransGen Step (init mainThread value psema buf) s

/-- The failures of the assertions in ioq_wait and wakeup. -/
def IoqPanic (e : Panic) : Prop :=
  e ∈ [Panic.assert "ioq_wait" "*waiter==NULL&&waiter!=NULL",
    .assert "wakeup" "*waiter != NULL"]

/-- The sleepers are recorded, each while the queue is as it waits for, and no assertion of the
protocol has failed. -/
structure Protocol (s : IoqSys) : Prop where
  consumer : ∀ t, s.AsleepGet t → s.ioq.consumer = some t ∧ s.ioq.head = s.ioq.tail
  producer : ∀ t, s.AsleepPut t → s.ioq.producer = some t ∧ nextPos s.ioq.head = s.ioq.tail
  asserts : ∀ e, s.halted = some e → ¬ IoqPanic e

/-- The step that ends the condition for which a thread sleeps makes the thread ready. -/
structure Wakes (s s' : IoqSys) : Prop where
  consumer : ∀ t, s.AsleepGet t → s'.ioq.head ≠ s'.ioq.tail →
    (s'.sys.sched.task t).status = .ready
  producer : ∀ t, s.AsleepPut t → nextPos s'.ioq.head ≠ s'.ioq.tail →
    (s'.sys.sched.task t).status = .ready

/-- The running thread is not about to call ioq_wait, unless it is in ioq_putchar and the queue
is still full. -/
def WaitsWell (s : IoqSys) : Prop :=
  s.sys.pc s.cur = .outside → s.pc s.cur ≠ .getWait ∧
    ∀ chr, s.pc s.cur = .putWait chr → nextPos s.ioq.head = s.ioq.tail

end IoqSys
end OsKernel

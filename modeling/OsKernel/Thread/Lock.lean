import OsKernel.Thread.SchedulerRuns

/-! Locks, one statement at a time. A thread inside lock_acquire or lock_release has a program
counter; the scheduler may take the processor away between any two statements, and a read
and the write that depends on it are two statements. The semaphore operations themselves run
with interrupts off and are those of the scheduler. -/
namespace OsKernel

/-- The increment and the decrement of a uint32_t. -/
def incr32 (n : ℕ) : ℕ := (n+1) % 2^32
def decr32 (n : ℕ) : ℕ := if n = 0 then 2^32-1 else n-1

theorem incr32_of_lt {n : ℕ} (h : n+1 < 2^32) : incr32 n = n+1 := Nat.mod_eq_of_lt h

theorem decr32_of_pos {n : ℕ} (h : 0 < n) : decr32 n = n-1 := if_neg h.ne'

/-- A struct lock. The holder is NULL or a task. -/
structure Lock where
  holder : Option TaskId
  holderRepeatNr : ℕ
  semaphore : SemaphoreId
  deriving DecidableEq, Repr

/-- The next statement of a thread in lock_acquire or lock_release. -/
inductive LockPc
  /-- Not in a lock function. -/
  | outside
  /-- if(plock->holder != running_thread()) -/
  | acquireTest
  /-- sema_down(&plock->semaphore) -/
  | semaDown
  /-- Inside the loop of sema_down, asleep or about to test the value again. -/
  | semaDownWait
  /-- plock->holder = running_thread() -/
  | setHolder
  /-- ASSERT(!plock->holder_repeat_nr) -/
  | assertZero
  /-- plock->holder_repeat_nr = 1 -/
  | setOne
  /-- The increment of plock->holder_repeat_nr, before the load and before the store -/
  | incrLoad
  | incrStore (nr : ℕ)
  /-- ASSERT(plock->holder == running_thread()) -/
  | assertHolder
  /-- if(plock->holder_repeat_nr > 1) -/
  | releaseTest
  /-- The decrement of plock->holder_repeat_nr, before the load and before the store -/
  | decrLoad
  | decrStore (nr : ℕ)
  /-- ASSERT(plock->holder_repeat_nr == 1) -/
  | assertOne
  /-- plock->holder = NULL -/
  | clearHolder
  /-- plock->holder_repeat_nr = 0 -/
  | clearNr
  /-- sema_up(&plock->semaphore) -/
  | semaUp
  deriving DecidableEq, Repr

/-- The kernel together with one lock. The depth counts the acquisitions of a thread that it
has not released; the code does not read it. -/
structure LockSys where
  sched : Sched
  lock : Lock
  pc : TaskId → LockPc
  depth : TaskId → ℕ

namespace LockSys

/-- The running thread goes on to another statement. -/
def goto (s : LockSys) (p : LockPc) : LockSys :=
  { s with pc := Function.update s.pc s.sched.runningThread p }

def setDepth (s : LockSys) (n : ℕ) : LockSys :=
  { s with depth := Function.update s.depth s.sched.runningThread n }

def setLock (s : LockSys) (f : Lock → Lock) : LockSys := { s with lock := f s.lock }

/-- Where sema_down leaves its caller: it takes the semaphore or waits. -/
def afterDown (s : LockSys) : LockPc :=
  if s.sched.value s.lock.semaphore = 0 then .semaDownWait else .setHolder

/-- The next statement of the running thread. -/
def stmt (s : LockSys) : Except Panic LockSys :=
  let t := s.sched.runningThread
  let nr := s.lock.holderRepeatNr
  match s.pc t with
  | .outside => .ok s
  | .acquireTest => .ok (s.goto (if s.lock.holder ≠ some t then .semaDown else .incrLoad))
  | .semaDown => do
    let sched ← s.sched.semaDown s.lock.semaphore
    return { s.goto s.afterDown with sched := sched }
  | .semaDownWait => do
    let sched ← s.sched.exec .retest
    return { s.goto s.afterDown with sched := sched }
  | .setHolder => .ok ((s.setLock fun l => { l with holder := some t }).goto .assertZero)
  | .assertZero => do
    assert (nr = 0) "lock_acquire" "!plock->holder_repeat_nr"
    return s.goto .setOne
  | .setOne =>
    .ok (((s.setLock fun l => { l with holderRepeatNr := 1 }).setDepth (s.depth t+1)).goto .outside)
  | .incrLoad => .ok (s.goto (.incrStore nr))
  | .incrStore n =>
    .ok (((s.setLock fun l => { l with holderRepeatNr := incr32 n }).setDepth
      (s.depth t+1)).goto .outside)
  | .assertHolder => do
    assert (s.lock.holder = some t) "lock_release" "plock->holder == running_thread()"
    return s.goto .releaseTest
  | .releaseTest => .ok (s.goto (if 1 < nr then .decrLoad else .assertOne))
  | .decrLoad => .ok (s.goto (.decrStore nr))
  | .decrStore n =>
    .ok (((s.setLock fun l => { l with holderRepeatNr := decr32 n }).setDepth
      (s.depth t-1)).goto .outside)
  | .assertOne => do
    assert (nr = 1) "lock_release" "plock->holder_repeat_nr == 1"
    return s.goto .clearHolder
  | .clearHolder =>
    .ok (((s.setLock fun l => { l with holder := none }).setDepth (s.depth t-1)).goto .clearNr)
  | .clearNr => .ok ((s.setLock fun l => { l with holderRepeatNr := 0 }).goto .semaUp)
  | .semaUp => do
    let sched ← s.sched.semaUp s.lock.semaphore
    return { s.goto .outside with sched := sched }

/-- The operations of the kernel that leave the semaphore of the lock to the lock functions. -/
def Avoids (psema : SemaphoreId) : Sched.Op → Prop
  | .semaDown p => p ≠ psema
  | .semaUp p => p ≠ psema
  | _ => True

/-- One step: a call of a lock function, a statement of one, a timer interrupt between two
statements, or any other activity of the kernel. A thread releases only what it has
acquired, and nests fewer than 2^32 acquisitions. -/
inductive Step (s : LockSys) : LockSys → Prop
  | acquire (hp : s.sched.pending = none) (hpc : s.pc s.sched.runningThread = .outside)
      (hd : s.depth s.sched.runningThread+1 < 2^32) : Step s (s.goto .acquireTest)
  | release (hp : s.sched.pending = none) (hpc : s.pc s.sched.runningThread = .outside)
      (hd : 0 < s.depth s.sched.runningThread) : Step s (s.goto .assertHolder)
  | stmt {s'} (hpc : s.pc s.sched.runningThread ≠ .outside)
      (hp : s.sched.pending = none ∨ s.pc s.sched.runningThread = .semaDownWait)
      (h : s.stmt = .ok s') : Step s s'
  | tick {sched} (hen : s.sched.Enabled .tick) (h : s.sched.exec .tick = .ok sched) :
      Step s { s with sched := sched }
  | kernel {sched} (op : Sched.Op) (hen : s.sched.Enabled op)
      (hpc : s.pc s.sched.runningThread = .outside) (hop : Avoids s.lock.semaphore op)
      (h : s.sched.exec op = .ok sched) : Step s { s with sched := sched }

/-- The state after thread_init and lock_init. -/
def init (mainThread : TaskId) (value : SemaphoreId → ℕ) (psema : SemaphoreId) : LockSys where
  sched := Sched.threadInit mainThread (Function.update value psema 1)
  lock := ⟨none,0,psema⟩
  pc := fun _ => .outside
  depth := fun _ => 0

/-- The states that some run reaches. -/
def Reachable (s : LockSys) : Prop :=
  ∃ mainThread value psema, Relation.ReflTransGen Step (init mainThread value psema) s

end LockSys
end OsKernel

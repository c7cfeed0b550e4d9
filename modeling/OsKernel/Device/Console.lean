import OsKernel.Print.Access
import OsKernel.Thread.LockCalls

/-! Any number of threads in console_put_str, console_put_int and console_put_char. The routines
of print.S run access by access, and the lock is taken and released statement by statement. -/
namespace OsKernel

/-- Where a thread is in a console function. -/
inductive ConsolePhase
  | outside
  /-- In console_acquire -/
  | acquiring (call : PrintCall)
  | printing (pc : PrintPc)
  /-- The print routine has returned -/
  | printed
  /-- In console_release -/
  | releasing
  deriving DecidableEq, Repr

def ConsolePhase.waiting : ConsolePhase → List PrintCall
  | .acquiring call => [call]
  | _ => []

/-- The kernel with console_lock as its lock. The log lists the calls in the order in which they
got the lock, and asked those that a thread has made; the code reads neither. -/
structure ConsoleSys where
  sys : LockSys
  link : Link
  display : Display
  phase : TaskId → ConsolePhase
  log : List (TaskId × PrintCall)
  asked : TaskId → List PrintCall

namespace ConsoleSys
variable (s : ConsoleSys)

/-- The running thread. -/
def cur : TaskId := s.sys.sched.runningThread

def setPhase (ph : ConsolePhase) : ConsoleSys :=
  { s with phase := Function.update s.phase s.cur ph }

/-- After a statement of lock_acquire. -/
def acquired (call : PrintCall) (sys : LockSys) : ConsoleSys :=
  if sys.pc s.cur = .outside then
    { s.setPhase (.printing call.start) with sys := sys, log := s.log ++ [(s.cur,call)] }
  else { s with sys := sys }

/-- After a statement of lock_release. -/
def released (sys : LockSys) : ConsoleSys :=
  if sys.pc s.cur = .outside then { s.setPhase .outside with sys := sys }
  else { s with sys := sys }

/-- The calls by which a device interrupt makes a thread ready. -/
def Wakes : Sched.Op → Prop
  | .threadUnblock _ => True
  | .semaUp _ => True
  | _ => False

/-- One step. A fault stops the thread where it is. The handlers of the devices wake threads at any
time, also while the running thread prints. After main has started threads, nothing but the console
functions prints. -/
inductive Step : ConsoleSys → Prop
  | call (call : PrintCall) (hp : s.sys.sched.pending = none) (hph : s.phase s.cur = .outside) :
      Step { s.setPhase (.acquiring call) with
        sys := s.sys.goto .acquireTest
        asked := Function.update s.asked s.cur (s.asked s.cur ++ [call]) }
  | acquire {call sys} (hph : s.phase s.cur = .acquiring call)
      (hp : s.sys.sched.pending = none ∨ s.sys.pc s.cur = .semaDownWait)
      (h : s.sys.stmt = .ok sys) : Step (s.acquired call sys)
  | print {pc display o} (hph : s.phase s.cur = .printing pc) (hp : s.sys.sched.pending = none)
      (h : printAccess s.link pc s.display = .ok (display,o)) :
      Step { s.setPhase (o.elim .printed .printing) with display := display }
  | release (hph : s.phase s.cur = .printed) (hp : s.sys.sched.pending = none) :
      Step { s.setPhase .releasing with sys := s.sys.goto .assertHolder }
  | releaseStmt {sys} (hph : s.phase s.cur = .releasing)
      (hp : s.sys.sched.pending = none ∨ s.sys.pc s.cur = .semaDownWait)
      (h : s.sys.stmt = .ok sys) : Step (s.released sys)
  | tick {sched} (hen : s.sys.sched.Enabled .tick) (h : s.sys.sched.exec .tick = .ok sched) :
      Step { s with sys := { s.sys with sched := sched } }
  | kernel {sched} (op : Sched.Op) (hph : s.phase s.cur = .outside) (hen : s.sys.sched.Enabled op)
      (hop : LockSys.Avoids s.sys.lock.semaphore op) (h : s.sys.sched.exec op = .ok sched) :
      Step { s with sys := { s.sys with sched := sched } }
  | interrupt {sched} (op : Sched.Op) (hw : Wakes op) (hi : s.sys.sched.intr = true)
      (hen : s.sys.sched.Enabled op) (hop : LockSys.Avoids s.sys.lock.semaphore op)
      (h : s.sys.sched.exec op = .ok sched) : Step { s with sys := { s.sys with sched := sched } }

/-- The state after thread_init and console_init. -/
def init (mainThread : TaskId) (value : SemaphoreId → ℕ) (psema : SemaphoreId) (link : Link)
    (display : Display) : ConsoleSys where
  sys := LockSys.init mainThread value psema
  link := link
  display := display
  phase := fun _ => .outside
  log := []
  asked := fun _ => []

/-- The states that some run reaches from a display. The linker puts put_int_buffer outside the
text memory. -/
def Reachable (display : Display) : Prop :=
  ∃ mainThread value psema link, (∀ x, X86.Span link.putIntBuffer 8 x → ¬InVideo x) ∧
    Relation.ReflTransGen Step (init mainThread value psema link display) s

/-- The calls of a thread that have got the lock, in their order. -/
def served (t : TaskId) : List PrintCall := (s.log.filter (·.1 = t)).map Prod.snd

/-- The call that waits for the lock. -/
def waiting (t : TaskId) : List PrintCall := (s.phase t).waiting

/-- The text of the calls that have got the lock. -/
def text : List (BitVec 8) := s.log.flatMap fun e => e.2.text

/-- A thread is between console_acquire and console_release. -/
def Printing (t : TaskId) : Prop := (∃ pc, s.phase t = .printing pc) ∨ s.phase t = .printed

end ConsoleSys
end OsKernel

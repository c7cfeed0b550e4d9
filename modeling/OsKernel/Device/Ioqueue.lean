import OsKernel.Library.RingBuffer
import OsKernel.Thread.Scheduler

/-! The queue between an interrupt handler or a producer and the threads that read from it. The
functions run with interrupts off, so that only the places where they block separate them
from one another. -/
namespace OsKernel

def bufsize : ℕ := 64

/-- A struct ioqueue without its lock. -/
structure Ioqueue extends RingBuffer UInt8 where
  consumer : Option TaskId
  producer : Option TaskId

namespace Ioqueue

/-- The fields that init_ioqueue sets. The buffer holds what was in its memory before. -/
def initIoqueue (buf : ℕ → UInt8) : Ioqueue where
  buf := buf
  head := 0
  tail := 0
  consumer := none
  producer := none

def nextPos (pos : ℕ) : ℕ := RingBuffer.next bufsize pos

def ioqFull (sched : Sched) (ioq : Ioqueue) : Except Panic Bool := do
  assert (sched.intr = false) "ioq_full" "intr_get_status()==INTR_OFF"
  return decide (nextPos ioq.head = ioq.tail)

def ioqEmpty (sched : Sched) (ioq : Ioqueue) : Except Panic Bool := do
  assert (sched.intr = false) "ioq_empty" "intr_get_status()==INTR_OFF"
  return decide (ioq.head = ioq.tail)

/-- A value of type struct task_struct**, as the calls of ioq_wait pass it. -/
inductive WaiterPtr
  | null
  | consumerField
  | producerField
  /-- The address of a PCB, passed where the address of a field was meant. -/
  | pcb (pthread : TaskId)
  deriving DecidableEq, Repr

namespace WaiterPtr

/-- The conversion of a struct task_struct* that the compiler only warns about. -/
def ofTask : Option TaskId → WaiterPtr
  | none => .null
  | some t => .pcb t

/-- What the pointer points to. The first word of a PCB is self_kstack, an address in the page
of the PCB. -/
def deref (ioq : Ioqueue) : WaiterPtr → Option TaskId
  | .null => none
  | .consumerField => ioq.consumer
  | .producerField => ioq.producer
  | .pcb t => some t

def assign (ioq : Ioqueue) (t : TaskId) : WaiterPtr → Ioqueue
  | .consumerField => { ioq with consumer := some t }
  | .producerField => { ioq with producer := some t }
  | _ => ioq

end WaiterPtr

def ioqWait (sched : Sched) (ioq : Ioqueue) (waiter : WaiterPtr) :
    Except Panic (Sched × Ioqueue) := do
  assert (waiter.deref ioq = none ∧ waiter ≠ .null) "ioq_wait" "*waiter==NULL&&waiter!=NULL"
  let ioq := waiter.assign ioq sched.runningThread
  let sched ← sched.threadBlock .blocked .threadBlock
  return (sched,ioq)

/-- Returns the new content of *waiter. -/
def wakeup (sched : Sched) (waiter : Option TaskId) : Except Panic (Sched × Option TaskId) :=
  match waiter with
  | none => .error (.assert "wakeup" "*waiter != NULL")
  | some t => do
    let sched ← sched.threadUnblock t
    return (sched,none)

/-- The call of wakeup under a test that somebody waits. -/
def wakeIfWaiting (sched : Sched) (waiter : Option TaskId) :
    Except Panic (Sched × Option TaskId) :=
  if waiter ≠ none then wakeup sched waiter else .ok (sched,waiter)

/-- What ioq_getchar does after its loop. -/
def takeByte (sched : Sched) (ioq : Ioqueue) : Except Panic (UInt8 × Sched × Ioqueue) := do
  let byte := ioq.buf ioq.tail
  let ioq := { ioq with tail := nextPos ioq.tail }
  let (sched,producer) ← wakeIfWaiting sched ioq.producer
  return (byte,sched,{ ioq with producer := producer })

/-- What ioq_putchar does after its loop. -/
def storeByte (sched : Sched) (ioq : Ioqueue) (chr : UInt8) : Except Panic (Sched × Ioqueue) := do
  let ioq := { ioq with
    buf := Function.update ioq.buf ioq.head chr
    head := nextPos ioq.head }
  let (sched,consumer) ← wakeIfWaiting sched ioq.consumer
  return (sched,{ ioq with consumer := consumer })

/-- A call of ioq_getchar. On an empty queue it does not return before another thread runs. -/
def ioqGetchar (sched : Sched) (ioq : Ioqueue) : Except Panic (UInt8 × Sched × Ioqueue) := do
  assert (sched.intr = false) "ioq_getchar" "intr_get_status()==INTR_OFF"
  if ← ioqEmpty sched ioq then .error (.blocked "ioq_getchar") else takeByte sched ioq

/-- A call of ioq_putchar. On a full queue it does not return before another thread runs. -/
def ioqPutchar (sched : Sched) (ioq : Ioqueue) (chr : UInt8) :
    Except Panic (Sched × Ioqueue) := do
  assert (sched.intr = false) "ioq_putchar" "intr_get_status() == INTR_OFF"
  if ← ioqFull sched ioq then .error (.blocked "ioq_putchar") else storeByte sched ioq chr

/-- The ring holds the bytes of the first list that are not in the second one, of which this is
the beginning. -/
def Fifo (ioq : Ioqueue) (puts gets : List UInt8) : Prop :=
  ∃ pending, ioq.toRingBuffer.Holds bufsize pending ∧ puts = gets++pending

variable {sched : Sched} {ioq : Ioqueue} {puts gets : List UInt8}

theorem initIoqueue_fifo (buf : ℕ → UInt8) : (initIoqueue buf).Fifo [] [] :=
  ⟨[],RingBuffer.Holds.empty buf (by decide),rfl⟩

theorem ioqFull_eq (hi : sched.intr = false) :
    ioqFull sched ioq = .ok (decide (nextPos ioq.head = ioq.tail)) := by
  rw [ioqFull,assert_of hi]
  rfl

theorem ioqEmpty_eq (hi : sched.intr = false) :
    ioqEmpty sched ioq = .ok (decide (ioq.head = ioq.tail)) := by
  rw [ioqEmpty,assert_of hi]
  rfl

theorem Fifo.empty_iff (h : ioq.Fifo puts gets) : ioq.head = ioq.tail ↔ puts = gets := by
  obtain ⟨pending,hr,rfl⟩ := h
  rw [hr.empty_iff]
  simp

theorem Fifo.full_iff (h : ioq.Fifo puts gets) :
    nextPos ioq.head = ioq.tail ↔ puts.length = gets.length+(bufsize-1) := by
  obtain ⟨pending,hr,rfl⟩ := h
  have hlt := hr.length_lt
  rw [nextPos,hr.full_iff,List.length_append]
  omega

/-- A byte is put behind all others. -/
theorem Fifo.store (h : ioq.Fifo puts gets) (hfull : nextPos ioq.head ≠ ioq.tail) (chr : UInt8)
    {ioq' : Ioqueue} (hr : ioq'.toRingBuffer = ioq.toRingBuffer.put bufsize chr) :
    ioq'.Fifo (puts++[chr]) gets := by
  obtain ⟨pending,hh,rfl⟩ := h
  have hl : pending.length+1 ≠ bufsize := fun e => hfull (hh.full_iff.mpr e)
  refine ⟨pending++[chr],?_,List.append_assoc _ _ _⟩
  rw [hr]
  exact hh.put hl chr

/-- The byte that leaves the ring is the next one to be got. -/
theorem Fifo.take (h : ioq.Fifo puts gets) (hempty : ioq.head ≠ ioq.tail) {ioq' : Ioqueue}
    {byte : UInt8} (hr : ioq.toRingBuffer.get bufsize = (byte,ioq'.toRingBuffer)) :
    ioq'.Fifo puts (gets++[byte]) := by
  obtain ⟨pending,hh,rfl⟩ := h
  cases pending with
  | nil => exact absurd (hh.empty_iff.mpr rfl) hempty
  | cons a l =>
    obtain ⟨ha,hl⟩ := hh.get
    rw [hr] at ha hl
    obtain rfl : byte = a := ha
    exact ⟨l,hl,List.append_cons gets byte l⟩

end Ioqueue
end OsKernel

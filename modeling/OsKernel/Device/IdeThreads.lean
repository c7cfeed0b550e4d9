import OsKernel.Device.Ide
import OsKernel.Thread.Lock

/-! Any number of threads in ide_read and ide_write on one channel, and the interrupts of its disks.
The lock of the channel is the lock of the lock functions, and disk_done is another semaphore. -/
namespace OsKernel

/-- The channel that ide_init fills in for a number. -/
def ideInit (channelNo : ℕ) : IdeChannel :=
  if channelNo = 0 then ⟨0x1f0,0x20+14⟩ else ⟨0x170,0x20+15⟩

/-- The kernel with one channel. A failed assertion halts it. The counters record the commands
written to the channel, the expected interrupts and the completed calls of sema_down on disk_done;
the code does not read them. -/
structure IdeSys where
  sys : LockSys
  channelNo : ℕ
  expectingIntr : Bool
  diskDone : SemaphoreId
  /-- What is left of the call that a thread is in. -/
  todo : TaskId → List IdeOp
  halted : Option Panic
  issued : ℕ
  accepted : ℕ
  consumed : ℕ

namespace IdeSys
variable (s : IdeSys)

/-- The running thread. -/
def cur : TaskId := s.sys.sched.runningThread

def channel : IdeChannel := ideInit s.channelNo

/-- The value of disk_done. -/
def value : ℕ := s.sys.sched.value s.diskDone

def setSys (sys : LockSys) : IdeSys := { s with sys := sys }

def setSched (sched : Sched) : IdeSys := s.setSys { s.sys with sched := sched }

/-- The running thread has done the first of its operations. -/
def next : IdeSys := { s with todo := Function.update s.todo s.cur (s.todo s.cur).tail }

/-- Where the loop of sema_down on disk_done leaves its caller: it waits or goes on. -/
def afterDown (sched : Sched) : IdeSys :=
  if s.value = 0 then s.setSched sched
  else { s.next.setSched sched with consumed := s.consumed+1 }

/-- The next operation of the running thread. -/
def op : IdeOp → Except Panic IdeSys
  | .check condition e => if condition then .ok s.next else .error e
  | .lockAcquire => .ok (s.next.setSys (s.sys.goto .acquireTest))
  | .lockRelease => .ok (s.next.setSys (s.sys.goto .assertHolder))
  | .outb port _ =>
    .ok (if port = s.channel.regCmd then { s.next with issued := s.issued+1 } else s.next)
  | .expectIntr => .ok { s.next with expectingIntr := true }
  | .semaDown => s.sys.sched.semaDown s.diskDone >>= fun sched => .ok (s.afterDown sched)
  | .busyWait _ => .ok s.next
  | .insw _ _ _ => .ok s.next
  | .outsw _ _ _ => .ok s.next

/-- intr_hd_handler, which reads the status register in the end. The array channels holds the
channel at the number that the handler computes. -/
def intrHdHandler (irqNo : BitVec 8) : Except Panic IdeSys :=
  assert (irqNo = 0x2e ∨ irqNo = 0x2f) "intr_hd_handler" "irq_no == 0x2e || irq_no == 0x2f" >>=
    fun _ =>
  let chNo := irqNo-0x20-0xe
  assert ((ideInit chNo.toNat).irqNo = irqNo) "intr_hd_handler" "channel->irq_no == irq_no" >>=
    fun _ =>
  if s.expectingIntr then
    s.sys.sched.semaUp s.diskDone >>= fun sched =>
      .ok { s.setSched sched with expectingIntr := false, accepted := s.accepted+1 }
  else .ok s

/-- The interrupt gate clears the flag, and iret sets it again. -/
def diskInterrupt : Except Panic IdeSys :=
  (s.setSched (s.sys.sched.setIntr false)).intrHdHandler s.channel.irqNo >>= fun s =>
    .ok (s.setSched (s.sys.sched.setIntr true))

/-- An interrupt can be taken. -/
def Interruptible : Prop :=
  s.halted = none ∧ s.sys.sched.pending = none ∧ s.sys.sched.intr = true

/-- The running thread is neither in a call nor in a lock function. -/
def Elsewhere : Prop := s.todo s.cur = [] ∧ s.sys.pc s.cur = .outside

/-- The running thread is in busy_wait, which sleeps between two looks at the disk. -/
def InBusyWait : Prop := (∃ e ops, s.todo s.cur = .busyWait e::ops) ∧ s.sys.pc s.cur = .outside

/-- The operations of a call of ide_read or ide_write for a disk of the channel. -/
inductive Call (channel : IdeChannel) : List IdeOp → Prop
  | read (missing : BitVec 32 → BitVec 32) (hd : Disk) (hc : hd.myChannel = channel)
      (lba buf secCnt : BitVec 32) (rounds : ℕ) :
      Call channel (ideRead missing hd lba buf secCnt rounds)
  | write (hd : Disk) (hc : hd.myChannel = channel) (lba buf secCnt : BitVec 32) (rounds : ℕ) :
      Call channel (ideWrite hd lba buf secCnt rounds)

/-- One step: a call, an operation of the running thread, another test of disk_done after a
wake-up, a statement of a lock function, an interrupt of the timer or of the disk, or anything
else that the kernel does. Of the failures, those of the driver halt the kernel. -/
inductive Step : IdeSys → Prop
  | call {ops} (hh : s.halted = none) (hp : s.sys.sched.pending = none) (he : s.Elsewhere)
      (hops : Call s.channel ops) : Step { s with todo := Function.update s.todo s.cur ops }
  | op {o ops s'} (hh : s.halted = none) (hp : s.sys.sched.pending = none)
      (hl : s.sys.pc s.cur = .outside) (ht : s.todo s.cur = o::ops) (h : s.op o = .ok s') : Step s'
  | opFails {o ops e} (hh : s.halted = none) (hp : s.sys.sched.pending = none)
      (hl : s.sys.pc s.cur = .outside) (ht : s.todo s.cur = o::ops) (h : s.op o = .error e) :
      Step { s with halted := some e }
  | notReady {e ops} (hh : s.halted = none) (hp : s.sys.sched.pending = none)
      (hl : s.sys.pc s.cur = .outside) (ht : s.todo s.cur = .busyWait e::ops) :
      Step { s with halted := some e }
  | retest {o sched} (hh : s.halted = none) (hp : s.sys.sched.pending = some (s.diskDone,o))
      (h : s.sys.sched.exec .retest = .ok sched) : Step (s.afterDown sched)
  | retestFails {o e} (hh : s.halted = none) (hp : s.sys.sched.pending = some (s.diskDone,o))
      (h : s.sys.sched.exec .retest = .error e) : Step { s with halted := some e }
  | lock {sys} (hh : s.halted = none) (hl : s.sys.pc s.cur ≠ .outside)
      (hp : s.sys.sched.pending = none ∨ s.sys.pc s.cur = .semaDownWait)
      (h : s.sys.stmt = .ok sys) : Step (s.setSys sys)
  | lockFails {e} (hh : s.halted = none) (hl : s.sys.pc s.cur ≠ .outside)
      (hp : s.sys.sched.pending = none ∨ s.sys.pc s.cur = .semaDownWait)
      (h : s.sys.stmt = .error e) : Step { s with halted := some e }
  | tick {sched} (hh : s.halted = none) (hen : s.sys.sched.Enabled .tick)
      (h : s.sys.sched.exec .tick = .ok sched) : Step (s.setSched sched)
  | disk {s'} (hi : s.Interruptible) (h : s.diskInterrupt = .ok s') : Step s'
  | diskFails {e} (hi : s.Interruptible) (h : s.diskInterrupt = .error e) :
      Step { s with halted := some e }
  | kernel {sched} (op : Sched.Op) (hh : s.halted = none) (hen : s.sys.sched.Enabled op)
      (he : s.Elsewhere ∨ s.InBusyWait) (hl : LockSys.Avoids s.sys.lock.semaphore op)
      (hd : LockSys.Avoids s.diskDone op) (h : s.sys.sched.exec op = .ok sched) :
      Step (s.setSched sched)

/-- The state after thread_init and ide_init. -/
def init (mainThread : TaskId) (value : SemaphoreId → ℕ) (psema diskDone : SemaphoreId)
    (channelNo : ℕ) : IdeSys where
  sys := LockSys.init mainThread (Function.update value diskDone 0) psema
  channelNo := channelNo
  expectingIntr := false
  diskDone := diskDone
  todo := fun _ => []
  halted := none
  issued := 0
  accepted := 0
  consumed := 0

/-- The states that some run reaches. The semaphores are two fields of one of the two channels. -/
def Reachable : Prop :=
  ∃ mainThread value psema diskDone channelNo, diskDone ≠ psema ∧ channelNo < 2 ∧
    Relation.ReflTransGen Step (init mainThread value psema diskDone channelNo) s

/-- A failure inside sema_up or sema_down. -/
def SemaPanic (e : Panic) : Prop :=
  ∃ text, e = .assert "sema_up" text ∨ e = .assert "sema_down" text ∨ e = .panic "sema_down" text

/-- A step that writes a command to the channel. -/
def Issues (s' : IdeSys) : Prop := s.Step s' ∧ s'.issued = s.issued+1

/-- A thread that sleeps in sema_down on disk_done. -/
def Waiting (t : TaskId) : Prop := s.sys.sched.WaitsFor t s.diskDone

/-- The protocol of the disk interrupts. -/
structure Protocol : Prop where
  value : s.value = 0 ∨ s.value = 1
  asserts : ∀ e, s.halted = some e → ¬ SemaPanic e
  /-- disk_done holds the completions that have not been consumed. -/
  account : s.accepted = s.consumed+s.value
  /-- Between two commands, one completion is consumed. -/
  alternates : ∀ s₁ s₂ s₃, s.Issues s₁ → Relation.ReflTransGen Step s₁ s₂ →
    s₂.issued = s₁.issued → s₂.Issues s₃ → s₂.consumed = s₁.consumed+1
  spurious : s.expectingIntr = false → s.Interruptible → s.diskInterrupt = .ok s
  /-- The first interrupt for a command is recorded, and wakes the thread that waits for it. -/
  expected : s.expectingIntr = true → s.Interruptible → ∃ s', s.diskInterrupt = .ok s' ∧
    s'.value = 1 ∧ s'.accepted = s.accepted+1 ∧ s'.expectingIntr = false ∧
    ∀ t, s.Waiting t → (s'.sys.sched.task t).status = .ready
  /-- It stays recorded until a sema_down consumes it, which then does not block. -/
  kept : ∀ s', s.Step s' → s.value = 1 → s'.value = 1 ∨ s'.consumed = s.consumed+1
  taken : s.value = 1 → s.sys.sched.pending = none → ∃ s', s.op .semaDown = .ok s' ∧
    s'.value = 0 ∧ s'.consumed = s.consumed+1 ∧ s'.cur = s.cur

end IdeSys
end OsKernel

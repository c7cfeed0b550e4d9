import OsKernel.Thread.SwitchRuns
import OsKernel.Interrupt.Entry

/-! start_process builds the frame of the user where self_kstack points to, and switch_to stores the
stack pointer in the same field. A thread that process_execute has prepared runs among the others up
to the point where proc_stack has its value. -/
namespace OsKernel
open X86

/-- The area that thread_create leaves for the interrupt frame, at the top of the page. -/
def reservedStart (pthread : Word) : Word := pthread+4096-4*sizeofIntrStack

/-- Where thread_create puts the thread stack in a task that init_thread has filled in. -/
def threadStackStart (pthread : Word) : Word := reservedStart pthread-4*sizeofThreadStack

/-- kernel_thread and start_process. The statement that adds sizeof(struct thread_stack) reads the
field and writes it, and the next one reads it once more. -/
inductive StartPhase
  | started
  | read (kstack : Word)
  | written
  | computed (procStack : Word)
  deriving DecidableEq

/-- The thread reads the field next. -/
def StartPhase.Reads : StartPhase → Prop
  | .started | .written => True
  | .read _ | .computed _ => False

/-- The threads, how far the new one is, and where it was at each of its preemptions. -/
structure ProcStart (T : Type) where
  sys : SwitchSys T
  phase : StartPhase
  preempted : List StartPhase

/-- What the code between the interrupt and the call of switch_to depends on: the task state, and
the selector and the offset of the gate. -/
structure TimerGate where
  env : Env
  tss : Tss
  sel : BitVec 16
  off : Word

/-- The timer interrupt comes at c, and intr_timer_handler is entered. -/
def TimerGate.entry (g : TimerGate) (c : Cpu) : Cpu :=
  (run g.env (intrEntryPushes 0x20 .zero) (deliver g.tss g.sel g.off none c)).push g.env.next

section Entry
variable (g : TimerGate) {c : Cpu}

lemma deliver_esp (tss : Tss) (sel : BitVec 16) (off : Word) (h : ¬ c.Outer) :
    (deliver tss sel off none c).esp = c.esp-12 := by
  have he : (deliver tss sel off none c).esp = c.esp-4-4-4 := by
    simp [deliver,Cpu.onKernelStack,h,Cpu.push,Cpu.esp,Cpu.setSeg]
  rw [he]
  bv_omega

lemma intrEntryPushes_esp (env : Env) (n : BitVec 8) :
    (run env (intrEntryPushes n .zero) c).esp = c.esp-56 := by
  have hp : (exec env .pushad (run env [.pushImm 0,.pushSeg .ds,.pushSeg .es,.pushSeg .fs,
      .pushSeg .gs] c)).esp = c.esp-52 := by
    simp [exec,run,Cpu.push,Cpu.esp]
    bv_omega
  have he : (run env (intrEntryPushes n .zero) c).esp = (exec env .pushad (run env [.pushImm 0,
      .pushSeg .ds,.pushSeg .es,.pushSeg .fs,.pushSeg .gs] c)).esp-4 := by
    simp [intrEntryPushes,pushContext,VectorKind.instr,run,exec,Cpu.push,Cpu.esp,Cpu.setReg]
  rw [he,hp]
  bv_omega

/-- The handler starts 72 bytes below the interrupted code. -/
lemma TimerGate.entry_esp (h : ¬ c.Outer) : (g.entry c).esp = c.esp-72 := by
  have he : (g.entry c).esp =
      (run g.env (intrEntryPushes 0x20 .zero) (deliver g.tss g.sel g.off none c)).esp-4 := by
    simp [TimerGate.entry,Cpu.push,Cpu.esp]
  rw [he,intrEntryPushes_esp,deliver_esp _ _ _ h]
  bv_omega

end Entry

/-- The places of the page of a task. -/
lemma threadStackStart_toNat {pthread : Word} (h : pthread.toNat+4096 ≤ 2^32) :
    (threadStackStart pthread).toNat = pthread.toNat+3664 ∧
      (reservedStart pthread).toNat = pthread.toNat+3792 := by
  have hs : threadStackStart pthread = pthread+3664 := by
    simp only [threadStackStart,reservedStart,sizeofIntrStack,sizeofThreadStack]
    bv_omega
  have hr : reservedStart pthread = pthread+3792 := by
    simp only [reservedStart,sizeofIntrStack]
    bv_omega
  rw [hs,hr]
  constructor
  · bv_omega
  · bv_omega

namespace ProcStart
variable {T : Type} [DecidableEq T] (K : KernelStacks T) (g : TimerGate) (t : T)

/-- intr_timer_handler has called schedule, which calls switch_to at c. The two have pushed two
return addresses and two arguments, and they use some bytes more for their frames. -/
structure Preempts (s : SwitchSys T) (next : T) (c : Cpu) (frames : ℕ) : Prop where
  kernel : ¬ s.cpu.Outer
  enabled : s.cpu.eflags &&& 0x200 ≠ 0
  esp : c.esp = (g.entry s.cpu).esp-BitVec.ofNat 32 (frames+16)
  room : (K.pcb s.current).toNat+104+frames ≤ s.cpu.esp.toNat
  keeps : ∀ u x, (s.saved u).isSome → K.own u x → c.mem x = s.cpu.mem x
  calls : SwitchSys.Calls K { s with cpu := c } next

/-- kernel_thread starts where switch_to has popped the registers and the address of kernel_thread,
and its frames and those of the functions it calls lie below. -/
def InStack (esp : Word) : Prop :=
  (K.pcb t).toNat ≤ esp.toNat ∧ esp.toNat ≤ (threadStackStart (K.pcb t)).toNat+20

/-- The other threads do what they want. The new one computes, is preempted, or goes on to the next
access of its field. -/
inductive Step : ProcStart T → ProcStart T → Prop
  | others (s : ProcStart T) (sys : SwitchSys T) (hcur : s.sys.current ≠ t)
      (h : SwitchSys.Step K g.env s.sys sys) : Step s { s with sys := sys }
  | compute (s : ProcStart T) (c : Cpu) (hcur : s.sys.current = t)
      (h : ∀ u x, (s.sys.saved u).isSome → K.own u x → c.mem x = s.sys.cpu.mem x)
      (hfield : load c.mem (K.pcb t) = load s.sys.cpu.mem (K.pcb t)) (hesp : InStack K t c.esp) :
      Step s { s with sys := { s.sys with cpu := c } }
  | preempt (s : ProcStart T) (next : T) (c : Cpu) (frames : ℕ) (hcur : s.sys.current = t)
      (h : Preempts K g s.sys next c frames) :
      Step s { s with
        sys := SwitchSys.switched g.env { s.sys with cpu := c } next
        preempted := s.phase::s.preempted }
  | read (s : ProcStart T) (hcur : s.sys.current = t) (hp : s.phase = .started) :
      Step s { s with phase := .read (load s.sys.cpu.mem (K.pcb t)) }
  | write (s : ProcStart T) (kstack : Word) (hcur : s.sys.current = t)
      (hp : s.phase = .read kstack) :
      Step s { s with
        sys := { s.sys with cpu := { s.sys.cpu with
          mem := store s.sys.cpu.mem (K.pcb t) (kstack+4*sizeofThreadStack) } }
        phase := .written }
  | cast (s : ProcStart T) (hcur : s.sys.current = t) (hp : s.phase = .written) :
      Step s { s with phase := .computed (load s.sys.cpu.mem (K.pcb t)) }

/-- thread_create prepares the task of a thread that is not there yet, after init_thread. -/
structure Prepares (s : SwitchSys T) : Prop where
  page : (K.pcb t).toNat+4096 ≤ 2^32
  new : s.saved t = none
  other : t ≠ s.current
  field : load s.cpu.mem (K.pcb t) = K.pcb t+4096
  own : ∀ x, Span (threadStackStart (K.pcb t)) 32 x → K.own t x

/-- The threads after thread_create. -/
def prepared (startProcess filename : Word) (s : SwitchSys T) : SwitchSys T where
  cpu := { s.cpu with mem := threadCreate K.kernelThread (K.pcb t) startProcess filename s.cpu.mem }
  current := s.current
  saved := Function.update s.saved t (some (.fresh startProcess filename))

/-- The states of the runs from thread_create on. -/
def Reachable (s : ProcStart T) : Prop :=
  ∃ startProcess filename s₀, SwitchSys.Reachable K g.env s₀ ∧ Prepares K t s₀ ∧
    Relation.ReflTransGen (Step K g t) ⟨prepared K t startProcess filename s₀,.started,[]⟩ s

/-- The bytes of the frames on the stack of the running thread. -/
def Live (s : ProcStart T) (x : Word) : Prop :=
  s.sys.cpu.esp.toNat ≤ x.toNat ∧ x.toNat < (threadStackStart (K.pcb t)).toNat+32

/-- The frame at proc_stack lies in the area left for it, above the live frames. -/
structure FramePlaced (s : ProcStart T) (procStack : Word) : Prop where
  reserved : (reservedStart (K.pcb t)).toNat ≤ procStack.toNat ∧
    procStack.toNat+sizeofIntrStack.toNat ≤ (K.pcb t).toNat+4096
  above : ∀ x, Live K t s x → x.toNat < procStack.toNat

end ProcStart
end OsKernel

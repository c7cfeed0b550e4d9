import OsKernel.Interrupt.Idt
import OsKernel.Interrupt.TaskState
import OsKernel.Thread.SwitchRuns

/-! Threads and processes that are interrupted, make system calls and switch among each other. A
handler may be interrupted too, and the threads run on while it waits. What each thread still has
to go back to lies on its own kernel stack. -/
namespace OsKernel
open X86

/-- The kernel stacks, the task state segment, and the tasks with a page directory of their own. An
entry of the kernel from ring 3 uses at most 24 words at the end of the page of the task. -/
structure TaskStacks (T : Type) extends KernelStacks T where
  tss : Word
  isProc : T → Bool
  aligned : ∀ t, (pcb t).toNat%4096 = 0
  top : ∀ t x, Span (pcb t+4096-96) 96 x → own t x
  tssApart : ∀ t x, own t x → ¬Span tss 108 x
  gdtApart : ∀ x, Span tss 108 x → ¬Span 0xc0000920 24 x

/-- Code that has been interrupted, where its struct intr_stack lies, and whether the interrupt is
a system call. -/
structure Pending where
  cpu : Cpu
  frame : Word
  syscall : Bool

/-- The bytes of the struct intr_stack without the first word, which is an argument of the
handler. -/
def Pending.Keeps (p : Pending) (x : Word) : Prop :=
  Span (p.frame+4) (if p.cpu.Outer then 72 else 64) x

def selectorUCode : Word := 0x2b

def selectorUData : Word := 0x33

/-- The struct intr_stack that start_process fills in. It leaves two members as they are. -/
def procStack (vecNo errCode function esp : Word) : IntrStack where
  vecNo := vecNo
  edi := 0
  esi := 0
  ebp := 0
  espDummy := 0
  ebx := 0
  edx := 0
  ecx := 0
  eax := 0
  gs := 0
  fs := selectorUData
  es := selectorUData
  ds := selectorUData
  errCode := errCode
  eip := function
  cs := selectorUCode
  eflags := 0x202
  esp := esp
  ss := selectorUData

/-- The code runs in ring 0, with the segments that the kernel starts with. -/
structure KernelMode (c : Cpu) : Prop where
  cs : c.seg .cs = selectorKCode
  ss : c.seg .ss = 0x10

/-- The processor, the threads, and what each of them has been interrupted in, the latest first. -/
structure TaskSys (T : Type) extends SwitchSys T where
  pending : T → List Pending

namespace TaskSys
variable {T : Type} [DecidableEq T] (K : TaskStacks T) (env : Env)

/-- The stack has room for an entry from ring 0. -/
structure Room (s : TaskSys T) : Prop where
  own : ∀ x, Span (s.cpu.esp-96) 96 x → K.own s.current x
  pcb : ∀ x, Span (s.cpu.esp-96) 96 x → ¬Span (K.pcb s.current) 4 x
  frames : ∀ p ∈ s.pending s.current, ∀ x, Span (s.cpu.esp-96) 96 x → ¬p.Keeps x

/-- The processor takes an interrupt or an exception, up to the call of the handler. -/
def intrCpu (off : Word) (n : BitVec 8) (kind : VectorKind) (err : Option Word) (c : Cpu) : Cpu :=
  run env (intrEntryPushes n kind) (deliver (tssAt c.mem K.tss) selectorKCode off err c)

/-- The instruction int 0x80, up to the call of the function. -/
def sysCpu (off : Word) (c : Cpu) : Cpu :=
  run env syscallPushes (deliver (tssAt c.mem K.tss) selectorKCode off none c)

/-- The current thread has been interrupted. -/
def interrupted (s : TaskSys T) (c : Cpu) (frame : Word) (syscall : Bool) : TaskSys T where
  cpu := c
  current := s.current
  saved := s.saved
  pending := Function.update s.pending s.current (⟨s.cpu,frame,syscall⟩::s.pending s.current)

/-- The current thread has gone back to the code it was interrupted in. -/
def returned (s : TaskSys T) (c : Cpu) (ps : List Pending) : TaskSys T where
  cpu := c
  current := s.current
  saved := s.saved
  pending := Function.update s.pending s.current ps

section Updates
variable {s : TaskSys T} {c : Cpu} {frame : Word} {syscall : Bool} {ps : List Pending} {t : T}

@[simp] lemma interrupted_pending_self : (s.interrupted c frame syscall).pending s.current =
    ⟨s.cpu,frame,syscall⟩::s.pending s.current := Function.update_self _ _ _

@[simp] lemma interrupted_pending_of_ne (h : t ≠ s.current) :
    (s.interrupted c frame syscall).pending t = s.pending t := Function.update_of_ne h _ _

@[simp] lemma returned_pending_self : (s.returned c ps).pending s.current = ps :=
  Function.update_self _ _ _

@[simp] lemma returned_pending_of_ne (h : t ≠ s.current) :
    (s.returned c ps).pending t = s.pending t := Function.update_of_ne h _ _

end Updates

/-- The part of process_activate for the kernel stack. -/
def processActivate (next : T) (m : Mem) : Mem :=
  if K.isProc next then updateTssEsp K.tss (K.pcb next) m else m

/-- The threads when schedule has called process_activate. -/
def activated (s : TaskSys T) (next : T) : SwitchSys T :=
  { s.toSwitchSys with cpu := { s.cpu with mem := processActivate K next s.cpu.mem } }

inductive Step : TaskSys T → TaskSys T → Prop
  /-- The current thread computes, in its ring. It leaves alone the stacks of the others, the
  frames it has to go back to, and the task state segment. -/
  | compute (s : TaskSys T) (c : Cpu) (hcs : c.seg .cs = s.cpu.seg .cs)
      (hss : c.seg .ss = s.cpu.seg .ss)
      (hothers : ∀ t x, (s.saved t).isSome → K.own t x → c.mem x = s.cpu.mem x)
      (hframes : ∀ p ∈ s.pending s.current, ∀ x, p.Keeps x → c.mem x = s.cpu.mem x)
      (htss : ∀ x, Span K.tss 108 x → c.mem x = s.cpu.mem x) :
      Step s { s with cpu := c }
  | interrupt (s : TaskSys T) (off : Word) (n : BitVec 8) (kind : VectorKind) (err : Option Word)
      (hv : (n,kind) ∈ vectors) (herr : err.isSome ↔ kind = .errorCode)
      (hroom : ¬s.cpu.Outer → Room K s) :
      Step s (s.interrupted (intrCpu K env off n kind err s.cpu)
        (intrCpu K env off n kind err s.cpu).esp false)
  | syscall (s : TaskSys T) (off : Word) (hroom : ¬s.cpu.Outer → Room K s) :
      Step s (s.interrupted (sysCpu K env off s.cpu) ((sysCpu K env off s.cpu).esp+12) true)
  /-- The handler has returned to the stub. -/
  | intrExit (s : TaskSys T) (p : Pending) (ps : List Pending)
      (hp : s.pending s.current = p::ps) (hsys : p.syscall = false) (hesp : s.cpu.esp = p.frame) :
      Step s (s.returned (run env OsKernel.intrExit s.cpu) ps)
  /-- The function has returned to syscall_handler. -/
  | syscallExit (s : TaskSys T) (p : Pending) (ps : List Pending)
      (hp : s.pending s.current = p::ps) (hsys : p.syscall = true) (hesp : s.cpu.esp = p.frame-12) :
      Step s (s.returned (run env (syscallReturn++OsKernel.intrExit) s.cpu) ps)
  /-- thread_create prepares a task that does not exist yet. -/
  | create (s : TaskSys T) (t : T) (function funcArg : Word) (hk : KernelMode s.cpu)
      (hnew : s.saved t = none) (hcur : t ≠ s.current)
      (hown : ∀ x, Span (kthreadStackOf s.cpu.mem (K.pcb t)) 32 x → K.own t x)
      (hapart : ∀ x, Span (K.pcb t) 4 x → ¬Span (kthreadStackOf s.cpu.mem (K.pcb t)) 32 x) :
      Step s { s with
        cpu := { s.cpu with
          mem := threadCreate K.kernelThread (K.pcb t) function funcArg s.cpu.mem }
        saved := Function.update s.saved t (some (.fresh function funcArg)) }
  /-- schedule goes over to the next thread, process_activate first. -/
  | schedule (s : TaskSys T) (next : T) (hk : KernelMode s.cpu)
      (h : (s.activated K next).Calls K.toKernelStacks next)
      (hframes : ∀ p ∈ s.pending s.current, ∀ x, Span (s.cpu.esp-16) 28 x → ¬p.Keeps x) :
      Step s ⟨(s.activated K next).switched env next,s.pending⟩
  /-- start_process jumps to intr_exit with a frame that it has filled in. -/
  | startProcess (s : TaskSys T) (vecNo errCode function esp : Word) (hk : KernelMode s.cpu)
      (hproc : K.isProc s.current) (hp : s.pending s.current = [])
      (hframe : Holds s.cpu.mem s.cpu.esp (procStack vecNo errCode function esp).words) :
      Step s { s with cpu := run env OsKernel.intrExit s.cpu }

/-- The main thread after tss_init. -/
def init (c : Cpu) (mainThread : T) : TaskSys T where
  cpu := { c with mem := tssInit K.tss c.mem }
  current := mainThread
  saved := fun _ => none
  pending := fun _ => []

/-- A state of a run in which the main thread has loaded the task register. -/
def Reachable (s : TaskSys T) : Prop :=
  ∃ c mainThread, KernelMode c ∧ K.isProc mainThread = false ∧
    Relation.ReflTransGen (Step K env) (init K c mainThread) s

/-- What the entry and the exit of the kernel do in a state. -/
structure Preemptible (s : TaskSys T) : Prop where
  /-- A handler that returns resumes the code that its thread was interrupted in. -/
  returns : ∀ p ps, s.pending s.current = p::ps → p.syscall = false → s.cpu.esp = p.frame →
    run env OsKernel.intrExit s.cpu = { p.cpu with mem := s.cpu.mem }
  /-- For the caller of a system call only eax is another one. -/
  sysReturns : ∀ p ps, s.pending s.current = p::ps → p.syscall = true → s.cpu.esp = p.frame-12 →
    run env (syscallReturn++OsKernel.intrExit) s.cpu =
      { p.cpu with
        reg := Function.update p.cpu.reg .eax (s.cpu.reg .eax)
        mem := store s.cpu.mem (p.frame+32) (s.cpu.reg .eax) }
  /-- Code in ring 3 is a process that has nothing to go back to, and the kernel is entered on the
  stack of this process. -/
  user : s.cpu.Outer → K.isProc s.current ∧ s.pending s.current = [] ∧
    s.cpu.stackTop (tssAt s.cpu.mem K.tss) = K.pcb s.current+4096

end TaskSys
end OsKernel

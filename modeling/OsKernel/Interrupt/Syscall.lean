import OsKernel.Interrupt.Resume

/-! The system call table and the call that syscall_handler makes through it. -/
namespace OsKernel
open X86

inductive SyscallNr
  | sysGetpid
  | sysWrite
  | sysMalloc
  | sysFree
  deriving DecidableEq

namespace SyscallNr

/-- The value of the enumerator. -/
def val : SyscallNr → ℕ
  | sysGetpid => 0
  | sysWrite => 1
  | sysMalloc => 2
  | sysFree => 3

lemma val_lt (n : SyscallNr) : n.val < 4 := by
  cases n <;> decide

lemma exists_val {k : ℕ} (h : k < 4) : ∃ n : SyscallNr, n.val = k := by
  obtain rfl | rfl | rfl | rfl : k = 0 ∨ k = 1 ∨ k = 2 ∨ k = 3 := by omega
  · exact ⟨sysGetpid,rfl⟩
  · exact ⟨sysWrite,rfl⟩
  · exact ⟨sysMalloc,rfl⟩
  · exact ⟨sysFree,rfl⟩

end SyscallNr

/-- The length of syscall_table. -/
def syscallNr : ℕ := 32

/-- The table after syscall_init; the slots it does not assign are zero from the start. -/
def syscallInit (sys : SyscallNr → Word) : List Word :=
  ((((List.replicate syscallNr 0).set SyscallNr.sysGetpid.val (sys .sysGetpid)).set
    SyscallNr.sysWrite.val (sys .sysWrite)).set SyscallNr.sysMalloc.val (sys .sysMalloc)).set
    SyscallNr.sysFree.val (sys .sysFree)

lemma syscallInit_get (sys : SyscallNr → Word) (n : SyscallNr) :
    (syscallInit sys)[n.val]? = some (sys n) := by
  cases n <;> rfl

/-- A call through a slot that syscall_init filled, of the function it stored
there, with ebx, ecx and edx as arguments. -/
structure Confined (sys : SyscallNr → Word) (syscallTable : Word) (c : Cpu) (call : Call) :
    Prop where
  slot : ∃ n : SyscallNr, call.slot = syscallTable+BitVec.ofNat 32 (4*n.val) ∧ call.target = sys n
  args : Holds call.entry.mem (call.entry.esp+4) [c.reg .ebx,c.reg .ecx,c.reg .edx]

section Dispatch

variable (env : Env) (tss : Tss) (sel : BitVec 16) (off : Word) (c : Cpu) (syscallTable : Word)

/-- The one call of syscall_handler: the index is eax, unchecked. -/
theorem syscallHandler_call : ∃ call,
    calls env (syscallHandler syscallTable) (deliver tss sel off none c) = [call] ∧
    call.slot = syscallTable+4*c.reg .eax ∧
    Holds call.entry.mem (call.entry.esp+4) [c.reg .ebx,c.reg .ecx,c.reg .edx] ∧
    ∀ sys, Holds c.mem syscallTable (syscallInit sys) →
      (∀ x, Span syscallTable 128 x → ¬Span (c.stackTop tss-96) 96 x) →
      ∀ n : SyscallNr, call.slot = syscallTable+BitVec.ofNat 32 (4*n.val) → call.target = sys n := by
  obtain ⟨reg,dummy,heax,h⟩ := syscallPushes_tracks env tss sel off c
  have hlen := (intrStackOf c 0x80 dummy 0).length_saved c
  have hr : (run env syscallPushes (deliver tss sel off none c)).reg .eax = c.reg .eax := by
    rw [h.reg]
    exact heax
  refine ⟨_,calls_syscallHandler env _ syscallTable,?_,?_,fun sys ht hapart n hn => ?_⟩
  · simp only [callAt,Operand.addr,hr]
  · have hp := h.holds_push env.next (by
      simp only [List.length_append,List.length_cons,List.length_nil]
      omega) (by omega)
    exact ⟨hp.1,hp.2.1,hp.2.2.1,trivial⟩
  · exact h.target ht (syscallInit_get sys n) (by simp [syscallInit,syscallNr])
      (by simpa [syscallInit,syscallNr] using hapart) env hn

variable {env tss sel off c syscallTable}

/-- Control stays within the table exactly when the low thirty bits of eax, the
ones the scaled index keeps, are a registered number. -/
theorem syscallHandler_confined_iff {sys : SyscallNr → Word}
    (ht : Holds c.mem syscallTable (syscallInit sys))
    (hapart : ∀ x, Span syscallTable 128 x → ¬Span (c.stackTop tss-96) 96 x) :
    (∀ call ∈ calls env (syscallHandler syscallTable) (deliver tss sel off none c),
      Confined sys syscallTable c call) ↔ (c.reg .eax).toNat%2^30 < 4 := by
  obtain ⟨call,hcalls,hslot,hargs,htarget⟩ := syscallHandler_call env tss sel off c syscallTable
  rw [hcalls,List.forall_mem_singleton]
  constructor
  · rintro ⟨⟨n,hn,-⟩,-⟩
    have hlt := n.val_lt
    rw [hslot] at hn
    bv_omega
  · intro heax
    obtain ⟨n,hn⟩ := SyscallNr.exists_val heax
    have hs : call.slot = syscallTable+BitVec.ofNat 32 (4*n.val) := by
      rw [hslot,hn]
      bv_omega
    exact ⟨⟨n,hs,htarget sys ht hapart n hs⟩,hargs⟩

end Dispatch

/-- The functions at four addresses, the table at 0xc0010400, a kernel stack, and a
program that asks for the given number. -/
def exampleSys (n : SyscallNr) : Word := 0xc0002000+BitVec.ofNat 32 (16*n.val)

def exampleMem : Mem :=
  store (store (store (store (fun _ => 0) 0xc0010400 (exampleSys .sysGetpid)) 0xc0010404
    (exampleSys .sysWrite)) 0xc0010408 (exampleSys .sysMalloc)) 0xc001040c (exampleSys .sysFree)

def exampleTss : Tss := ⟨0x10,0xc0102000⟩

def callerCpu (eax : Word) : Cpu :=
  {userCpu with reg := Function.update userCpu.reg .eax eax, mem := exampleMem}

lemma callerCpu_holds (eax : Word) :
    Holds (callerCpu eax).mem 0xc0010400 (syscallInit exampleSys) := by
  have h : Holds exampleMem 0xc0010400 (syscallInit exampleSys) := by decide +kernel
  exact h

lemma callerCpu_apart (eax x : Word) (hx : Span 0xc0010400 128 x) :
    ¬Span ((callerCpu eax).stackTop exampleTss-96) 96 x := by
  have ho : (callerCpu eax).Outer := by
    simp [Cpu.Outer,Cpu.ring,callerCpu,userCpu]
  rw [Cpu.stackTop,if_pos ho]
  simp only [Span,exampleTss] at hx ⊢
  bv_omega

/-- What the entry does with the given number. -/
def exampleCalls (eax : Word) : List Call :=
  calls returnsAtOnce (syscallHandler 0xc0010400)
    (deliver exampleTss 8 0xc0001600 none (callerCpu eax))

theorem syscallHandler_confined_iff_malloc : ((callerCpu 2).reg .eax).toNat%2^30 < 4 ∧
    ∀ call ∈ exampleCalls 2, Confined exampleSys 0xc0010400 (callerCpu 2) call :=
  ⟨by decide,(@syscallHandler_confined_iff returnsAtOnce exampleTss 8 0xc0001600 (callerCpu 2)
    0xc0010400 exampleSys (callerCpu_holds 2) (callerCpu_apart 2)).mpr (by decide)⟩

/-- The first number after the registered ones reads an empty slot. -/
theorem syscallHandler_emptySlot :
    Holds (callerCpu 4).mem 0xc0010400 (syscallInit exampleSys) ∧
    (∀ x, Span 0xc0010400 128 x → ¬Span ((callerCpu 4).stackTop exampleTss-96) 96 x) ∧
    ¬∀ call ∈ exampleCalls 4, Confined exampleSys 0xc0010400 (callerCpu 4) call := by
  refine ⟨callerCpu_holds 4,callerCpu_apart 4,fun h => ?_⟩
  obtain ⟨call,hcalls,hslot,-,-⟩ := syscallHandler_call returnsAtOnce exampleTss 8
    0xc0001600 (callerCpu 4) 0xc0010400
  have hmem : call ∈ exampleCalls 4 := by
    rw [exampleCalls,hcalls]
    exact List.mem_singleton_self call
  obtain ⟨⟨n,hn,-⟩,-⟩ := h call hmem
  have heax : (callerCpu 4).reg .eax = 4 := rfl
  have hlt := n.val_lt
  rw [hslot,heax] at hn
  bv_omega

end OsKernel

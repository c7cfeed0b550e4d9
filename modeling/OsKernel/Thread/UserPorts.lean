import OsKernel.Thread.PreemptRuns

/-! The ports that a process may use. The bit map that decides about them is the task state segment
itself, and the memory behind it. -/
namespace OsKernel
open X86

/-- The registers of an IDE channel. -/
def channelPorts (portBase : BitVec 16) : List (BitVec 16) :=
  (List.range 8).map fun k => portBase+BitVec.ofNat 16 k

/-- The ports of the interrupt controllers, of the timer, of the keyboard and of the disks. -/
def devicePorts : List (BitVec 16) :=
  [0x20,0x21,0xa0,0xa1,0x40,0x43,0x60]++channelPorts 0x1f0++channelPorts 0x170

section Ports
variable {esp0 : Word} {port : BitVec 16}

lemma getLsbD_of_aligned {w : Word} (h : w.toNat%4096 = 0) {k : ℕ} (hk : k < 12) :
    w.getLsbD k = false := by
  have hw : w.toNat = 2^12*(w.toNat/4096) := by omega
  rw [BitVec.getLsbD,hw,Nat.testBit_two_pow_mul]
  simp [show ¬12 ≤ k by omega]

/-- With the end of a page in esp0, no port of a device is denied. -/
lemma not_denied (h : esp0.toNat%4096 = 0) (hp : port ∈ devicePorts) :
    port.toNat < 8*108 ∧ ¬Denied esp0 port.toNat := by
  have hall : devicePorts.all fun q => q.toNat < 8*108 ∧ (q.toNat < 44 ∨ 64 ≤ q.toNat) ∧
      q.toNat ∉ [0x44,0x342,0x343,0x345,0x346] := by decide
  obtain ⟨hlt,hr,hn⟩ := of_decide_eq_true (List.all_eq_true.mp hall port hp)
  refine ⟨hlt,?_⟩
  rintro (⟨h32,h64,hb⟩ | hd)
  · rw [getLsbD_of_aligned h (by omega)] at hb
    contradiction
  · exact hn hd

end Ports

namespace TaskSys
variable {T : Type} [DecidableEq T] {K : TaskStacks T} {env : Env} {s : TaskSys T}

/-- The segment that the processor uses after tss_init. -/
def taskRegister (K : TaskStacks T) (m : Mem) : Segment := ltr (tssInit K.tss m) selectorTss

/-- Which ports the code may use, in every state of a run: the segment has no bit map that tss_init
would have made, so that the processor takes the segment itself for it. A process can use the ports
of all devices of the kernel. -/
theorem reachable_ports (h : Reachable K env s) (m : Mem) :
    (∀ port, PortAllowed s.cpu.mem (taskRegister K m) s.cpu port ↔
      s.cpu.ring.toNat ≤ iopl s.cpu.eflags ∨
        (s.cpu.mem (K.tss+BitVec.ofNat 32 (port.toNat/8))).getLsbD (port.toNat%8) = false) ∧
    (∀ port, port.toNat < 8*108 → (PortAllowed s.cpu.mem (taskRegister K m) s.cpu port ↔
      s.cpu.ring.toNat ≤ iopl s.cpu.eflags ∨
        ¬Denied (tssAt s.cpu.mem K.tss).esp0 port.toNat)) ∧
    ∀ port ∈ devicePorts, PortAllowed s.cpu.mem (taskRegister K m) s.cpu port := by
  obtain ⟨esp0,hm,hval,-⟩ := h.inv.tss
  have haligned : esp0.toNat%4096 = 0 := by
    obtain rfl | ⟨t,rfl⟩ := hval
    · rfl
    · have ha := K.aligned t
      bv_omega
  rw [taskRegister,ltr_tssInit,hm.tssAt]
  refine ⟨fun port => hm.portAllowed_iff,fun port hp => ?_,fun port hp => ?_⟩
  · rw [hm.portAllowed_iff,hm.bit_iff hp]
  · obtain ⟨hlt,hn⟩ := not_denied haligned hp
    rw [hm.portAllowed_iff,hm.bit_iff hlt]
    exact .inr hn

end TaskSys

/-- A process programs the interrupt controller. -/
theorem reachable_ports_user : ∃ (s : TaskSys Bool) (m : Mem),
    TaskSys.Reachable userStacks returnNever s ∧ s.cpu.Outer ∧ iopl s.cpu.eflags = 0 ∧
    PortAllowed s.cpu.mem (TaskSys.taskRegister userStacks m) s.cpu 0x21 := by
  obtain ⟨s,hr,ho,hi⟩ := exists_user
  exact ⟨s,fun _ => 0,hr,ho,hi,(TaskSys.reachable_ports hr fun _ => 0).2.2 0x21 (by decide)⟩

end OsKernel

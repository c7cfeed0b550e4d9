import OsKernel.Thread.Switch
import Mathlib.Logic.Relation

/-! Runs of threads on disjoint kernel stacks that switch among each other: a thread that
runs again finds what it left, and a new one starts in kernel_thread. -/
namespace OsKernel
open X86

/-- Where the tasks are, and the bytes each of them has for itself: its self_kstack and its
kernel stack. -/
structure KernelStacks (T : Type) where
  kernelThread : Word
  pcb : T → Word
  own : T → Word → Prop
  own_pcb : ∀ t x, Span (pcb t) 4 x → own t x
  disjoint : ∀ t u x, own t x → own u x → t = u

/-- What a thread that called switch_to has to find again, or starts with. -/
inductive Saved
  | suspended (esp ebp ebx esi edi eip : Word)
  | fresh (function funcArg : Word)

/-- The call of switch_to that is being made: the stack pointer before the call pushed
the return address, and the registers. -/
def snapshot (c : Cpu) : Saved :=
  .suspended (c.esp+4) (c.reg .ebp) (c.reg .ebx) (c.reg .esi) (c.reg .edi) c.top

/-- The processor goes on as saved: after the call, or at the start of kernel_thread with
two arguments above an unused return address. -/
def Saved.Resumed (kernelThread : Word) (c : Cpu) : Saved → Prop
  | .suspended esp ebp ebx esi edi eip => c.esp = esp ∧ c.reg .ebp = ebp ∧ c.reg .ebx = ebx ∧
      c.reg .esi = esi ∧ c.reg .edi = edi ∧ c.eip = eip
  | .fresh function funcArg => c.eip = kernelThread ∧ Holds c.mem (c.esp+4) [function,funcArg]

/-- The processor, the thread that executes, and what every other thread has saved. -/
structure SwitchSys (T : Type) where
  cpu : Cpu
  current : T
  saved : T → Option Saved

namespace SwitchSys

variable {T : Type} [DecidableEq T]

/-- What the threads have saved when the current one calls switch_to. -/
def savedAt (s : SwitchSys T) : T → Option Saved :=
  Function.update s.saved s.current (some (snapshot s.cpu))

/-- The current thread calls switch_to with its own task and another one, or its own again. -/
structure Calls (K : KernelStacks T) (s : SwitchSys T) (next : T) : Prop where
  args : ∃ retaddr, Holds s.cpu.mem s.cpu.esp [retaddr,K.pcb s.current,K.pcb next]
  ready : (s.savedAt next).isSome
  own : ∀ x, Span (s.cpu.esp-16) 28 x → K.own s.current x
  apart : ∀ x, Span (K.pcb s.current) 4 x → ¬Span (s.cpu.esp-16) 28 x

/-- The state after the call of switch_to. -/
def switched (env : Env) (s : SwitchSys T) (next : T) : SwitchSys T where
  cpu := run env switchTo s.cpu
  current := next
  saved := Function.update s.savedAt next none

inductive Step (K : KernelStacks T) (env : Env) : SwitchSys T → SwitchSys T → Prop
  /-- The current thread computes; the stacks of the other threads are not its own. -/
  | run (s : SwitchSys T) (c : Cpu)
      (h : ∀ t x, (s.saved t).isSome → K.own t x → c.mem x = s.cpu.mem x) :
      Step K env s {s with cpu := c}
  /-- The current thread prepares a task that does not exist yet. -/
  | create (s : SwitchSys T) (t : T) (function funcArg : Word) (hnew : s.saved t = none)
      (hcur : t ≠ s.current)
      (hown : ∀ x, Span (kthreadStackOf s.cpu.mem (K.pcb t)) 32 x → K.own t x)
      (hapart : ∀ x, Span (K.pcb t) 4 x → ¬Span (kthreadStackOf s.cpu.mem (K.pcb t)) 32 x) :
      Step K env s
        {s with
          cpu := {s.cpu with mem := threadCreate K.kernelThread (K.pcb t) function funcArg s.cpu.mem}
          saved := Function.update s.saved t (some (.fresh function funcArg))}
  | switch (s : SwitchSys T) (next : T) (h : s.Calls K next) : Step K env s (s.switched env next)

/-- One thread executes and no other exists. -/
def init (c : Cpu) (mainThread : T) : SwitchSys T := ⟨c,mainThread,fun _ => none⟩

def Reachable (K : KernelStacks T) (env : Env) (s : SwitchSys T) : Prop :=
  ∃ c mainThread, Relation.ReflTransGen (Step K env) (init c mainThread) s

/-- The words a thread has on its stack below the saved stack pointer. -/
def SavedOk (K : KernelStacks T) (m : Mem) (t : T) : Saved → Prop
  | .suspended esp ebp ebx esi edi eip =>
      load m (K.pcb t)+20 = esp ∧ Holds m (load m (K.pcb t)) [ebp,ebx,edi,esi,eip] ∧
        ∀ x, Span (load m (K.pcb t)) 20 x → K.own t x
  | .fresh function funcArg => ∃ retaddr,
      Holds m (load m (K.pcb t))
        (ThreadStack.words ⟨0,0,0,0,K.kernelThread,retaddr,function,funcArg⟩) ∧
        ∀ x, Span (load m (K.pcb t)) 32 x → K.own t x

structure Inv (K : KernelStacks T) (s : SwitchSys T) : Prop where
  current : s.saved s.current = none
  saved : ∀ t x, s.saved t = some x → SavedOk K s.cpu.mem t x

section Invariant

variable {K : KernelStacks T} {env : Env} {m m' : Mem} {t : T} {s s' : SwitchSys T}

omit [DecidableEq T] in
lemma SavedOk.congr {x : Saved} (h : SavedOk K m t x) (hm : ∀ a, K.own t a → m' a = m a) :
    SavedOk K m' t x := by
  have hp : load m' (K.pcb t) = load m (K.pcb t) :=
    load_congr fun a ha => hm a (K.own_pcb t a ha)
  cases x with
  | suspended =>
    obtain ⟨he,hw,ho⟩ := h
    refine ⟨hp ▸ he,?_,fun a ha => ho a (hp ▸ ha)⟩
    rw [hp]
    exact hw.congr (by simp) fun a ha => hm a (ho a ha)
  | fresh =>
    obtain ⟨r,hw,ho⟩ := h
    refine ⟨r,?_,fun a ha => ho a (hp ▸ ha)⟩
    rw [hp]
    exact hw.congr (by simp [ThreadStack.words]) fun a ha => hm a (ho a ha)

/-- After the stores of the call every thread is saved, the current one as it calls. Only bytes of
the current thread change. -/
theorem Inv.saves (h : Inv K s) {next : T} (hc : s.Calls K next) (env : Env) :
    ∃ k : Cpu, run env switchTo s.cpu =
        run env (switchPops++[.ret]) (k.setReg .esp (load k.mem (K.pcb next))) ∧
      (∀ t x, s.savedAt t = some x → SavedOk K k.mem t x) ∧
      load k.mem (K.pcb s.current) = s.cpu.esp-16 ∧
      ∀ x, ¬K.own s.current x → k.mem x = s.cpu.mem x := by
  obtain ⟨retaddr,hargs⟩ := hc.args
  obtain ⟨k,hrun,hsp,hstack,hframe⟩ := switchTo_saves env hargs hc.apart
  have hother : ∀ x, ¬K.own s.current x → k.mem x = s.cpu.mem x :=
    fun x hx => hframe x (fun hs => hx (hc.own x hs)) fun hs => hx (K.own_pcb _ x hs)
  refine ⟨k,hrun,fun t x hx => ?_,hsp,hother⟩
  by_cases ht : t = s.current
  · subst ht
    have hs : x = snapshot s.cpu := by simpa [savedAt] using hx.symm
    subst hs
    have htop : s.cpu.top = retaddr := hargs.1
    simp only [snapshot,SavedOk,hsp,htop]
    refine ⟨by bv_omega,?_,fun a ha => hc.own a (Nat.lt_trans ha (by decide))⟩
    have hp := hstack.take (k := 5)
    exact hp
  · have hx' : s.saved t = some x := by simpa [savedAt,ht] using hx
    exact (h.saved t x hx').congr fun a ha => hother a fun hs => ht (K.disjoint t _ a ha hs)

omit [DecidableEq T] in
/-- The second half of switch_to resumes what is saved. -/
theorem SavedOk.resumed {k : Cpu} {x : Saved} (h : SavedOk K k.mem t x) (env : Env) :
    let c := run env (switchPops++[.ret]) (k.setReg .esp (load k.mem (K.pcb t)))
    x.Resumed K.kernelThread c ∧ c.mem = k.mem ∧ c.esp = load k.mem (K.pcb t)+20 := by
  set k' := k.setReg .esp (load k.mem (K.pcb t)) with hk
  have hesp : k'.esp = load k.mem (K.pcb t) := by simp [hk,Cpu.esp,Cpu.setReg]
  rw [← hesp]
  cases x with
  | suspended esp ebp ebx esi edi eip =>
    obtain ⟨he,hw,-⟩ := h
    rw [← hesp] at hw he
    obtain ⟨hm,hsp,h1,h2,h3,h4,h5⟩ := switchPops_resumes env (k := k') hw
    exact ⟨⟨hsp.trans he,h1,h2,h3,h4,h5⟩,hm,hsp⟩
  | fresh function funcArg =>
    obtain ⟨r,hw,-⟩ := h
    rw [← hesp] at hw
    obtain ⟨hm,hsp,-,-,-,-,heip⟩ := switchPops_resumes env (k := k') (hw.take (k := 5))
    have hargs := hw.drop (k := 6) (by simp [ThreadStack.words])
    refine ⟨⟨heip,?_⟩,hm,hsp⟩
    rw [hm,hsp]
    have ha : k'.esp+20+4 = k'.esp+BitVec.ofNat 32 (4*6) := by bv_omega
    rw [ha]
    exact hargs

theorem Inv.step (h : Inv K s) (hs : Step K env s s') : Inv K s' := by
  cases hs with
  | run c hkeep =>
    refine ⟨h.current,fun t x hx => (h.saved t x hx).congr fun a ha => hkeep t a ?_ ha⟩
    have hx' : s.saved t = some x := hx
    simp [hx']
  | create t function funcArg hnew hcur hown hapart =>
    refine ⟨?_,fun u x hx => ?_⟩
    · simpa [hcur.symm] using h.current
    · by_cases hu : u = t
      · subst hu
        obtain rfl : .fresh function funcArg = x := by simpa using hx
        obtain ⟨r,hp,hw⟩ := threadCreate_holds K.kernelThread (K.pcb u) function funcArg hapart
        refine ⟨r,?_,fun a ha => hown a ?_⟩
        · simpa only [hp] using hw
        · simpa only [hp] using ha
      · have hx' : s.saved u = some x := by simpa [hu] using hx
        refine (h.saved u x hx').congr fun a ha => ?_
        apply threadCreate_frame
        · exact fun hs => hu (K.disjoint u t a ha (K.own_pcb t a hs))
        · exact fun hs => hu (K.disjoint u t a ha (hown a hs))
  | switch next hc =>
    obtain ⟨k,hrun,hsaved,-⟩ := h.saves hc env
    obtain ⟨x,hx⟩ := Option.isSome_iff_exists.mp hc.ready
    have hmem := ((hsaved next x hx).resumed env).2.1
    rw [← hrun] at hmem
    refine ⟨by simp [switched],fun t y hy => ?_⟩
    by_cases ht : t = next
    · simp [switched,ht] at hy
    · have hy' : s.savedAt t = some y := by simpa [switched,ht] using hy
      have hok := hsaved t y hy'
      simpa only [switched,hmem] using hok

theorem reachable_inv (h : Reachable K env s) : Inv K s := by
  obtain ⟨c,mainThread,h⟩ := h
  induction h with
  | refl => exact ⟨rfl,fun _ _ h => by simp [init] at h⟩
  | tail _ hs ih => exact ih.step hs

/-- A call of switch_to stores the stack pointer in the task, and takes that of the next one. -/
theorem Inv.switched (h : Inv K s) {next : T} (hc : s.Calls K next) (env : Env) :
    load (s.switched env next).cpu.mem (K.pcb s.current) = s.cpu.esp-16 ∧
    (∀ x, ¬K.own s.current x → (s.switched env next).cpu.mem x = s.cpu.mem x) ∧
    (s.switched env next).cpu.esp = load (s.switched env next).cpu.mem (K.pcb next)+20 := by
  obtain ⟨k,hrun,hsaved,hsp,hother⟩ := h.saves hc env
  obtain ⟨x,hx⟩ := Option.isSome_iff_exists.mp hc.ready
  obtain ⟨-,hmem,hesp⟩ := (hsaved next x hx).resumed env
  rw [← hrun] at hmem hesp
  have hmem' : (s.switched env next).cpu.mem = k.mem := hmem
  have hesp' : (s.switched env next).cpu.esp = load k.mem (K.pcb next)+20 := hesp
  rw [hmem',hesp']
  exact ⟨hsp,hother,rfl⟩

/-- Whatever the threads did before, a call of switch_to resumes the next one from the call
it made, this one included, or starts it in kernel_thread with its two arguments. -/
theorem reachable_switch_resumes (h : Reachable K env s) {next : T} (hc : s.Calls K next) :
    ∃ x, s.savedAt next = some x ∧ x.Resumed K.kernelThread (s.switched env next).cpu := by
  obtain ⟨k,hrun,hsaved,-⟩ := (reachable_inv h).saves hc env
  obtain ⟨x,hx⟩ := Option.isSome_iff_exists.mp hc.ready
  refine ⟨x,hx,?_⟩
  simp only [switched,hrun]
  exact ((hsaved next x hx).resumed env).1

end Invariant

end SwitchSys

lemma span_page {a x : Word} (h : Span a 4 x) : Span a 4096 x := Nat.lt_trans h (by decide)

lemma pcb_pages_disjoint (t u : Bool) (x : Word)
    (ht : Span (if t then 0xc0100000 else 0xc009e000) 4096 x)
    (hu : Span (if u then 0xc0100000 else 0xc009e000) 4096 x) : t = u := by
  cases t <;> cases u <;> simp only [Span] at ht hu <;>
    first | rfl | (simp only [if_true,Bool.false_eq_true,if_false] at ht hu; bv_omega)

/-- The main thread, and a page for a second one. -/
def twoStacks : KernelStacks Bool where
  kernelThread := 0xc0001a00
  pcb t := if t then 0xc0100000 else 0xc009e000
  own t x := Span (if t then 0xc0100000 else 0xc009e000) 4096 x
  own_pcb _ _ := span_page
  disjoint := pcb_pages_disjoint

/-- No function is called. -/
def returnNever : Env := ⟨fun _ c => c,0,fun eflags _ _ => eflags⟩

/-- The main thread before it calls switch_to; init_thread has set self_kstack of the other. -/
def mainCpu : Cpu where
  reg r := match r with
    | .esp => 0xc009ef00
    | _ => 7
  seg _ := 0x10
  eip := 0xc0001b00
  eflags := 0x2
  mem := store (store (store (store (fun _ => 0) 0xc0100000 0xc0101000) 0xc009ef00 0xc0001500)
    0xc009ef04 0xc009e000) 0xc009ef08 0xc0100000

def startedSys : SwitchSys Bool where
  cpu := {mainCpu with mem := threadCreate 0xc0001a00 0xc0100000 0xc0001c00 5 mainCpu.mem}
  current := false
  saved := Function.update (fun _ => none) true (some (.fresh 0xc0001c00 5))

lemma kthreadStackOf_mainCpu : kthreadStackOf mainCpu.mem 0xc0100000 = 0xc0100e50 := by
  decide +kernel

lemma startedSys_reachable : SwitchSys.Reachable twoStacks returnNever startedSys := by
  refine ⟨mainCpu,false,.single (.create (SwitchSys.init mainCpu false) true 0xc0001c00 5 rfl
    (by decide) (fun x hx => ?_) fun x hx => ?_)⟩
  · change Span (kthreadStackOf mainCpu.mem 0xc0100000) 32 x at hx
    rw [kthreadStackOf_mainCpu] at hx
    simp only [twoStacks,Span,if_true] at hx ⊢
    bv_omega
  · change ¬Span (kthreadStackOf mainCpu.mem 0xc0100000) 32 x
    rw [kthreadStackOf_mainCpu]
    simp only [twoStacks,Span,if_true] at hx ⊢
    bv_omega

lemma startedSys_calls : startedSys.Calls twoStacks true := by
  refine ⟨⟨0xc0001500,?_⟩,rfl,fun x hx => ?_,fun x hx => ?_⟩
  · decide +kernel
  · have he : startedSys.cpu.esp = 0xc009ef00 := rfl
    rw [he] at hx
    simp only [twoStacks,startedSys,Span] at hx ⊢
    simp only [Bool.false_eq_true,if_false]
    bv_omega
  · have he : startedSys.cpu.esp = 0xc009ef00 := rfl
    rw [he]
    simp only [twoStacks,startedSys,Span] at hx ⊢
    simp only [Bool.false_eq_true,if_false] at hx
    bv_omega

theorem reachable_switch_resumes_started :
    ∃ x, startedSys.savedAt true = some x ∧
      x.Resumed 0xc0001a00 (startedSys.switched returnNever true).cpu :=
  SwitchSys.reachable_switch_resumes startedSys_reachable startedSys_calls

end OsKernel

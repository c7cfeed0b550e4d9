import OsKernel.Thread.Preempt

/-! The frames on the kernel stacks: intr_exit brings back the code that was interrupted, and
starts a process, as long as the frame keeps its bytes. -/
namespace OsKernel
open X86

/-- The process at its first instruction. -/
def userStart (function esp : Word) (m : Mem) : Cpu where
  reg r := match r with
    | .esp => esp
    | _ => 0
  seg s := match s with
    | .cs => 0x2b
    | .gs => 0
    | _ => 0x33
  eip := function
  eflags := 0x202
  mem := m

section Frames
variable {m m' : Mem} {c k : Cpu} {p : Pending} {vec dummy err frame : Word}

lemma userStart_outer (function esp : Word) (m : Mem) : (userStart function esp m).Outer := by
  simp [Cpu.Outer,Cpu.ring,userStart]

lemma length_saved (s : IntrStack) : (s.saved c).length = if c.Outer then 19 else 17 := by
  by_cases h : c.Outer
  · simp [IntrStack.saved,IntrStack.words,h]
  · simp [IntrStack.saved,IntrStack.words,h]

/-- The code that was interrupted comes back from its frame. -/
lemma saved_returns (env : Env) (h : Holds k.mem k.esp ((intrStackOf c vec dummy err).saved c))
    (hk : KernelMode k) (hin : ¬c.Outer → KernelMode c ∧ k.esp+68 = c.esp) :
    run env intrExit k = { c with mem := k.mem } := by
  have ht := Tracks.start h 24
  have hbase : k.esp+BitVec.ofNat 32 (4*((intrStackOf c vec dummy err).saved c).length) =
      c.stackTop ⟨0,k.esp+76⟩ := by
    rw [length_saved,Cpu.stackTop]
    by_cases ho : c.Outer
    · rw [if_pos ho,if_pos ho]
      rfl
    · rw [if_neg ho,if_neg ho,← (hin ho).2]
      rfl
  rw [hbase] at ht
  have hr := intrExit_resumes (x := c.reg .eax) ht (by rw [hk.cs]; decide)
    (fun ho => by rw [hk.ss,(hin ho).1.ss]) (by omega) (by omega) env
  rw [hr,Function.update_eq_self]

lemma procStack_starts (env : Env) {vecNo errCode function esp : Word} (hk : KernelMode k)
    (h : Holds k.mem k.esp (procStack vecNo errCode function esp).words) :
    run env intrExit k = userStart function esp k.mem := by
  have ho := userStart_outer function esp k.mem
  have hs : (procStack vecNo errCode function esp).words =
      (intrStackOf (userStart function esp k.mem) vecNo 0 errCode).saved
        (userStart function esp k.mem) := by
    rw [IntrStack.saved,if_pos ho]
    rfl
  rw [hs] at h
  exact saved_returns env h hk fun hn => absurd ho hn

lemma syscallReturn_mem (env : Env) : (run env syscallReturn k).mem =
    store k.mem (k.esp+12+32) (k.reg .eax) := by
  simp [syscallReturn,run,exec,Cpu.addEsp,Cpu.esp]

/-- The caller of a system call comes back with the result. -/
lemma saved_sysReturns (env : Env)
    (h : Holds k.mem (k.esp+12) ((intrStackOf c vec dummy err).saved c))
    (hk : KernelMode k) (hin : ¬c.Outer → KernelMode c ∧ k.esp+12+68 = c.esp) :
    run env (syscallReturn++intrExit) k =
      { c with
        reg := Function.update c.reg .eax (k.reg .eax)
        mem := store k.mem (k.esp+12+32) (k.reg .eax) } := by
  obtain ⟨as,has,ha⟩ := exists_holds k.mem 3 k.esp
  obtain ⟨a₀,a₁,a₂,rfl⟩ := List.length_eq_three.mp has
  have ht := Tracks.start (ha.append h) 24
  have hlen := length_saved (c := c) (intrStackOf c vec dummy err)
  have hbase : k.esp+BitVec.ofNat 32
      (4*([a₀,a₁,a₂]++(intrStackOf c vec dummy err).saved c).length) =
      c.stackTop ⟨0,k.esp+12+76⟩ := by
    rw [List.length_append,hlen,Cpu.stackTop]
    by_cases ho : c.Outer
    · rw [if_pos ho,if_pos ho]
      simp only [List.length_cons,List.length_nil]
      bv_omega
    · rw [if_neg ho,if_neg ho,← (hin ho).2]
      simp only [List.length_cons,List.length_nil]
      bv_omega
  rw [hbase] at ht
  have hx := saved_intrStackOf c vec dummy err (c.reg .eax)
  change (intrStackOf c vec dummy err).saved c = _ at hx
  rw [hx] at ht
  have hp := ht.run env (syscallReturn_view _ _ c.savedWords _ a₀ a₁ a₂) (by
    have hw := c.length_savedWords
    simp [IntrStack.pushed,IntrStack.words,syscallReturn,Instr.words]
    omega) (by omega)
  rw [IntrStack.setEax_setEax,← saved_intrStackOf] at hp
  rw [run_append,intrExit_resumes hp (by rw [hk.cs]; decide)
    (fun ho => by rw [hk.ss,(hin ho).1.ss]) (by omega) (by omega) env,syscallReturn_mem]

end Frames

/-! The invariant. -/

/-- The frame of a thread is in its place, on the stack of the thread. -/
structure FrameOk {T : Type} (K : TaskStacks T) (m : Mem) (t : T) (p : Pending) : Prop where
  holds : ∃ vec dummy err, Holds m p.frame ((intrStackOf p.cpu vec dummy err).saved p.cpu)
  inner : ¬p.cpu.Outer → KernelMode p.cpu ∧ p.frame+68 = p.cpu.esp
  outer : p.cpu.Outer → K.isProc t
  own : ∀ x, p.Keeps x → K.own t x
  pcb : ∀ x, p.Keeps x → ¬Span (K.pcb t) 4 x

/-- Only the first interrupt of a thread comes from ring 3, and the frames are apart. -/
def Nested : List Pending → Prop
  | [] => True
  | p::ps => (p.cpu.Outer → ps = []) ∧ (∀ q ∈ ps, ∀ x, p.Keeps x → ¬q.Keeps x) ∧ Nested ps

section FrameOk
variable {T : Type} {K : TaskStacks T} {m m' : Mem} {t : T} {p : Pending} {k : Cpu}

lemma FrameOk.congr (h : FrameOk K m t p) (hm : ∀ x, p.Keeps x → m' x = m x) :
    FrameOk K m' t p := by
  obtain ⟨vec,dummy,err,hw⟩ := h.holds
  obtain ⟨ws,hws⟩ := saved_eq_cons p.cpu dummy err
  have hl : 4*ws.length = if p.cpu.Outer then 72 else 64 := by
    have hlen := length_saved (c := p.cpu) (intrStackOf p.cpu vec dummy err)
    rw [hws,List.length_cons] at hlen
    by_cases ho : p.cpu.Outer
    · rw [if_pos ho] at hlen ⊢
      omega
    · rw [if_neg ho] at hlen ⊢
      omega
  refine ⟨⟨load m' p.frame,dummy,err,?_⟩,h.inner,h.outer,h.own,h.pcb⟩
  rw [hws] at hw ⊢
  refine ⟨rfl,hw.2.congr ?_ fun x hx => hm x ?_⟩
  · rw [hl]
    split <;> omega
  · rw [hl] at hx
    exact hx

lemma FrameOk.returns (h : FrameOk K k.mem t p) (env : Env) (hk : KernelMode k)
    (hesp : k.esp = p.frame) : run env intrExit k = { p.cpu with mem := k.mem } := by
  obtain ⟨vec,dummy,err,hw⟩ := h.holds
  rw [← hesp] at hw
  exact saved_returns env hw hk fun ho => ⟨(h.inner ho).1,by rw [hesp]; exact (h.inner ho).2⟩

lemma FrameOk.sysReturns (h : FrameOk K k.mem t p) (env : Env) (hk : KernelMode k)
    (hesp : k.esp = p.frame-12) : run env (syscallReturn++intrExit) k =
      { p.cpu with
        reg := Function.update p.cpu.reg .eax (k.reg .eax)
        mem := store k.mem (p.frame+32) (k.reg .eax) } := by
  obtain ⟨vec,dummy,err,hw⟩ := h.holds
  have he : k.esp+12 = p.frame := by
    rw [hesp]
    bv_omega
  rw [← he] at hw ⊢
  exact saved_sysReturns env hw hk fun ho => ⟨(h.inner ho).1,by rw [he]; exact (h.inner ho).2⟩

end FrameOk
end OsKernel

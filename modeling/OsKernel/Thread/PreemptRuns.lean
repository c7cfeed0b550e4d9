import OsKernel.Thread.PreemptFrames

/-! In every run the frames that a thread has to go back to stay as they are, and the task state
segment belongs to the running process. -/
namespace OsKernel
open X86

lemma KernelMode.not_outer {c : Cpu} (h : KernelMode c) : ¬c.Outer := by
  rw [Cpu.Outer,Cpu.ring,h.cs]
  decide

namespace TaskSys
variable {T : Type} [DecidableEq T]

/-- What holds in every state of a run. -/
structure Inv (K : TaskStacks T) (s : TaskSys T) : Prop where
  switch : SwitchSys.Inv K.toKernelStacks s.toSwitchSys
  absent : ∀ t, t ≠ s.current → s.saved t = none → s.pending t = []
  frames : ∀ t, ∀ p ∈ s.pending t, FrameOk K s.cpu.mem t p
  nested : ∀ t, Nested (s.pending t)
  mode : KernelMode s.cpu ∨ s.cpu.Outer ∧ K.isProc s.current ∧ s.pending s.current = []
  tss : ∃ esp0, TssHolds s.cpu.mem K.tss esp0 ∧ (esp0 = 0 ∨ ∃ t, esp0 = K.pcb t+4096) ∧
    (K.isProc s.current → esp0 = K.pcb s.current+4096)

section Invariant
variable {K : TaskStacks T} {env : Env} {s s' : TaskSys T} {c : Cpu} {x : Word}

omit [DecidableEq T] in
/-- What the processor finds in the task state segment. -/
lemma Inv.tssAt_eq (h : Inv K s) : (tssAt s.cpu.mem K.tss).ss0 = 0x10 ∧
    (K.isProc s.current → (tssAt s.cpu.mem K.tss).esp0 = K.pcb s.current+4096) := by
  obtain ⟨esp0,hm,-,hcur⟩ := h.tss
  rw [hm.tssAt]
  exact ⟨rfl,hcur⟩

omit [DecidableEq T] in
/-- The stack of a process begins at the end of its page when the kernel is entered. -/
lemma Inv.stackTop (h : Inv K s) (ho : s.cpu.Outer) : K.isProc s.current ∧
    s.pending s.current = [] ∧ s.cpu.stackTop (tssAt s.cpu.mem K.tss) = K.pcb s.current+4096 := by
  rcases h.mode with hk | ⟨-,hproc,hp⟩
  · exact absurd ho hk.not_outer
  · rw [Cpu.stackTop,if_pos ho]
    exact ⟨hproc,hp,h.tssAt_eq.2 hproc⟩

omit [DecidableEq T] in
/-- There is room for an entry, which in ring 3 needs no assumption. -/
lemma Inv.room (h : Inv K s) (hroom : ¬s.cpu.Outer → Room K s)
    (hx : Span (s.cpu.stackTop (tssAt s.cpu.mem K.tss)-96) 96 x) :
    K.own s.current x ∧ ¬Span (K.pcb s.current) 4 x ∧
      ∀ p ∈ s.pending s.current, ¬p.Keeps x := by
  by_cases ho : s.cpu.Outer
  · obtain ⟨-,hp,htop⟩ := h.stackTop ho
    rw [htop] at hx
    refine ⟨K.top _ x hx,?_,by simp [hp]⟩
    simp only [Span] at hx ⊢
    bv_omega
  · rw [Cpu.stackTop,if_neg ho] at hx
    have hr := hroom ho
    exact ⟨hr.own x hx,hr.pcb x hx,fun p hp => hr.frames p hp x hx⟩

/-- The stacks of the other threads are left alone. -/
lemma Inv.switch_run (h : Inv K s) (env : Env)
    (hothers : ∀ t x, (s.saved t).isSome → K.own t x → c.mem x = s.cpu.mem x) :
    SwitchSys.Inv K.toKernelStacks { s.toSwitchSys with cpu := c } :=
  have hs : SwitchSys.Step K.toKernelStacks env s.toSwitchSys { s.toSwitchSys with cpu := c } :=
    .run _ c hothers
  h.switch.step hs

omit [DecidableEq T] in
/-- The frames of all threads stay if those of the current one and the stacks of the others do. -/
lemma Inv.frames_run (h : Inv K s) {m : Mem}
    (hothers : ∀ t x, (s.saved t).isSome → K.own t x → m x = s.cpu.mem x)
    (hframes : ∀ p ∈ s.pending s.current, ∀ x, p.Keeps x → m x = s.cpu.mem x) (t : T)
    (p : Pending) (hp : p ∈ s.pending t) : FrameOk K m t p := by
  have hok := h.frames t p hp
  apply hok.congr
  intro x hx
  by_cases ht : t = s.current
  · subst ht
    exact hframes p hp x hx
  · apply hothers t x _ (hok.own x hx)
    rw [Option.isSome_iff_ne_none]
    intro hnone
    rw [h.absent t ht hnone] at hp
    contradiction

omit [DecidableEq T] in
lemma Inv.kernelMode (h : Inv K s) (ho : ¬s.cpu.Outer) : KernelMode s.cpu :=
  h.mode.resolve_right fun hu => ho hu.1

omit [DecidableEq T] in
/-- The segments of the handler. -/
lemma Inv.entry_mode (h : Inv K s)
    (hseg : c.seg = s.cpu.handlerSeg (tssAt s.cpu.mem K.tss) selectorKCode) : KernelMode c := by
  refine ⟨by rw [hseg,Cpu.handlerSeg_cs],?_⟩
  by_cases ho : s.cpu.Outer
  · rw [hseg,Cpu.handlerSeg,if_pos ho]
    simpa using h.tssAt_eq.1
  · rw [hseg,Cpu.handlerSeg_ss ho]
    exact (h.kernelMode ho).ss

omit [DecidableEq T] in
/-- The frame that an entry leaves lies in the room for it. -/
lemma keeps_room {c₀ : Cpu} {b f : Word} {syscall : Bool}
    (hb : f+BitVec.ofNat 32 (4*(if c₀.Outer then 19 else 17)) = b)
    (hx : Pending.Keeps ⟨c₀,f,syscall⟩ x) : Span (b-96) 96 x := by
  unfold Pending.Keeps at hx
  by_cases ho : c₀.Outer
  · rw [if_pos ho] at hx hb
    simp only [Span] at hx ⊢
    bv_omega
  · rw [if_neg ho] at hx hb
    simp only [Span] at hx ⊢
    bv_omega

/-- An entry of the kernel leaves a frame for the code that it has interrupted. The words below
the frame are the arguments of a system call. -/
theorem Inv.entry (h : Inv K s) {reg : Reg → Word} {as : List Word} {vec dummy err f : Word}
    (syscall : Bool) (env : Env) (hroom : ¬s.cpu.Outer → Room K s)
    (ht : Tracks 24 (s.cpu.stackTop (tssAt s.cpu.mem K.tss)) s.cpu.mem c
      ⟨reg,s.cpu.handlerSeg (tssAt s.cpu.mem K.tss) selectorKCode,
        as++(intrStackOf s.cpu vec dummy err).saved s.cpu⟩)
    (hf : f = c.esp+BitVec.ofNat 32 (4*as.length)) : Inv K (s.interrupted c f syscall) := by
  set b := s.cpu.stackTop (tssAt s.cpu.mem K.tss) with hb
  have hesp : c.esp = reg .esp := congrFun ht.reg .esp
  have hfb : f+BitVec.ofNat 32 (4*(if s.cpu.Outer then 19 else 17)) = b := by
    rw [← ht.base,← length_saved (intrStackOf s.cpu vec dummy err),View.base,List.length_append,hf,
      hesp]
    bv_omega
  have hroom' : ∀ x, Span (b-96) 96 x → _ := fun x hx => h.room hroom hx
  have hmem : ∀ x, ¬Span (b-96) 96 x → c.mem x = s.cpu.mem x := ht.frame
  have hkeep : ∀ x, Pending.Keeps ⟨s.cpu,f,syscall⟩ x → Span (b-96) 96 x :=
    fun x hx => keeps_room hfb hx
  have hothers : ∀ t x, (s.saved t).isSome → K.own t x → c.mem x = s.cpu.mem x := by
    intro t x hsome hx
    apply hmem
    intro hs
    have ht := K.disjoint t _ x hx (hroom' x hs).1
    rw [ht,h.switch.current] at hsome
    contradiction
  have hframes := h.frames_run hothers fun p hp x hx => hmem x fun hs => (hroom' x hs).2.2 p hp hx
  have hnew : FrameOk K c.mem s.current ⟨s.cpu,f,syscall⟩ := by
    refine ⟨⟨vec,dummy,err,?_⟩,fun ho => ⟨h.kernelMode ho,?_⟩,fun ho => (h.stackTop ho).1,
      fun x hx => (hroom' x (hkeep x hx)).1,fun x hx => (hroom' x (hkeep x hx)).2.1⟩
    · have hw := ht.stack.drop (k := as.length) (by simp)
      rw [List.drop_left] at hw
      change Holds c.mem (reg .esp+BitVec.ofNat 32 (4*as.length)) _ at hw
      rw [← hesp,← hf] at hw
      exact hw
    · rw [if_neg ho,hb,Cpu.stackTop,if_neg ho] at hfb
      exact hfb
  refine ⟨h.switch_run env hothers,fun t ht hnone => ?_,fun t p hp => ?_,fun t => ?_,
    .inl (h.entry_mode ht.seg),?_⟩
  · rw [interrupted_pending_of_ne (show t ≠ s.current from ht)]
    exact h.absent t ht hnone
  · by_cases hc : t = s.current
    · subst hc
      rw [interrupted_pending_self] at hp
      rcases List.mem_cons.mp hp with rfl | hp
      · exact hnew
      · exact hframes _ p hp
    · rw [interrupted_pending_of_ne hc] at hp
      exact hframes t p hp
  · by_cases hc : t = s.current
    · subst hc
      rw [interrupted_pending_self]
      exact ⟨fun ho => (h.stackTop ho).2.1,
        fun q hq x hx => (hroom' x (hkeep x hx)).2.2 q hq,h.nested _⟩
    · rw [interrupted_pending_of_ne hc]
      exact h.nested t
  · obtain ⟨esp0,hm,hval,hcur⟩ := h.tss
    refine ⟨esp0,hm.congr fun x hx => hmem x fun hs => K.tssApart _ x (hroom' x hs).1 hx,hval,hcur⟩

/-- The current thread goes back to the code that it was interrupted in. -/
theorem Inv.exits (h : Inv K s) {p : Pending} {ps : List Pending} (env : Env)
    (hp : s.pending s.current = p::ps) (hseg : c.seg = p.cpu.seg)
    (hmem : ∀ x, ¬p.Keeps x → c.mem x = s.cpu.mem x) : Inv K (s.returned c ps) := by
  have hok := h.frames s.current p (by simp [hp])
  obtain ⟨hlast,hapart,hrest⟩ : Nested (p::ps) := hp ▸ h.nested s.current
  have hothers : ∀ t x, (s.saved t).isSome → K.own t x → c.mem x = s.cpu.mem x := by
    intro t x hsome hx
    apply hmem
    intro hs
    have ht := K.disjoint t _ x hx (hok.own x hs)
    rw [ht,h.switch.current] at hsome
    contradiction
  refine ⟨h.switch_run env hothers,fun t ht hnone => ?_,fun t q hq => ?_,fun t => ?_,?_,?_⟩
  · rw [returned_pending_of_ne (show t ≠ s.current from ht)]
    exact h.absent t ht hnone
  · by_cases hc : t = s.current
    · subst hc
      rw [returned_pending_self] at hq
      have hq' := h.frames s.current q (by simp [hp,hq])
      exact hq'.congr fun x hx => hmem x fun hs => hapart q hq x hs hx
    · rw [returned_pending_of_ne hc] at hq
      have hq' := h.frames t q hq
      refine hq'.congr fun x hx => hmem x fun hs => hc ?_
      exact K.disjoint t _ x (hq'.own x hx) (hok.own x hs)
  · by_cases hc : t = s.current
    · subst hc
      rw [returned_pending_self]
      exact hrest
    · rw [returned_pending_of_ne hc]
      exact h.nested t
  · by_cases ho : p.cpu.Outer
    · refine .inr ⟨?_,hok.outer ho,?_⟩
      · change c.seg .cs &&& 3 ≠ 0
        rw [hseg]
        exact ho
      · rw [show (s.returned c ps).current = s.current from rfl,returned_pending_self]
        exact hlast ho
    · have hk := (hok.inner ho).1
      refine .inl ⟨?_,?_⟩
      · change c.seg .cs = _
        rw [hseg]
        exact hk.cs
      · change c.seg .ss = _
        rw [hseg]
        exact hk.ss
  · obtain ⟨esp0,hm,hval,hcur⟩ := h.tss
    exact ⟨esp0,hm.congr fun x hx => hmem x fun hs => K.tssApart _ x (hok.own x hs) hx,hval,hcur⟩

omit [DecidableEq T] in
/-- The thread with something to go back to is in the kernel. -/
lemma Inv.kernelMode_of_pending (h : Inv K s) {p : Pending} {ps : List Pending}
    (hp : s.pending s.current = p::ps) : KernelMode s.cpu := by
  rcases h.mode with hk | ⟨-,-,hnil⟩
  · exact hk
  · rw [hp] at hnil
    contradiction

omit [DecidableEq T] in
/-- Whatever the threads did before, in whatever order. -/
theorem Inv.preemptible (h : Inv K s) (env : Env) : Preemptible K env s := by
  refine ⟨fun p ps hp _ hesp => ?_,fun p ps hp _ hesp => ?_,fun ho => h.stackTop ho⟩
  · have hok := h.frames s.current p (by simp [hp])
    exact hok.returns env (h.kernelMode_of_pending hp) hesp
  · have hok := h.frames s.current p (by simp [hp])
    exact hok.sysReturns env (h.kernelMode_of_pending hp) hesp

omit [DecidableEq T] in
/-- The result of a system call is stored in the frame. -/
lemma keeps_eax {p : Pending} {w : Word} (m : Mem) (hx : ¬p.Keeps x) :
    store m (p.frame+32) w x = m x := by
  apply store_of_not_span
  intro hs
  apply hx
  unfold Pending.Keeps
  simp only [Span] at hs ⊢
  split <;> bv_omega

/-- What a call of switch_to leaves as it is. -/
lemma switched_mem {N : KernelStacks T} {a : SwitchSys T} {next : T} (env : Env)
    (h : a.Calls N next) (hs : ¬Span (a.cpu.esp-16) 28 x) (hp : ¬Span (N.pcb a.current) 4 x) :
    (a.switched env next).cpu.mem x = a.cpu.mem x := by
  obtain ⟨retaddr,hargs⟩ := h.args
  obtain ⟨k,hrun,-,-,hframe⟩ := switchTo_saves env hargs h.apart
  have hmem : (a.switched env next).cpu.mem = k.mem := by
    rw [SwitchSys.switched,hrun]
    rfl
  rw [hmem]
  exact hframe x hs hp

omit [DecidableEq T] in
lemma processActivate_frame {next : T} {m : Mem} (hx : ¬Span K.tss 108 x) :
    processActivate K next m x = m x := by
  unfold processActivate
  split
  · apply store_of_not_span
    simp only [Span] at hx ⊢
    bv_omega
  · rfl

omit [DecidableEq T] in
lemma processActivate_holds {m : Mem} {esp0 : Word} (h : TssHolds m K.tss esp0) (next : T) :
    TssHolds (processActivate K next m) K.tss
      (if K.isProc next then K.pcb next+4096 else esp0) := by
  unfold processActivate
  split
  · exact h.update
  · exact h

/-- A change of threads. The state segment is set before, and only the stack of the current thread
is written. -/
theorem Inv.schedule (h : Inv K s) {next : T} (env : Env) (hk : KernelMode s.cpu)
    (hc : (s.activated K next).Calls K.toKernelStacks next)
    (hframes : ∀ p ∈ s.pending s.current, ∀ x, Span (s.cpu.esp-16) 28 x → ¬p.Keeps x) :
    Inv K ⟨(s.activated K next).switched env next,s.pending⟩ := by
  have hact : ∀ t x, K.own t x → (s.activated K next).cpu.mem x = s.cpu.mem x :=
    fun t x hx => processActivate_frame (K.tssApart t x hx)
  have hstep : SwitchSys.Step K.toKernelStacks env (s.activated K next)
      ((s.activated K next).switched env next) := .switch _ next hc
  have hsw := (h.switch_run env fun t x _ hx => hact t x hx).step hstep
  have hmem : ∀ t x, t ≠ s.current → K.own t x →
      ((s.activated K next).switched env next).cpu.mem x = s.cpu.mem x := by
    intro t x ht hx
    have hn : ∀ y, K.own s.current y → x ≠ y := by
      rintro y hy rfl
      exact ht (K.disjoint t _ x hx hy)
    rw [switched_mem env hc (fun hs => hn x (hc.own x hs) rfl)
      (fun hs => hn x (K.own_pcb _ x hs) rfl)]
    exact hact t x hx
  refine ⟨hsw,fun t ht hnone => ?_,fun t p hp => ?_,h.nested,.inl ⟨hk.cs,hk.ss⟩,?_⟩
  · have hnone' : Function.update (s.activated K next).savedAt next none t = none := hnone
    rw [Function.update_of_ne (show t ≠ next from ht),SwitchSys.savedAt] at hnone'
    have hcur : t ≠ s.current := by
      rintro rfl
      rw [show (s.activated K next).current = s.current from rfl,Function.update_self] at hnone'
      contradiction
    rw [show (s.activated K next).current = s.current from rfl,
      Function.update_of_ne hcur] at hnone'
    exact h.absent t hcur hnone'
  · have hok := h.frames t p hp
    apply hok.congr
    intro x hx
    by_cases ht : t = s.current
    · subst ht
      rw [switched_mem env hc (fun hs => hframes p hp x hs hx) (hok.pcb x hx)]
      exact hact _ x (hok.own x hx)
    · exact hmem t x ht (hok.own x hx)
  · obtain ⟨esp0,hm,hval,hcur⟩ := h.tss
    refine ⟨_,(processActivate_holds hm next).congr fun x hx => ?_,?_,fun hproc => ?_⟩
    · exact switched_mem env hc (fun hs => K.tssApart _ x (hc.own x hs) hx)
        fun hs => K.tssApart _ x (K.own_pcb _ x hs) hx
    · split
      · exact .inr ⟨next,rfl⟩
      · exact hval
    · exact if_pos hproc

/-- A new thread has nothing to go back to. -/
theorem Inv.create (h : Inv K s) {t : T} {function funcArg : Word} (env : Env)
    (hk : KernelMode s.cpu) (hnew : s.saved t = none) (hcur : t ≠ s.current)
    (hown : ∀ x, Span (kthreadStackOf s.cpu.mem (K.pcb t)) 32 x → K.own t x)
    (hapart : ∀ x, Span (K.pcb t) 4 x → ¬Span (kthreadStackOf s.cpu.mem (K.pcb t)) 32 x) :
    Inv K { s with
      cpu := { s.cpu with mem := threadCreate K.kernelThread (K.pcb t) function funcArg s.cpu.mem }
      saved := Function.update s.saved t (some (.fresh function funcArg)) } := by
  have hmem : ∀ x, ¬K.own t x →
      threadCreate K.kernelThread (K.pcb t) function funcArg s.cpu.mem x = s.cpu.mem x :=
    fun x hx => threadCreate_frame _ _ _ _ (fun hs => hx (K.own_pcb t x hs))
      fun hs => hx (hown x hs)
  have hstep := @SwitchSys.Step.create T _ K.toKernelStacks env s.toSwitchSys t function funcArg
    hnew hcur hown hapart
  refine ⟨h.switch.step hstep,fun u hu hnone => ?_,fun u p hp => ?_,h.nested,?_,?_⟩
  · have hnone' : Function.update s.saved t (some (.fresh function funcArg)) u = none := hnone
    by_cases hut : u = t
    · rw [hut,Function.update_self] at hnone'
      contradiction
    · rw [Function.update_of_ne hut] at hnone'
      exact h.absent u hu hnone'
  · have hok := h.frames u p hp
    refine hok.congr fun x hx => hmem x fun hs => ?_
    obtain rfl := K.disjoint u t x (hok.own x hx) hs
    have hp' : p ∈ s.pending u := hp
    rw [h.absent u hcur hnew] at hp'
    contradiction
  · exact .inl ⟨hk.cs,hk.ss⟩
  · obtain ⟨esp0,hm,hval,hcur'⟩ := h.tss
    exact ⟨esp0,hm.congr fun x hx => hmem x fun hs => K.tssApart t x hs hx,hval,hcur'⟩

/-- A process starts in ring 3 with nothing to go back to. -/
theorem Inv.starts (h : Inv K s) {vecNo errCode function esp : Word} (env : Env)
    (hk : KernelMode s.cpu) (hproc : K.isProc s.current) (hp : s.pending s.current = [])
    (hframe : Holds s.cpu.mem s.cpu.esp (procStack vecNo errCode function esp).words) :
    Inv K { s with cpu := run env intrExit s.cpu } := by
  rw [procStack_starts env hk hframe]
  exact ⟨h.switch_run env fun t x _ _ => rfl,h.absent,h.frames,h.nested,
    .inr ⟨userStart_outer _ _ _,hproc,hp⟩,h.tss⟩

theorem Step.inv (hs : Step K env s s') (h : Inv K s) : Inv K s' := by
  cases hs with
  | compute c hcs hss hothers hframes htss =>
    refine ⟨h.switch_run env hothers,h.absent,fun t p hp => h.frames_run hothers hframes t p hp,
      h.nested,?_,?_⟩
    · rcases h.mode with hk | ⟨ho,hu⟩
      · exact .inl ⟨hcs.trans hk.cs,hss.trans hk.ss⟩
      · refine .inr ⟨?_,hu⟩
        change c.seg .cs &&& 3 ≠ 0
        rw [hcs]
        exact ho
    · obtain ⟨esp0,hm,hval,hcur⟩ := h.tss
      exact ⟨esp0,hm.congr htss,hval,hcur⟩
  | interrupt off n kind err hv herr hroom =>
    obtain ⟨reg,dummy,ht⟩ := intrEntryPushes_tracks env (tssAt s.cpu.mem K.tss) selectorKCode off
      s.cpu n kind err herr
    exact h.entry false env hroom (show Tracks _ _ _ _ ⟨_,_,[]++_⟩ from ht) (by simp [intrCpu])
  | syscall off hroom =>
    obtain ⟨reg,dummy,-,ht⟩ := syscallPushes_tracks env (tssAt s.cpu.mem K.tss) selectorKCode off
      s.cpu
    exact h.entry true env hroom ht (by simp [sysCpu])
  | intrExit p ps hp hsys hesp =>
    have hret := (h.preemptible env).returns p ps hp hsys hesp
    exact h.exits env hp (by rw [hret]) fun x _ => by rw [hret]
  | syscallExit p ps hp hsys hesp =>
    have hret := (h.preemptible env).sysReturns p ps hp hsys hesp
    refine h.exits env hp (by rw [hret]) fun x hx => ?_
    rw [hret]
    exact keeps_eax s.cpu.mem hx
  | create t function funcArg hk hnew hcur hown hapart =>
    exact h.create env hk hnew hcur hown hapart
  | schedule next hk hc hframes => exact h.schedule env hk hc hframes
  | startProcess vecNo errCode function esp hk hproc hp hframe =>
    exact h.starts env hk hproc hp hframe

theorem Reachable.inv (h : Reachable K env s) : Inv K s := by
  obtain ⟨c,mainThread,hk,hmain,h⟩ := h
  induction h with
  | refl =>
    refine ⟨⟨rfl,fun _ _ h => by simp [init] at h⟩,fun _ _ _ => rfl,
      fun _ _ h => by simp [init] at h,fun _ => trivial,.inl ⟨hk.cs,hk.ss⟩,0,tssInit_holds K.gdtApart,.inl rfl,fun hproc => ?_⟩
    change K.isProc mainThread = true at hproc
    rw [hmain] at hproc
    contradiction
  | tail _ hs ih => exact hs.inv ih

/-- Threads are preempted, make system calls and switch in any order. Each of them goes back to
exactly the code that it was interrupted in, and ring 3 belongs to processes, which enter the kernel
at the end of their own page. -/
theorem reachable_preemptible (h : Reachable K env s) : Preemptible K env s := h.inv.preemptible env

end Invariant
end TaskSys

/-! A process next to the main thread. -/

lemma userStart_iopl (function esp : Word) (m : Mem) :
    iopl (userStart function esp m).eflags = 0 := by
  have h : iopl 0x202 = 0 := by decide
  exact h

lemma exists_words (m : Mem) (e : Word) (ws : List Word) (hl : 4*ws.length ≤ 2^32) :
    ∃ m', Holds m' e ws ∧ ∀ x, ¬Span e (4*ws.length) x → m' x = m x := by
  induction ws generalizing e with
  | nil => exact ⟨m,trivial,fun _ _ => rfl⟩
  | cons w ws ih =>
    rw [List.length_cons] at hl
    obtain ⟨m',hw,hm⟩ := ih (e+4) (by omega)
    have he : e+4-4 = e := by bv_omega
    have hp := hw.push w (by omega)
    rw [he] at hp
    refine ⟨_,hp,fun x hx => ?_⟩
    rw [store_of_not_span,hm]
    · simp only [Span,List.length_cons] at hx ⊢
      bv_omega
    · simp only [Span,List.length_cons] at hx ⊢
      omega

lemma twoStacks_aligned (t : Bool) : (twoStacks.pcb t).toNat%4096 = 0 := by cases t <;> rfl

lemma twoStacks_top (t : Bool) (x : Word) (hx : Span (twoStacks.pcb t+4096-96) 96 x) :
    twoStacks.own t x := by
  cases t <;> simp only [twoStacks,Span] at hx ⊢ <;>
    simp only [if_true,Bool.false_eq_true,if_false] at hx ⊢ <;> bv_omega

lemma twoStacks_tssApart (t : Bool) (x : Word) (hx : twoStacks.own t x) :
    ¬Span 0xc0010800 108 x := by
  cases t <;> simp only [twoStacks,Span] at hx ⊢ <;>
    simp only [if_true,Bool.false_eq_true,if_false] at hx ⊢ <;> bv_omega

lemma userTss_gdtApart (x : Word) (hx : Span 0xc0010800 108 x) : ¬Span 0xc0000920 24 x := by
  simp only [Span] at hx ⊢
  bv_omega

/-- The second thread of the two is a process. -/
def userStacks : TaskStacks Bool where
  toKernelStacks := twoStacks
  tss := 0xc0010800
  isProc t := t
  aligned := twoStacks_aligned
  top := twoStacks_top
  tssApart := twoStacks_tssApart
  gdtApart := userTss_gdtApart

/-- The main thread, which is about to call switch_to. -/
def bootCpu : Cpu := { mainCpu with seg := fun s => if s = .cs then 8 else 0x10 }

lemma bootCpu_kernelMode : KernelMode bootCpu := ⟨rfl,rfl⟩

open TaskSys in
/-- The process has been created. -/
def createdSys : TaskSys Bool :=
  { init userStacks bootCpu false with
    cpu := { (init userStacks bootCpu false).cpu with
      mem := threadCreate 0xc0001a00 0xc0100000 0xc0001c00 5 (tssInit 0xc0010800 bootCpu.mem) }
    saved := Function.update (fun _ => none) true (some (.fresh 0xc0001c00 5)) }

lemma createdSys_step :
    TaskSys.Step userStacks returnNever (TaskSys.init userStacks bootCpu false) createdSys := by
  have hk : kthreadStackOf (tssInit 0xc0010800 bootCpu.mem) 0xc0100000 = 0xc0100e50 := by
    decide +kernel
  refine .create _ true 0xc0001c00 5 ⟨rfl,rfl⟩ rfl (by decide) (fun x hx => ?_) fun x hx => ?_
  · change Span (kthreadStackOf (tssInit 0xc0010800 bootCpu.mem) 0xc0100000) 32 x at hx
    rw [hk] at hx
    simp only [userStacks,twoStacks,Span,if_true] at hx ⊢
    bv_omega
  · change ¬Span (kthreadStackOf (tssInit 0xc0010800 bootCpu.mem) 0xc0100000) 32 x
    rw [hk]
    simp only [userStacks,twoStacks,Span,if_true] at hx ⊢
    bv_omega

lemma createdSys_calls :
    (createdSys.activated userStacks true).Calls userStacks.toKernelStacks true := by
  refine ⟨⟨0xc0001500,?_⟩,rfl,fun x hx => ?_,fun x hx => ?_⟩
  · decide +kernel
  · have he : (createdSys.activated userStacks true).cpu.esp = 0xc009ef00 := rfl
    rw [he] at hx
    change Span 0xc009e000 4096 x
    simp only [Span] at hx ⊢
    bv_omega
  · have he : (createdSys.activated userStacks true).cpu.esp = 0xc009ef00 := rfl
    rw [he]
    change Span 0xc009e000 4 x at hx
    simp only [Span] at hx ⊢
    bv_omega

open TaskSys in
/-- The process has been switched to. -/
lemma exists_switched : ∃ s : TaskSys Bool, Reachable userStacks returnNever s ∧
    s.current = true ∧ s.saved true = none ∧ s.pending = (fun _ => []) ∧ KernelMode s.cpu := by
  have hk : KernelMode createdSys.cpu := ⟨bootCpu_kernelMode.cs,bootCpu_kernelMode.ss⟩
  have h : Step userStacks returnNever createdSys
      ⟨(createdSys.activated userStacks true).switched returnNever true,createdSys.pending⟩ :=
    .schedule createdSys true hk createdSys_calls fun p hp => absurd hp List.not_mem_nil
  exact ⟨_,⟨bootCpu,false,bootCpu_kernelMode,rfl,
    (Relation.ReflTransGen.single createdSys_step).tail h⟩,rfl,rfl,rfl,hk.cs,hk.ss⟩

open TaskSys in
lemma exists_user : ∃ s : TaskSys Bool, Reachable userStacks returnNever s ∧ s.cpu.Outer ∧
    iopl s.cpu.eflags = 0 := by
  obtain ⟨s,⟨c,mainThread,hc,hmain,hr⟩,hcur,hsaved,hpending,hk⟩ := exists_switched
  obtain ⟨m,hw,hm⟩ := exists_words s.cpu.mem 0xc0100f00
    (procStack 0 0 0x8048000 0xc0000000).words (by simp [IntrStack.words])
  have hm' : ∀ x, ¬Span 0xc0100f00 76 x → m x = s.cpu.mem x := hm
  have h1 := hr.tail (Step.compute s
    { s.cpu with reg := Function.update s.cpu.reg .esp 0xc0100f00, mem := m } rfl rfl
    (fun t x ht hx => by
      cases t with
      | true => simp [hsaved] at ht
      | false =>
        apply hm'
        change Span 0xc009e000 4096 x at hx
        simp only [Span] at hx ⊢
        bv_omega)
    (fun p hp => by simp [hpending] at hp)
    (fun x hx => by
      apply hm'
      change Span 0xc0010800 108 x at hx
      simp only [Span] at hx ⊢
      bv_omega))
  have hk' : KernelMode { s.cpu with reg := Function.update s.cpu.reg .esp 0xc0100f00, mem := m } :=
    ⟨hk.cs,hk.ss⟩
  have he := procStack_starts returnNever hk' hw
  refine ⟨_,⟨c,mainThread,hc,hmain,h1.tail (Step.startProcess _ 0 0 0x8048000 0xc0000000 hk' hcur
    (by simp [hpending]) hw)⟩,?_,?_⟩
  · change Cpu.Outer (run _ _ _)
    rw [he]
    exact userStart_outer _ _ _
  · change iopl (run _ _ _).eflags = 0
    rw [he]
    exact userStart_iopl _ _ _

open TaskSys in
/-- A process that has been interrupted. -/
lemma exists_interrupted : ∃ (s : TaskSys Bool) (p : Pending), Reachable userStacks returnNever s ∧
    s.pending s.current = [p] ∧ p.cpu.Outer ∧ p.syscall = false ∧ s.cpu.esp = p.frame := by
  obtain ⟨s,hr,ho,-⟩ := exists_user
  have hp := (hr.inv.stackTop ho).2.1
  obtain ⟨c,mainThread,hk,hmain,hrun⟩ := hr
  have hs := hrun.tail (Step.interrupt s 0xc0002000 0x20 .zero none (by decide) (by decide)
    fun hn => absurd ho hn)
  generalize intrCpu userStacks returnNever 0xc0002000 0x20 .zero none s.cpu = k at hs
  have hn : (s.interrupted k k.esp false).pending s.current = [⟨s.cpu,k.esp,false⟩] := by
    rw [interrupted_pending_self,hp]
  exact ⟨_,⟨s.cpu,k.esp,false⟩,⟨c,mainThread,hk,hmain,hs⟩,hn,ho,rfl,rfl⟩

open TaskSys in
theorem reachable_preemptible_user : ∃ (s : TaskSys Bool) (p : Pending),
    Reachable userStacks returnNever s ∧ s.pending s.current = [p] ∧ p.cpu.Outer ∧
    run returnNever intrExit s.cpu = { p.cpu with mem := s.cpu.mem } := by
  obtain ⟨s,p,hr,hp,ho,hsys,hesp⟩ := exists_interrupted
  exact ⟨s,p,hr,hp,ho,(reachable_preemptible hr).returns p [] hp hsys hesp⟩

end OsKernel

import OsKernel.Thread.StartProcess
import OsKernel.Interrupt.Resume
import OsKernel.Library.X86Narrow

/-! Where start_process finds its frame. A preemption leaves the stack pointer in self_kstack, and
the frame is out of place exactly when the thread reads the field after that. -/
namespace OsKernel
open X86

namespace ProcStart
variable {T : Type} [DecidableEq T] {K : KernelStacks T} {g : TimerGate} {t : T}
  {s s' : ProcStart T} {w base : Word} {ph : StartPhase}

/-- A preemption has left its stack pointer where the thread reads the field next. -/
def Early (phases : List StartPhase) : Prop := ∃ ph ∈ phases, ph.Reads

/-- The value that thread_create has meant, or less after such a preemption. -/
def Shows (phases : List StartPhase) (base w : Word) : Prop :=
  ¬ Early phases ∧ w = base ∨ Early phases ∧ w.toNat+8 ≤ base.toNat

lemma early_cons {phases : List StartPhase} : Early (ph::phases) ↔ ph.Reads ∨ Early phases := by
  simp [Early]

lemma Shows.cons {phases : List StartPhase} (h : Shows phases base w) (hn : ¬ ph.Reads) :
    Shows (ph::phases) base w := by
  unfold Shows at h ⊢
  rw [early_cons,or_iff_right hn]
  exact h

lemma shows_cons {phases : List StartPhase} (hr : ph.Reads) (hw : w.toNat+8 ≤ base.toNat) :
    Shows (ph::phases) base w :=
  .inr ⟨early_cons.mpr (.inl hr),hw⟩

lemma Shows.add {phases : List StartPhase} (h : Shows phases base w)
    (hb : base.toNat+128 < 2^32) :
    Shows phases (base+4*sizeofThreadStack) (w+4*sizeofThreadStack) := by
  obtain ⟨hn,rfl⟩ | ⟨he,hw⟩ := h
  · exact .inl ⟨hn,rfl⟩
  · refine .inr ⟨he,?_⟩
    simp only [sizeofThreadStack]
    bv_omega

/-- The field, and the values that have been read from it. -/
def Field (K : KernelStacks T) (t : T) (s : ProcStart T) : Prop :=
  match s.phase with
  | .started => Shows s.preempted (threadStackStart (K.pcb t)) (load s.sys.cpu.mem (K.pcb t))
  | .read kstack => Shows s.preempted (threadStackStart (K.pcb t)) kstack
  | .written => Shows s.preempted (reservedStart (K.pcb t)) (load s.sys.cpu.mem (K.pcb t))
  | .computed procStack => Shows s.preempted (reservedStart (K.pcb t)) procStack

/-- The thread runs on its stack, or it has left a stack pointer in the field. -/
structure Inv (K : KernelStacks T) (t : T) (s : ProcStart T) : Prop where
  page : (K.pcb t).toNat+4096 ≤ 2^32
  sys : SwitchSys.Inv K s.sys
  here : s.sys.current = t → InStack K t s.sys.cpu.esp
  away : s.sys.current ≠ t → (s.sys.saved t).isSome ∧
    (K.pcb t).toNat ≤ (load s.sys.cpu.mem (K.pcb t)).toNat ∧
    (load s.sys.cpu.mem (K.pcb t)).toNat ≤ (threadStackStart (K.pcb t)).toNat
  field : Field K t s

omit [DecidableEq T] in
lemma Field.congr (h : Field K t s) {sys : SwitchSys T}
    (hm : load sys.cpu.mem (K.pcb t) = load s.sys.cpu.mem (K.pcb t)) :
    Field K t { s with sys := sys } := by
  unfold Field at h ⊢
  cases hp : s.phase with
  | started =>
    rw [hp] at h
    dsimp only at h ⊢
    rwa [hm]
  | read kstack =>
    rw [hp] at h
    exact h
  | written =>
    rw [hp] at h
    dsimp only at h ⊢
    rwa [hm]
  | computed procStack =>
    rw [hp] at h
    exact h

omit [DecidableEq T] in
/-- The bytes of the saved threads stay as they are when the thread writes its own field. -/
lemma own_ne (hcur : s.sys.current = t) (hinv : SwitchSys.Inv K s.sys) {u : T} {x : Word}
    (hu : (s.sys.saved u).isSome) (hx : K.own u x) : ¬ Span (K.pcb t) 4 x := by
  intro hs
  obtain rfl := K.disjoint u t x hx (K.own_pcb t x hs)
  rw [← hcur,hinv.current] at hu
  cases hu

omit [DecidableEq T] in
lemma load_own {m m' : Mem} (h : ∀ x, K.own t x → m' x = m x) :
    load m' (K.pcb t) = load m (K.pcb t) :=
  load_congr fun x hx => h x (K.own_pcb t x hx)

lemma saved_switched {s : SwitchSys T} {env : Env} {next : T} (hne : t ≠ next)
    (h : (s.savedAt t).isSome) : ((s.switched env next).saved t).isSome := by
  change (Function.update s.savedAt next none t).isSome
  rwa [Function.update_of_ne hne]

/-- The other threads leave the page of this one alone. -/
theorem Inv.others (h : Inv K t s) {sys : SwitchSys T} (hcur : s.sys.current ≠ t)
    (hs : SwitchSys.Step K g.env s.sys sys) : Inv K t { s with sys := sys } := by
  obtain ⟨hsome,hlow,hhigh⟩ := h.away hcur
  have hsys := h.sys.step hs
  cases hs with
  | run c hkeep =>
    have hload : load c.mem (K.pcb t) = load s.sys.cpu.mem (K.pcb t) :=
      load_own fun x hx => hkeep t x hsome hx
    refine ⟨h.page,hsys,fun hc => absurd hc hcur,fun _ => ⟨hsome,?_⟩,h.field.congr hload⟩
    change _ ≤ (load c.mem (K.pcb t)).toNat ∧ (load c.mem (K.pcb t)).toNat ≤ _
    rw [hload]
    exact ⟨hlow,hhigh⟩
  | create u function funcArg hnew hu hown hapart =>
    have hne : t ≠ u := by
      rintro rfl
      rw [hnew] at hsome
      cases hsome
    have hload : load (threadCreate K.kernelThread (K.pcb u) function funcArg s.sys.cpu.mem)
        (K.pcb t) = load s.sys.cpu.mem (K.pcb t) := by
      refine load_own fun x hx => threadCreate_frame _ _ _ _ (fun hs => ?_) fun hs => ?_
      · exact hne (K.disjoint t u x hx (K.own_pcb u x hs))
      · exact hne (K.disjoint t u x hx (hown x hs))
    refine ⟨h.page,hsys,fun hc => absurd hc hcur,fun _ => ⟨?_,?_⟩,h.field.congr hload⟩
    · change (Function.update s.sys.saved u _ t).isSome
      rwa [Function.update_of_ne hne]
    · change _ ≤ (load (threadCreate _ _ _ _ _) _).toNat ∧ (load (threadCreate _ _ _ _ _) _).toNat ≤ _
      rw [hload]
      exact ⟨hlow,hhigh⟩
  | switch next hc =>
    obtain ⟨-,hmem,hesp⟩ := h.sys.switched hc g.env
    have hload : load (s.sys.switched g.env next).cpu.mem (K.pcb t) =
        load s.sys.cpu.mem (K.pcb t) :=
      load_own fun x hx => hmem x fun hx' => hcur (K.disjoint _ t x hx' hx)
    have hpage := h.page
    have hk := (threadStackStart_toNat hpage).1
    refine ⟨h.page,hsys,?_,?_,h.field.congr hload⟩
    · intro he
      obtain rfl : next = t := he
      change InStack K next (s.sys.switched g.env next).cpu.esp
      rw [hesp,hload]
      constructor
      · bv_omega
      · bv_omega
    · intro hne
      have hsaved : (s.sys.savedAt t).isSome := by
        rw [SwitchSys.savedAt,Function.update_of_ne hcur.symm]
        exact hsome
      have hsome' : ((s.sys.switched g.env next).saved t).isSome :=
        saved_switched (fun he => hne he.symm) hsaved
      refine ⟨hsome',?_⟩
      change _ ≤ (load (s.sys.switched g.env next).cpu.mem _).toNat ∧
        (load (s.sys.switched g.env next).cpu.mem _).toNat ≤ _
      rw [hload]
      exact ⟨hlow,hhigh⟩

/-- The stack pointer that a preemption stores. -/
lemma Preempts.stored {next : T} {c : Cpu} {frames : ℕ}
    (h : Preempts K g s.sys next c frames) : (c.esp-16).toNat+104+frames = s.sys.cpu.esp.toNat := by
  have hroom := h.room
  have hlt := s.sys.cpu.esp.isLt
  rw [h.esp,g.entry_esp h.kernel]
  bv_omega

/-- A preemption leaves its stack pointer in the field. -/
theorem Inv.preempt (h : Inv K t s) {next : T} {c : Cpu} {frames : ℕ} (hcur : s.sys.current = t)
    (hp : Preempts K g s.sys next c frames) :
    Inv K t { s with
      sys := SwitchSys.switched g.env { s.sys with cpu := c } next
      preempted := s.phase::s.preempted } := by
  have hesp := h.here hcur
  have hstored := hp.stored
  have hroom := hp.room
  rw [hcur] at hroom
  obtain ⟨hk,hr⟩ := threadStackStart_toNat h.page
  have hcall := h.sys.step (show SwitchSys.Step K g.env _ _ from .run s.sys c hp.keeps)
  obtain ⟨hsp,-,hnext⟩ := hcall.switched hp.calls g.env
  have hload : load (SwitchSys.switched g.env { s.sys with cpu := c } next).cpu.mem (K.pcb t) =
      c.esp-16 := hcur ▸ hsp
  have htop := hesp.2
  rw [hk] at htop
  refine ⟨h.page,hcall.step (.switch _ next hp.calls),?_,?_,?_⟩
  · intro he
    obtain rfl : next = t := he
    change InStack K next (SwitchSys.switched g.env { s.sys with cpu := c } next).cpu.esp
    rw [hnext,hload]
    constructor
    · bv_omega
    · bv_omega
  · intro hne
    have hsaved : (SwitchSys.savedAt { s.sys with cpu := c } t).isSome := by
      rw [SwitchSys.savedAt,← hcur,Function.update_self]
      rfl
    have hsome' : ((SwitchSys.switched g.env { s.sys with cpu := c } next).saved t).isSome :=
      saved_switched (fun he => hne he.symm) hsaved
    refine ⟨hsome',?_⟩
    change _ ≤ (load (SwitchSys.switched g.env { s.sys with cpu := c } next).cpu.mem _).toNat ∧
      (load (SwitchSys.switched g.env { s.sys with cpu := c } next).cpu.mem _).toNat ≤ _
    rw [hload,hk]
    omega
  · have hf := h.field
    unfold Field at hf ⊢
    dsimp only
    cases hph : s.phase with
    | started =>
      rw [hph] at hf
      refine shows_cons trivial ?_
      rw [hload,hk]
      omega
    | read kstack =>
      rw [hph] at hf
      exact hf.cons id
    | written =>
      rw [hph] at hf
      refine shows_cons trivial ?_
      rw [hload,hr]
      omega
    | computed procStack =>
      rw [hph] at hf
      exact hf.cons id

/-- The write of the statement that adds the size of the thread stack. -/
theorem Inv.write (h : Inv K t s) {kstack : Word} (hcur : s.sys.current = t)
    (hp : s.phase = .read kstack) : Inv K t { s with
      sys := { s.sys with cpu := { s.sys.cpu with
        mem := store s.sys.cpu.mem (K.pcb t) (kstack+4*sizeofThreadStack) } }
      phase := .written } := by
  have hpage := h.page
  obtain ⟨hk,-⟩ := threadStackStart_toNat hpage
  have hf := h.field
  unfold Field at hf
  rw [hp] at hf
  have hadd := hf.add (by rw [hk]; omega)
  have hr : threadStackStart (K.pcb t)+4*sizeofThreadStack = reservedStart (K.pcb t) := by
    exact BitVec.sub_add_cancel _ _
  rw [hr] at hadd
  have hrun : SwitchSys.Step K returnNever s.sys { s.sys with cpu := { s.sys.cpu with
      mem := store s.sys.cpu.mem (K.pcb t) (kstack+4*sizeofThreadStack) } } :=
    .run s.sys _ fun u x hu hx => store_of_not_span (own_ne hcur h.sys hu hx)
  refine ⟨h.page,h.sys.step hrun,h.here,fun hne => absurd hcur hne,?_⟩
  unfold Field
  dsimp only
  rwa [load_store_same]

/-- One step preserves the invariant. -/
theorem Inv.step (h : Inv K t s) (hs : Step K g t s s') : Inv K t s' := by
  cases hs with
  | others sys hcur hs => exact h.others hcur hs
  | compute c hcur hkeep hfield hesp =>
    have hrun : SwitchSys.Step K g.env s.sys _ := .run s.sys c hkeep
    exact ⟨h.page,h.sys.step hrun,fun _ => hesp,fun hne => absurd hcur hne,h.field.congr hfield⟩
  | preempt next c frames hcur hp => exact h.preempt hcur hp
  | read hcur hp =>
    have hf := h.field
    unfold Field at hf
    rw [hp] at hf
    exact ⟨h.page,h.sys,h.here,h.away,hf⟩
  | write kstack hcur hp => exact h.write hcur hp
  | cast hcur hp =>
    have hf := h.field
    unfold Field at hf
    rw [hp] at hf
    exact ⟨h.page,h.sys,h.here,h.away,hf⟩

/-- The state after thread_create. -/
theorem Inv.prepared {s₀ : SwitchSys T} (h : SwitchSys.Inv K s₀) (hp : Prepares K t s₀)
    (env : Env) (startProcess filename : Word) :
    Inv K t ⟨prepared K t startProcess filename s₀,.started,[]⟩ := by
  have hpage := hp.page
  obtain ⟨hk,-⟩ := threadStackStart_toNat hpage
  have hstack : kthreadStackOf s₀.cpu.mem (K.pcb t) = threadStackStart (K.pcb t) := by
    rw [kthreadStackOf,hp.field]
    rfl
  have hapart : ∀ x, Span (K.pcb t) 4 x → ¬ Span (kthreadStackOf s₀.cpu.mem (K.pcb t)) 32 x := by
    intro x hx hs
    rw [hstack] at hs
    simp only [Span] at hx hs
    bv_omega
  have hcreate : SwitchSys.Step K env s₀ (ProcStart.prepared K t startProcess filename s₀) :=
    .create s₀ t startProcess filename hp.new hp.other (fun x hx => hp.own x (hstack ▸ hx)) hapart
  obtain ⟨-,hload,-⟩ := threadCreate_holds K.kernelThread (K.pcb t) startProcess filename hapart
  rw [hstack] at hload
  refine ⟨hp.page,h.step hcreate,fun hc => absurd hc.symm hp.other,fun _ => ⟨?_,?_⟩,
    .inl ⟨fun he => ?_,hload⟩⟩
  · change (Function.update s₀.saved t (some (.fresh startProcess filename)) t).isSome
    rw [Function.update_self]
    rfl
  · change _ ≤ (load (threadCreate _ _ _ _ _) _).toNat ∧ (load (threadCreate _ _ _ _ _) _).toNat ≤ _
    rw [hload,hk]
    omega
  · obtain ⟨ph,hm,-⟩ := he
    cases hm

theorem Reachable.inv (h : Reachable K g t s) : Inv K t s := by
  obtain ⟨startProcess,filename,s₀,hreach,hp,hrun⟩ := h
  induction hrun with
  | refl => exact .prepared (SwitchSys.reachable_inv hreach) hp g.env startProcess filename
  | tail _ hs ih => exact ih.step hs

omit [DecidableEq T] in
theorem Inv.placed_iff (h : Inv K t s) {procStack : Word} (hp : s.phase = .computed procStack) :
    FramePlaced K t s procStack ↔ ¬ Early s.preempted := by
  obtain ⟨hk,hr⟩ := threadStackStart_toNat h.page
  have hf := h.field
  unfold Field at hf
  rw [hp] at hf
  obtain ⟨hn,rfl⟩ | ⟨he,hlt⟩ := hf
  · refine iff_of_true ⟨⟨le_rfl,?_⟩,fun x hx => ?_⟩ hn
    · have hsize : sizeofIntrStack.toNat = 76 := rfl
      omega
    · have hlt := hx.2
      omega
  · refine iff_of_false (fun hplaced => ?_) (not_not.mpr he)
    have hle := hplaced.reserved.1
    omega

/-- The frame is placed well exactly when no preemption came where the thread reads the field
next. -/
theorem framePlaced_iff (h : Reachable K g t s) {procStack : Word}
    (hp : s.phase = .computed procStack) :
    FramePlaced K t s procStack ↔ ∀ ph ∈ s.preempted, ¬ ph.Reads := by
  rw [h.inv.placed_iff hp,Early]
  push Not
  exact Iff.rfl

theorem Reachable.tail (h : Reachable K g t s) (hs : Step K g t s s') : Reachable K g t s' := by
  obtain ⟨startProcess,filename,s₀,hreach,hp,hrun⟩ := h
  exact ⟨startProcess,filename,s₀,hreach,hp,hrun.tail hs⟩

/-- A thread that runs can compute proc_stack without another preemption. -/
theorem Reachable.computes (h : Reachable K g t s) (hcur : s.sys.current = t)
    (hp : s.phase = .started) : ∃ s' procStack, Reachable K g t s' ∧
      s'.phase = .computed procStack ∧ s'.preempted = s.preempted := by
  have h₁ := h.tail (.read s hcur hp)
  have h₂ := h₁.tail (.write _ _ hcur rfl)
  exact ⟨_,_,h₂.tail (.cast _ hcur rfl),rfl,rfl⟩

/-- The handler calls schedule, which calls switch_to, and none of them has a frame. -/
def callSwitch (g : TimerGate) (cur next : Word) (c : Cpu) : Cpu :=
  ((((g.entry c).push g.env.next).push next).push cur).push g.env.next

lemma callSwitch_esp (cur next : Word) {c : Cpu} (h : ¬ c.Outer) :
    (callSwitch g cur next c).esp = c.esp-88 := by
  simp only [callSwitch,Cpu.push_esp,g.entry_esp h]
  bv_omega

lemma callSwitch_holds (cur next : Word) (c : Cpu) : Holds (callSwitch g cur next c).mem
    (callSwitch g cur next c).esp [g.env.next,cur,next] := by
  have h₀ : Holds ((g.entry c).push g.env.next).mem ((g.entry c).push g.env.next).esp [] := trivial
  have h₁ := Cpu.push_holds h₀ next (by simp)
  have h₂ := Cpu.push_holds h₁ cur (by simp)
  exact Cpu.push_holds h₂ g.env.next (by simp)

lemma callSwitch_mem (cur next : Word) {c : Cpu} {x : Word} (h : ¬ c.Outer)
    (hx : ¬ Span (c.esp-96) 96 x) : (callSwitch g cur next c).mem x = c.mem x := by
  obtain ⟨reg,dummy,ht⟩ := intrEntryPushes_tracks g.env g.tss g.sel g.off c 0x20 .zero none (by simp)
  have hframe := ht.frame x (by rwa [Cpu.stackTop,if_neg h])
  have hentry : (g.entry c).mem x = c.mem x := by
    refine (Cpu.push_mem ?_).trans hframe
    rw [intrEntryPushes_esp,deliver_esp _ _ _ h]
    simp only [Span] at hx ⊢
    bv_omega
  unfold callSwitch
  rw [Cpu.push_mem,Cpu.push_mem,Cpu.push_mem,Cpu.push_mem,hentry]
  all_goals
    simp only [Cpu.push_esp,g.entry_esp h,Span] at hx ⊢
    bv_omega

/-- schedule can choose the running thread again, if its page is its own. -/
lemma preempts_callSwitch {s : SwitchSys T} (hinv : SwitchSys.Inv K s) (hk : ¬ s.cpu.Outer)
    (hen : s.cpu.eflags &&& 0x200 ≠ 0) (hroom : (K.pcb s.current).toNat+108 ≤ s.cpu.esp.toNat)
    (hesp : s.cpu.esp.toNat ≤ (K.pcb s.current).toNat+4096)
    (hown : ∀ x, Span (K.pcb s.current) 4096 x → K.own s.current x) :
    Preempts K g s s.current (callSwitch g (K.pcb s.current) (K.pcb s.current) s.cpu) 0 := by
  have he := callSwitch_esp (g := g) (K.pcb s.current) (K.pcb s.current) hk
  refine ⟨hk,hen,?_,by omega,fun u x hu hx => ?_,⟨?_,?_,fun x hx => ?_,fun x hx hs => ?_⟩⟩
  · rw [he,g.entry_esp hk]
    bv_omega
  · refine callSwitch_mem _ _ hk fun hs => ?_
    obtain rfl := K.disjoint u s.current x hx (hown x (by simp only [Span] at hs ⊢; bv_omega))
    rw [hinv.current] at hu
    cases hu
  · exact ⟨g.env.next,callSwitch_holds _ _ _⟩
  · simp [SwitchSys.savedAt]
  · refine hown x ?_
    rw [he] at hx
    simp only [Span] at hx ⊢
    bv_omega
  · rw [he] at hs
    simp only [Span] at hx hs
    bv_omega

/-- A gate for the timer, without any function behind it. -/
def timerGate : TimerGate := ⟨returnNever,⟨0x10,0xc0101000⟩,8,0xc0002000⟩

/-- The second thread has started and enabled interrupts. -/
def enabledSys : SwitchSys Bool :=
  let s := startedSys.switched returnNever true
  { s with cpu := { s.cpu with eflags := 0x202 } }

lemma startedSys_prepares : Prepares twoStacks true (SwitchSys.init mainCpu false) := by
  have hs : threadStackStart (twoStacks.pcb true) = 0xc0100e50 := by decide
  refine ⟨by decide,rfl,by decide,by decide +kernel,fun x hx => ?_⟩
  rw [hs] at hx
  simp only [twoStacks,Span,if_true] at hx ⊢
  bv_omega

lemma enabledSys_esp : enabledSys.cpu.esp = 0xc0100e64 := by
  decide +kernel

lemma enabledSys_reachable :
    Reachable twoStacks timerGate true ⟨enabledSys,.started,[]⟩ := by
  have h₀ : Reachable twoStacks timerGate true ⟨startedSys,.started,[]⟩ :=
    ⟨0xc0001c00,5,_,⟨mainCpu,false,.refl⟩,startedSys_prepares,.refl⟩
  have h₁ := h₀.tail (.others _ _ (by decide) (.switch startedSys true startedSys_calls))
  refine h₁.tail (.compute _ _ rfl (fun u x hu hx => rfl) rfl ?_)
  change InStack twoStacks true enabledSys.cpu.esp
  rw [enabledSys_esp]
  exact ⟨by decide,by decide⟩

/-- Without a preemption the frame is placed well. -/
theorem framePlaced_undisturbed : ∃ s procStack, Reachable twoStacks timerGate true s ∧
    s.phase = .computed procStack ∧ FramePlaced twoStacks true s procStack := by
  obtain ⟨s,procStack,hs,hp,hn⟩ := enabledSys_reachable.computes rfl rfl
  refine ⟨s,procStack,hs,hp,(framePlaced_iff hs hp).mpr fun ph hm => ?_⟩
  rw [hn] at hm
  cases hm

/-- One preemption in kernel_thread, after which the same thread is chosen again. -/
theorem framePlaced_fails : ∃ s procStack, Reachable twoStacks timerGate true s ∧
    s.phase = .computed procStack ∧ s.preempted = [.started] ∧
    ¬ FramePlaced twoStacks true s procStack := by
  have hpre : Preempts twoStacks timerGate enabledSys true
      (callSwitch timerGate 0xc0100000 0xc0100000 enabledSys.cpu) 0 := by
    refine preempts_callSwitch enabledSys_reachable.inv.sys (by decide +kernel) (by decide) ?_ ?_
      fun x hx => hx
    · rw [enabledSys_esp]
      decide
    · rw [enabledSys_esp]
      decide
  have hpreempted := enabledSys_reachable.tail (.preempt _ _ _ 0 rfl hpre)
  obtain ⟨s,procStack,hs,hp,hn⟩ := hpreempted.computes rfl rfl
  refine ⟨s,procStack,hs,hp,hn,fun hplaced => ?_⟩
  refine (hs.inv.placed_iff hp).mp hplaced ?_
  rw [hn]
  exact ⟨.started,List.mem_cons_self,trivial⟩

end ProcStart
end OsKernel

import OsKernel.Memory.PageProc

/-! thread_start and process_execute, and the switch to another thread. A new PCB is a page that
was not mapped before, so that it is not the PCB of another thread. -/
namespace OsKernel
open Paging ByteMemory Exec KernelM

/-- The pages that are not mapped are the PCB of no process, nor of the running thread. -/
def Machine.FreshPcb (m : Machine) (A : FrameMap) : Prop :=
  ∀ p, A (.page none p) = none → kernelHeapPage ≤ p →
    ¬ m.IsProc (4096*p) ∧ m.runningThread ≠ 4096*p

section NewThread
variable {m m' : Machine} {A A' : FrameMap} {F : Set ℕ} {p q g n : ℕ} {t : TaskId}

theorem Machine.FreshPcb.congr (h : m.FreshPcb A) (hset : m'.setup = m.setup)
    (hle : ∀ p, A' (.page none p) = none → A (.page none p) = none) : m'.FreshPcb A' := by
  intro p hp hk
  obtain ⟨h₁,h₂⟩ := h p (hle p hp) hk
  exact ⟨fun hc => h₁ ((Machine.isProc_congr hset _).mp hc),
    by rwa [Machine.runningThread_congr hset]⟩

/-- A memset inside a page of data. -/
theorem PageRep.memset_page (h : PageRep m A F) (hp : m.dataPages A p = some g) (hp0 : p ≠ 0)
    (hn : n ≤ 4096) : ∃ mem', memset (4096*p) 0 n m = (.ok (),m.setMem mem') ∧
      PageRep (m.setMem mem') A F := by
  have hset : Acts m (m.dataPages A) Set.univ (memset (4096*p) 0 n) (m.data A) () _ :=
    Acts.memset h.window (by omega) fun k hk => by
      rw [show (4096*p+k)/4096 = p by omega,hp]
      exact ⟨rfl,trivial⟩
  obtain ⟨mem',hrun,hrep,-,-⟩ := h.run_acts hset
  exact ⟨mem',hrun,hrep⟩

/-- init_thread clears the PCB. -/
theorem PageRep.initThread_eq (h : PageRep m A F) (hv : VaddrRep m A ∅)
    (hp : m.dataPages A p = some g) (hp0 : p ≠ 0) (ht : ¬ m.IsProc (4096*p))
    (hrun : m.runningThread ≠ 4096*p) :
    ∃ m', initThread (4096*p) m = (.ok (),m') ∧ PageRep m' A F ∧ VaddrRep m' A ∅ ∧
      m'.task (4096*p) = ⟨0,⟨⟨0,fun _ => 0⟩,0⟩⟩ ∧ m.SameExcept (4096*p) m' := by
  obtain ⟨mem',hset,hrep⟩ := h.memset_page hp hp0 (n := taskStructSize) (by decide)
  have hv' : VaddrRep (m.setMem mem') A ∅ :=
    ⟨hv.bits,hv.userStart,hv.userLen,hv.kernelLen,hv.pending⟩
  have heq : initThread (4096*p) m = (.ok (),(m.setMem mem').setTask (4096*p) ⟨0,⟨⟨0,fun _ => 0⟩,0⟩⟩) := by
    rw [initThread,Exec.bind_of_ok hset]
    rfl
  refine ⟨_,heq,hrep.setTask ht hrun (by simp [Machine.NewTask]),
    hv'.setTask hrep ht hrun (by simp) (by simp) (by simp),Machine.setTask_self,?_⟩
  exact (Machine.SameExcept.of_setup rfl).setTask

/-- The map grows, and nothing is added but pages of the kernel. -/
structure FrameMap.Grows (A A' : FrameMap) : Prop where
  le : ∀ x f, A x = some f → A' x = some f
  user : ∀ x, (∀ v, x ≠ .page none v) → A' x = A x

theorem FrameMap.Grows.trans {A'' : FrameMap} (h : A.Grows A') (h' : A'.Grows A'') : A.Grows A'' :=
  ⟨fun x f hx => h'.le x f (h.le x f hx),fun x hx => (h'.user x hx).trans (h.user x hx)⟩

theorem Gains.grows {v : ℕ} (h : Gains m A (newUses A none v n) m' A') : A.Grows A' := by
  refine ⟨fun _ _ => h.le,fun x hx => h.old _ fun hmem => ?_⟩
  obtain hmem|hmem := mem_newUses.mp hmem
  · obtain ⟨w,-,-,hw⟩ := mem_newPages.mp hmem
    exact hx w hw
  · obtain ⟨u,-,hu,-⟩ := mem_newTables.mp hmem
    exact Option.some_ne_none u hu.symm

/-- What thread_start and process_execute do to the map: it grows, and the new PCB is a page that
was not mapped before. -/
structure Started (m : Machine) (A : FrameMap) (t : TaskId) (m' : Machine) (A' : FrameMap) : Prop
    extends A.Grows A' where
  pcb : ∃ p, t = 4096*p ∧ kernelHeapPage ≤ p ∧ A (.page none p) = none ∧
    (A' (.page none p)).isSome ∧ ¬ m'.DirPage none p
  same : m.SameExcept t m'
  dirPage : m'.IsProc t → A (.page none (m'.dirPage t)) = none

/-- A page that was not mapped is no directory yet. -/
theorem Machine.SameExcept.not_dirPage (hs : m.SameExcept t m') (h : PageRep m A F)
    (h0 : (m'.task t).pgdir = 0) (hnone : A (.page none p) = none) : ¬ m'.DirPage none p := by
  rintro ⟨-,u,hu,hup⟩
  by_cases hut : u = t
  · subst hut
    exact hu h0
  · have hpg := hs.pgdir hut
    have hd := (h.dir u fun hc => hu (hpg.trans hc)).2
    have hpage : m.dirPage u = p := (congrArg (fun c => c/pageSize) hpg.symm).trans hup
    rw [hpage,hnone] at hd
    contradiction

/-- The PCB is a new page of the kernel heap. -/
theorem PageRep.newPcb_runs (h : PageRep m A F) (hv : VaddrRep m A ∅) (hf : m.FreshPcb A) :
    Runs (getKernelPages 1) m
      (fun t m₁ => Runs (initThread t) m₁
        (fun _ m' => ∃ p g A', t = 4096*p ∧ kernelHeapPage ≤ p ∧ A (.page none p) = none ∧
          PageRep m' A' F ∧ VaddrRep m' A' ∅ ∧ m'.dataPages A' p = some g ∧
          A' (.page none p) = some g ∧ A.Grows A' ∧ m.SameExcept t m' ∧
          m'.task t = ⟨0,⟨⟨0,fun _ => 0⟩,0⟩⟩ ∧ m'.runningThread ≠ t)
        (fun _ _ => True))
      (fun _ _ => True) := by
  refine (h.getPages_runs hv).mono ?_ fun _ _ _ => trivial
  rintro _ m₁ ⟨k,A₁,rfl,-,hrep,hvad,hgain,-⟩
  rw [show m.space .kernel = none from rfl] at hgain ⊢
  have hle : kernelHeapPage ≤ firstPage none+k := Nat.le_add_right _ _
  generalize firstPage none+k = p at hgain hle ⊢
  have hp0 : p ≠ 0 := by
    unfold kernelHeapPage at hle
    omega
  obtain ⟨hnone,-,g,hg,hdata⟩ := hgain.new_page h hrep (page_mem_newUses Nat.one_pos)
  obtain ⟨hproc,hrun⟩ := hf p hnone hle
  have hproc₁ : ¬ m₁.IsProc (4096*p) := fun hc => hproc ((Machine.isProc_congr hgain.setup _).mp hc)
  have hrun₁ : m₁.runningThread ≠ 4096*p := by rwa [Machine.runningThread_congr hgain.setup]
  obtain ⟨m₂,heq,hrep₂,hvad₂,htask,hsame⟩ := hrep.initThread_eq hvad hdata hp0 hproc₁ hrun₁
  have hsame' : m.SameExcept (4096*p) m₂ := (Machine.SameExcept.of_setup hgain.setup).trans hsame
  have hrun₂ : m₂.runningThread ≠ 4096*p := by rwa [hsame'.runningThread]
  refine .of_eq heq ⟨p,g,A₁,rfl,hle,hnone,hrep₂,hvad₂,?_,hg,hgain.grows,hsame',htask,
    hrun₂⟩
  exact hrep₂.dataPages_page (.inl rfl) hg (hsame'.not_dirPage h (by rw [htask]) hnone)

/-- thread_start makes a thread without a directory. -/
theorem PageRep.threadStart_runs (h : PageRep m A F) (hv : VaddrRep m A ∅) (hf : m.FreshPcb A) :
    Runs threadStart m
      (fun t m' => ∃ A', PageRep m' A' F ∧ VaddrRep m' A' ∅ ∧ Started m A t m' A' ∧
        m'.task t = ⟨0,⟨⟨0,fun _ => 0⟩,0⟩⟩)
      (fun _ _ => True) := by
  refine Runs.bind (h.newPcb_runs hv hf) ?_
  intro t m₁ h₁
  refine Runs.bind h₁ ?_
  rintro - m₂ ⟨p,g,A',rfl,hle,hnone,hrep,hvad,hdata,hg,hgrows,hsame,htask,-⟩
  have hpg : (m₂.task (4096*p)).pgdir = 0 := by rw [htask]
  exact ⟨A',hrep,hvad,⟨hgrows,⟨p,rfl,hle,hnone,by rw [hg]; rfl,hsame.not_dirPage h hpg hnone⟩,
    hsame,fun hp => absurd hpg hp⟩,htask⟩

/-- The PCB of a process that has its bitmap, but whose directory has not been entered yet. -/
structure Machine.Unentered (m : Machine) (t : TaskId) : Prop where
  pgdir : (m.task t).pgdir = 0
  start : (m.task t).userprogVaddr.vaddrStart = userVaddrStart
  len : (m.task t).userprogVaddr.vaddrBitmap.btmpBytesLen = 94199
  running : m.runningThread ≠ t

theorem Machine.Unentered.of_task (h : m.task t = ⟨0,⟨⟨94199,fun _ => 0⟩,userVaddrStart⟩⟩)
    (hrun : m.runningThread ≠ t) : m.Unentered t := by
  refine ⟨?_,?_,?_,hrun⟩ <;> rw [h]

theorem Machine.Unentered.congr (h : m.Unentered t) (hset : m'.setup = m.setup) :
    m'.Unentered t where
  pgdir := (congrArg (fun c => (c.task t).pgdir) hset).trans h.pgdir
  start := (congrArg (fun c => (c.task t).userprogVaddr.vaddrStart) hset).trans h.start
  len := (congrArg (fun c => (c.task t).userprogVaddr.vaddrBitmap.btmpBytesLen) hset).trans h.len
  running := by
    rw [Machine.runningThread_congr hset]
    exact h.running

theorem Machine.Unentered.not_proc (h : m.Unentered t) : ¬ m.IsProc t := not_not.mpr h.pgdir

/-- The pages for the bits and the empty bitmap of a new process. -/
theorem PageRep.createUserVaddrBitmap_runs (h : PageRep m A F) (hv : VaddrRep m A ∅)
    (hpg : (m.task t).pgdir = 0) (hrun : m.runningThread ≠ t) :
    Runs (createUserVaddrBitmap t) m
      (fun _ m' => ∃ A', PageRep m' A' F ∧ VaddrRep m' A' ∅ ∧ A.Grows A' ∧ m.SameExcept t m' ∧
        m'.Unentered t)
      (fun _ _ => True) := by
  refine Runs.bind ((h.getPages_runs hv).mono (fun _ _ hx => hx) fun _ _ _ => trivial) ?_
  rintro _ m₁ ⟨k,A₁,-,-,hrep,hvad,hgain,-⟩
  have hpg₁ : (m₁.task t).pgdir = 0 := by
    rw [← hpg]
    exact congrArg (fun c => (c.task t).pgdir) hgain.setup
  have hproc₁ : ¬ m₁.IsProc t := not_not.mpr hpg₁
  have hrun₁ : m₁.runningThread ≠ t := by rwa [Machine.runningThread_congr hgain.setup]
  have hclear : ∀ k, (⟨94199,fun _ => 0⟩ : Bitmap).bitmapScanTest k = false := by
    intro k
    simp [Bitmap.bitmapScanTest]
  have htask : ({ m₁.task t with userprogVaddr := ⟨⟨userBitmapLen,fun _ => 0⟩,userVaddrStart⟩ } :
      TaskVm) = ⟨0,⟨⟨94199,fun _ => 0⟩,userVaddrStart⟩⟩ :=
    congrArg (fun pg => (⟨pg,⟨⟨94199,fun _ => 0⟩,userVaddrStart⟩⟩ : TaskVm)) hpg₁
  change Runs (modify _) m₁ _ _
  rw [Runs.modify,htask]
  exact ⟨A₁,hrep.setTask hproc₁ hrun₁ fun h0 => absurd rfl h0,
    hvad.setTask hrep hproc₁ hrun₁ (by simp) (fun k _ => hclear k) fun h0 => absurd rfl h0,
    hgain.grows,(Machine.SameExcept.of_setup hgain.setup).setTask,
    .of_task Machine.setTask_self hrun₁⟩

/-- The bits of the bitmap of a thread that is no process yet are clear. -/
theorem VaddrRep.clear_of_not_proc (hv : VaddrRep m A ∅) (h : PageRep m A F) (ht : ¬ m.IsProc t)
    {k : ℕ} (hk : k < 8*(m.task t).userprogVaddr.vaddrBitmap.btmpBytesLen) :
    (m.task t).userprogVaddr.vaddrBitmap.bitmapScanTest k = false := by
  have hb := hv.bits (some t) k hk
  cases hp : A (.page (some t) (firstPage (some t)+k)) with
  | none => simpa [hp,Machine.vaddr] using hb
  | some f => exact absurd (h.userPage t _ f hp).1 ht

/-- process_execute enters the directory in the PCB. -/
def Machine.enterPgdir (m : Machine) (t : TaskId) (pgdir : ℕ) : Machine :=
  m.setTask t { m.task t with pgdir := pgdir }

theorem Machine.enterPgdir_dirPage : (m.enterPgdir t (4096*q)).dirPage t = q := by
  rw [enterPgdir,dirPage,setTask_self]
  exact Nat.mul_div_cancel_left q (by decide)

theorem Machine.enterPgdir_isProc (hq : q ≠ 0) : (m.enterPgdir t (4096*q)).IsProc t := by
  rw [enterPgdir,IsProc,setTask_self]
  exact Nat.mul_ne_zero (by decide) hq

/-- A page that was no directory is none after the entry either, if it is not the new one. -/
theorem Machine.enterPgdir_not_dirPage (h : ¬ m.DirPage none p) (hpq : p ≠ q) :
    ¬ (m.enterPgdir t (4096*q)).DirPage none p := by
  rintro ⟨-,u,hu,hup⟩
  by_cases hut : u = t
  · subst hut
    rw [enterPgdir_dirPage] at hup
    exact hpq hup.symm
  · rw [enterPgdir,setTask_isProc_of_ne hut] at hu
    rw [enterPgdir,setTask_dirPage_of_ne hut] at hup
    exact h ⟨rfl,u,hu,hup⟩

theorem PageRep.enterPgdir (h : PageRep m A F) (ht : m.Unentered t)
    (hg : A (.page none q) = some g) (hnew : NewDir m.mem g) (hdir : ¬ m.DirPage none q) :
    PageRep (m.enterPgdir t (4096*q)) A F :=
  h.setTask ht.not_proc ht.running fun _ => ⟨q,g,rfl,hg,hnew,hdir⟩

theorem VaddrRep.enterPgdir (hv : VaddrRep m A ∅) (h : PageRep m A F) (ht : m.Unentered t) :
    VaddrRep (m.enterPgdir t (4096*q)) A ∅ :=
  hv.setTask h ht.not_proc ht.running (by simp) (fun _ hk => hv.clear_of_not_proc h ht.not_proc hk)
    fun _ => ⟨ht.start,ht.len⟩

/-- The end of process_execute, when the directory has been made: only the page of the PCB is
written. -/
theorem PageRep.enterPgdir_run (h : PageRep m A F) (hg : A (.page none p) = some g)
    {τ : ℕ → Option ℕ} (hw : Window (m.cr3/pageSize) m.mem τ Set.univ) (hp : τ p = some g)
    (pgdir : ℕ) :
    ∃ mem', (do
        modify fun m => m.enterPgdir (4096*p) pgdir
        blockDescInit (uBlockDesc (4096*p))
        return 4096*p : KernelM TaskId) m =
          (.ok (4096*p),(m.enterPgdir (4096*p) pgdir).setMem mem') ∧
      Only τ Set.univ m.mem mem' := by
  have hlt := h.kernel_lt_recursive (h.inSpace hg)
  unfold recursivePage at hlt
  have hfield : uBlockDesc (4096*p) = 4096*p+68 := field_eq (by omega)
  have hinit : Acts (m.enterPgdir (4096*p) pgdir) τ Set.univ
      (blockDescInit (4096*p+68)) (view τ m.mem) () _ :=
    Acts.blockDescInit hw fun k hk h4 => by
      refine ⟨?_,trivial,by omega,by omega⟩
      rw [show (4096*p+68+k)/4096 = p by omega,hp]
      rfl
  obtain ⟨mem',hrun,ho,-⟩ := hinit m.mem .refl rfl
  have hset : (modify fun m => m.enterPgdir (4096*p) pgdir : KernelM Unit) m =
      (.ok (),(m.enterPgdir (4096*p) pgdir).setMem m.mem) := rfl
  refine ⟨mem',?_,ho⟩
  rw [Exec.bind_of_ok hset,hfield,Exec.bind_of_ok hrun]
  rfl

/-- process_execute makes a thread with a directory of its own. -/
theorem PageRep.processExecute_runs (h : PageRep m A F) (hv : VaddrRep m A ∅)
    (hf : m.FreshPcb A) :
    Runs processExecute m
      (fun t m' => ∃ A', PageRep m' A' F ∧ VaddrRep m' A' ∅ ∧ Started m A t m' A' ∧ m'.IsProc t)
      (fun _ _ => True) := by
  refine Runs.bind (h.newPcb_runs hv hf) ?_
  intro t m₁ h₁
  refine Runs.bind h₁ ?_
  rintro - m₂ ⟨p,g,A₂,rfl,hle,hnone,hrep₂,hvad₂,-,hg,hgrows₂,hsame₂,htask₂,hrun₂⟩
  refine Runs.bind (hrep₂.createUserVaddrBitmap_runs hvad₂ (by rw [htask₂]) hrun₂) ?_
  rintro - m₃ ⟨A₃,hrep₃,hvad₃,hgrows₃,hsame₃,hun₃⟩
  refine Runs.bind (hrep₃.createPageDir_runs hvad₃) ?_
  rintro _ m₄ ⟨q,g',A₄,rfl,hrep₄,hvad₄,hnone₄,hg',hnew,hgain⟩
  have hgrows₄ : A.Grows A₃ := hgrows₂.trans hgrows₃
  have hsame₄ : m.SameExcept (4096*p) m₄ := (hsame₂.trans hsame₃).trans (.of_setup hgain.setup)
  have hun₄ : m₄.Unentered (4096*p) := hun₃.congr hgain.setup
  have hpg : A₄ (.page none p) = some g := hgain.le (hgrows₃.le _ _ hg)
  -- the directory is not the page of the PCB, which was mapped when it was handed out
  have hpq : p ≠ q := by
    rintro rfl
    rw [hgrows₃.le _ _ hg] at hnone₄
    contradiction
  have hqnone : A (.page none q) = none := by
    cases hq : A (.page none q) with
    | none => rfl
    | some f =>
      rw [hgrows₄.le _ _ hq] at hnone₄
      contradiction
  have hq0 : q ≠ 0 := by
    have hq := (hrep₄.kernelPage q g' hg').1
    unfold kernelHeapPage at hq
    omega
  have hrep₅ : PageRep (m₄.enterPgdir (4096*p) (4096*q)) A₄ F :=
    hrep₄.enterPgdir hun₄ hg' hnew (hsame₄.not_dirPage h hun₄.pgdir hqnone)
  have hvad₅ : VaddrRep (m₄.enterPgdir (4096*p) (4096*q)) A₄ ∅ := hvad₄.enterPgdir hrep₄ hun₄
  have hpdir : ¬ (m₄.enterPgdir (4096*p) (4096*q)).DirPage none p :=
    Machine.enterPgdir_not_dirPage (hsame₄.not_dirPage h hun₄.pgdir hnone) hpq
  have hdata := hrep₅.dataPages_page (.inl rfl) hpg hpdir
  obtain ⟨mem',hrun,ho⟩ := hrep₄.enterPgdir_run hpg hrep₅.window hdata (4096*q)
  refine .of_eq hrun ⟨A₄,hrep₅.setData ho,
    ⟨hvad₅.bits,hvad₅.userStart,hvad₅.userLen,hvad₅.kernelLen,hvad₅.pending⟩,
    ⟨hgrows₄.trans hgain.grows,⟨p,rfl,hle,hnone,by rw [hpg]; rfl,hpdir⟩,
      hsame₄.setTask.trans (.of_setup rfl),fun _ => ?_⟩,Machine.enterPgdir_isProc hq0⟩
  change A (.page none ((m₄.enterPgdir (4096*p) (4096*q)).dirPage (4096*p))) = none
  rwa [Machine.enterPgdir_dirPage]

end NewThread

section Switch
variable {m : Machine} {A : FrameMap} {F : Set ℕ} {P : Set (Option TaskId × ℕ)} {t : TaskId}

theorem PageRep.dirOf_isSome (h : PageRep m A F) (t : TaskId) : ∃ d, m.dirOf A t = some d := by
  by_cases ht : m.IsProc t
  · rw [Machine.dirOf_of_proc ht]
    exact Option.isSome_iff_exists.mp (h.dir t ht).2
  · exact ⟨bootDir,Machine.dirOf_of_not_proc ht⟩

/-- page_dir_activate loads the directory of the thread, whichever directory is active. -/
theorem PageRep.pageDirActivate_eq (h : PageRep m A F) {d : ℕ} (hd : m.dirOf A t = some d) :
    pageDirActivate t m = (.ok (),{ m with cr3 := pageSize*d, tlb := fun _ => none }) := by
  have hphys : pagedirPhyAddr (m.task t).pgdir m = (.ok (pageSize*d),m) := by
    by_cases ht : m.IsProc t
    · rw [Machine.dirOf_of_proc ht] at hd
      rw [pagedirPhyAddr,if_pos (show (m.task t).pgdir ≠ 0 from ht),(h.dir t ht).1]
      exact h.addrV2p_eq hd (.inl rfl)
    · rw [Machine.dirOf_of_not_proc ht] at hd
      obtain rfl := Option.some.inj hd
      rw [pagedirPhyAddr,if_neg (show ¬ (m.task t).pgdir ≠ 0 from ht)]
      rfl
  change (pagedirPhyAddr (m.task t).pgdir >>= fun pa => modify fun m =>
    { m with cr3 := pa, tlb := fun _ => none }) m = _
  rw [Exec.bind_of_ok hphys]
  rfl

/-- The processor runs another thread, with its directory. -/
theorem PageRep.switchTask_eq (h : PageRep m A F) {d : ℕ} (hd : m.dirOf A t = some d) :
    ∃ m', switchTask t m = (.ok (),m') ∧ PageRep m' A F ∧
      m' = { m with cr3 := pageSize*d, tlb := fun _ => none, runningThread := t } := by
  refine ⟨_,?_,?_,rfl⟩
  · rw [switchTask,Exec.bind_of_ok (h.pageDirActivate_eq hd)]
    rfl
  · refine .mk' ⟨h.kernelStart,h.userAligned,h.disjoint,h.bound,h.vaddrStart,h.vaddrLen⟩
      ⟨h.inj,h.reserved,h.inPool,h.reservedInPool,h.bits⟩
      ⟨h.kernelPage,h.userPage,h.table,h.dir,h.dirInj⟩ ⟨fun g i o hs => ?_,h.kernelWord,d,hd,rfl⟩
    refine h.spec g i o ?_
    cases hs with
    | low hj => exact .low hj
    | kernelPte h₁ h₂ => exact .kernelPte h₁ h₂
    | kernelPde hd h₁ h₂ => exact .kernelPde hd h₁ h₂
    | self hd => exact .self hd
    | pde ht hd hi => exact .pde ht hd hi
    | pte hf hj => exact .pte hf hj

end Switch
end OsKernel

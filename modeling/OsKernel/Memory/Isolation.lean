import OsKernel.Memory.PageRoom

/-! Isolation. As long as other threads have the processor, what a process finds at the addresses
of its own half stays as it is, whatever they allocate, free, write or start. All accesses are those
of the page tables as they are: translations that the processor still has in its cache after
mfree_page are another matter. The other half is common to all. -/
namespace OsKernel
open Paging ByteMemory Exec KernelM

/-- The thread is a process with its directory in the frame d. -/
structure Machine.HasDir (m : Machine) (A : FrameMap) (u : TaskId) (d : ℕ) : Prop where
  proc : m.IsProc u
  dir : m.dirOf A u = some d

section Pages
variable {m m' m₁ m₂ : Machine} {A A' : FrameMap} {F : Set ℕ} {W : Set ℕ} {s : Option TaskId}
  {t u : TaskId} {d n v g p : ℕ} {mem' : ByteMemory}

/-- The directory stays where it is. -/
theorem Machine.HasDir.of_le (h : m.HasDir A u d) (hpg : (m'.task u).pgdir = (m.task u).pgdir)
    (hle : ∀ f, A (.page none (m.dirPage u)) = some f → A' (.page none (m.dirPage u)) = some f) :
    m'.HasDir A' u d := by
  have hproc : m'.IsProc u := fun hc => h.proc (hpg.symm.trans hc)
  have hpage : m'.dirPage u = m.dirPage u := congrArg (fun c => c/pageSize) hpg
  refine ⟨hproc,?_⟩
  have hd := h.dir
  rw [Machine.dirOf_of_proc h.proc] at hd
  rw [Machine.dirOf_of_proc hproc,hpage]
  exact hle d hd

/-- The page tables say what the map says. -/
theorem PageRep.samePages (h : PageRep m A F) (h' : PageRep m' A' F) (hd : m.HasDir A u d)
    (hd' : m'.HasDir A' u d) (hpage : ∀ v, A' (.page (some u) v) = A (.page (some u) v))
    (hdata : ∀ v g, A (.page (some u) v) = some g → SameFrame m.mem m'.mem g) :
    SamePages d kernelHalf m.mem m'.mem := by
  intro v hv
  rw [h.lookup_user hd.proc hd.dir hv,h'.lookup_user hd'.proc hd'.dir hv]
  exact ⟨hpage v,fun g hg => hdata v g hg⟩

theorem Machine.dataFrame_user (hg : A (.page (some u) v) = some g) : m.DataFrame A g :=
  .inr ⟨some u,v,hg,fun hd => Option.some_ne_none u hd.1⟩

/-- Pages are handed out in another space. -/
theorem PageRep.gains_samePages (h : PageRep m A F) (h' : PageRep m' A' F) (hd : m.HasDir A u d)
    (hg : Gains m A (newUses A s v n) m' A') (hs : s ≠ some u) :
    m'.HasDir A' u d ∧ SamePages d kernelHalf m.mem m'.mem := by
  have hd' : m'.HasDir A' u d :=
    hd.of_le (congrArg (fun c => (c.task u).pgdir) hg.setup) fun _ => hg.le
  refine ⟨hd',h.samePages h' hd hd' (fun w => hg.old _ fun hmem => ?_) fun w g hw =>
    hg.data g (Machine.dataFrame_user hw)⟩
  exact hs (mem_newUses_page.mp hmem).1.symm

/-- Pages of another space that are no directories are given back. -/
theorem PageRep.frees_samePages (h : PageRep m A F) (h' : PageRep m' (A.drop s v n) F)
    (hd : m.HasDir A u d) (hf : Frees m A m' (A.drop s v n)) (hs : s ≠ some u)
    (hdir : ∀ w, v ≤ w → w < v+n → ¬ m.DirPage s w) : SamePages d kernelHalf m.mem m'.mem := by
  have hpage (w : ℕ) : A.drop s v n (.page (some u) w) = A (.page (some u) w) := by
    rw [FrameMap.drop_page,if_neg fun hc => hs hc.1.symm]
  have hd' : m'.HasDir (A.drop s v n) u d := by
    refine hd.of_le (congrArg (fun c => (c.task u).pgdir) hf.setup) fun f hf' => ?_
    rw [FrameMap.drop_page,if_neg,hf']
    rintro ⟨hs',h₁,h₂⟩
    exact hdir _ h₁ h₂ ⟨hs'.symm,u,hd.proc,rfl⟩
  refine h.samePages h' hd hd' hpage fun w g hw => hf.data g ?_
  exact Machine.dataFrame_user ((hpage w).trans hw)

/-- Another thread writes to the data that it sees. -/
theorem PageRep.only_samePages (h : PageRep m A F) (hd : m.HasDir A u d)
    (hr : m.runningThread ≠ u) (ho : Only (m.dataPages A) W m.mem mem') :
    SamePages d kernelHalf m.mem mem' := by
  refine h.samePages (h.setData ho) hd ⟨hd.proc,hd.dir⟩ (fun _ => rfl) fun v g hg =>
    ho g fun w _ hw => ?_
  obtain ⟨-,hlow⟩ | ⟨s,hs,hp,-⟩ := Machine.dataPages_cases hw
  · have hle := h.le_of_use hg
    unfold firstPoolFrame at hle
    omega
  · obtain ⟨rfl,-⟩ := Use.page.inj (h.inj _ _ _ hp hg)
    obtain hs | hs := hs
    · exact Option.some_ne_none u hs
    · exact hr (Option.some.inj hs).symm

/-- The new PCB of another thread. -/
theorem PageRep.newPcb_samePages (h : PageRep m A F) (hv : VaddrRep m A ∅) (hd : m.HasDir A u d)
    (hr : m.runningThread ≠ u) (heq₁ : getKernelPages 1 m = (.ok t,m₁))
    (heq₂ : initThread t m₁ = (.ok (),m₂)) : SamePages d kernelHalf m.mem m₂.mem := by
  obtain ⟨p,g,A₁,rfl,hp0,hrep₁,-,hgain,-,-,hdata,-⟩ := h.kernelPage_ok hv heq₁
  obtain ⟨hd₁,hsame⟩ := h.gains_samePages hrep₁ hd hgain (Option.some_ne_none u).symm
  obtain ⟨mem',hrun,ho⟩ := hrep₁.initThread_run hdata hp0
  rw [hrun] at heq₂
  obtain rfl := (Prod.mk.inj heq₂).2
  have hr₁ : m₁.runningThread ≠ u := by rwa [Machine.runningThread_congr hgain.setup]
  exact hsame.trans (hrep₁.only_samePages hd₁ hr₁ ho)

theorem PageRep.threadStart_samePages (h : PageRep m A F) (hv : VaddrRep m A ∅)
    (hd : m.HasDir A u d) (hr : m.runningThread ≠ u) (heq : threadStart m = (.ok t,m')) :
    SamePages d kernelHalf m.mem m'.mem := by
  obtain ⟨va,m₁,heq₁,heq⟩ := Exec.bind_eq_ok heq
  obtain ⟨_,m₂,heq₂,heq⟩ := Exec.bind_eq_ok heq
  obtain rfl := (Prod.mk.inj heq).2
  exact h.newPcb_samePages hv hd hr heq₁ heq₂

theorem PageRep.createUserVaddrBitmap_samePages (h : PageRep m A F) (hv : VaddrRep m A ∅)
    (hd : m.HasDir A u d) (heq : createUserVaddrBitmap t m = (.ok (),m')) :
    SamePages d kernelHalf m.mem m'.mem := by
  obtain ⟨va,m₁,heq₁,heq⟩ := Exec.bind_eq_ok heq
  obtain rfl := (Prod.mk.inj heq).2
  obtain ⟨p,g,A₁,-,-,hrep₁,-,hgain,-⟩ := h.kernelPage_ok hv heq₁
  exact (h.gains_samePages hrep₁ hd hgain (Option.some_ne_none u).symm).2

theorem PageRep.processExecute_samePages (h : PageRep m A F) (hv : VaddrRep m A ∅)
    (hf : m.FreshPcb A) (hd : m.HasDir A u d) (hr : m.runningThread ≠ u)
    (heq : processExecute m = (.ok t,m')) : SamePages d kernelHalf m.mem m'.mem := by
  obtain ⟨va,m₁,heq₁,heq⟩ := Exec.bind_eq_ok heq
  obtain ⟨_,m₂,heq₂,heq⟩ := Exec.bind_eq_ok heq
  obtain ⟨_,m₃,heq₃,heq⟩ := Exec.bind_eq_ok heq
  obtain ⟨q,m₄,heq₄,heq⟩ := Exec.bind_eq_ok heq
  have hsame₂ := h.newPcb_samePages hv hd hr heq₁ heq₂
  obtain ⟨p,g,A₂,rfl,hle,hnone,hrep₂,hvad₂,-,hg,hgrows₂,hexc₂,htask₂,hrun₂⟩ :=
    ((h.newPcb_runs hv hf).of_ok heq₁).of_ok heq₂
  have hu : u ≠ 4096*p := fun he => (hf p hnone hle).1 (he ▸ hd.proc)
  have hd₂ : m₂.HasDir A₂ u d := hd.of_le (hexc₂.pgdir hu) fun f => hgrows₂.le _ f
  have hsame₃ := hrep₂.createUserVaddrBitmap_samePages hvad₂ hd₂ heq₃
  obtain ⟨A₃,hrep₃,hvad₃,hgrows₃,hexc₃,hun₃⟩ :=
    (hrep₂.createUserVaddrBitmap_runs hvad₂ (by rw [htask₂]) hrun₂).of_ok heq₃
  have hd₃ : m₃.HasDir A₃ u d := hd₂.of_le (hexc₃.pgdir hu) fun f => hgrows₃.le _ f
  obtain ⟨q,g₄,A₄,rfl,hrep₄,-,-,-,-,hgain⟩ := (hrep₃.createPageDir_runs hvad₃).of_ok heq₄
  obtain ⟨hd₄,hsame₄⟩ := hrep₃.gains_samePages hrep₄ hd₃ hgain (Option.some_ne_none u).symm
  have hexc₄ := (hexc₂.trans hexc₃).trans (.of_setup hgain.setup)
  have hdir := hexc₄.not_dirPage h (hun₃.congr hgain.setup).pgdir hnone
  have hpg := hgain.le (hgrows₃.le _ _ hg)
  obtain ⟨mem',hrun,ho⟩ := hrep₄.enterPgdir_run hpg hrep₄.window
    (hrep₄.dataPages_page (.inl rfl) hpg hdir) (4096*q)
  have hr₄ : m₄.runningThread ≠ u := by rwa [hexc₄.runningThread]
  have heq' := hrun.symm.trans heq
  obtain rfl := (Prod.mk.inj heq').2
  exact ((hsame₂.trans hsame₃).trans hsame₄).trans (hrep₄.only_samePages hd₄ hr₄ ho)

end Pages

namespace PageSys
variable {s s' : PageSys} {A : FrameMap} {t : TaskId} {va : ℕ}

/-- What the thread finds at an address when it has the processor. -/
def seen (s : PageSys) (t : TaskId) (va : ℕ) : Option (BitVec 8) := fetch s.m.mem (s.dir t) va

/-- A step on behalf of another thread. -/
def StepOf (t : TaskId) (s s' : PageSys) : Prop := s.m.runningThread ≠ t ∧ Step s s'

/-- A process is one after the step, has its directory in the same frame and its pages as they
were. -/
structure Undisturbed (t : TaskId) (s s' : PageSys) : Prop where
  proc : s'.m.IsProc t
  dir : s'.dir t = s.dir t
  pages : SamePages (s.dir t) kernelHalf s.m.mem s'.m.mem

theorem Inv.hasDir (h : Inv s A) (ht : s.m.IsProc t) : s.m.HasDir A t (s.dir t) :=
  ⟨ht,h.dir_eq (h.procs t ht)⟩

theorem Undisturbed.of_setup {m' : Machine} {live : Set (Option TaskId × ℕ)} (ht : s.m.IsProc t)
    (hset : m'.setup = s.m.setup) (h : SamePages (s.dir t) kernelHalf s.m.mem m'.mem) :
    Undisturbed t s { s with m := m', live := live } :=
  ⟨(Machine.isProc_congr hset t).mpr ht,rfl,h⟩

/-- A new thread is no process that exists. -/
theorem Undisturbed.of_started {m' : Machine} {A' : FrameMap} {u : TaskId} {home : ℕ}
    (h : Inv s A) (ht : s.m.IsProc t) (hst : Started s.m A u m' A')
    (hsame : SamePages (s.dir t) kernelHalf s.m.mem m'.mem) :
    Undisturbed t s { s with
      m := m'
      threads := insert u s.threads
      home := Function.update s.home u home } := by
  obtain ⟨p,rfl,hle,hnone,-⟩ := hst.pcb
  have hne : t ≠ 4096*p := fun he => (h.freshPcb p hnone hle).1 (he ▸ ht)
  refine ⟨fun hc => ht ((hst.same.pgdir hne).symm.trans hc),?_,hsame⟩
  change Function.update s.home (4096*p) home t/pageSize = _
  rw [Function.update_of_ne hne]
  rfl

/-- One step of another thread. -/
theorem Step.undisturbed (hs : Step s s') (h : Inv s A) (ht : s.m.IsProc t)
    (hr : s.m.runningThread ≠ t) : Undisturbed t s s' := by
  have hrep := h.pageRep
  have hvad := h.vaddrRep
  have hd := h.hasDir ht
  have hspace (pf : PoolFlags) : s.m.space pf ≠ some t := by
    cases pf with
    | kernel => exact (Option.some_ne_none t).symm
    | user => exact fun hc => hr (Option.some.inj hc)
  cases hs with
  | mallocPage heq =>
    obtain ⟨k,A',rfl,hh,hrep'⟩ := (hrep.mallocPage_runs hvad).of_ok heq
    exact .of_setup ht hh.gains.setup (hrep.gains_samePages hrep' hd hh.gains (hspace _)).2
  | @getAPage pf v va m' hc heq =>
    obtain ⟨k,rfl,hk⟩ := hc
    have hin := hvad.inSpace (s.m.reaches_space pf) hk
    obtain ⟨A',-,hrep',-,hg⟩ := (hrep.getAPage_runs hvad hin).of_ok heq
    exact .of_setup ht hg.setup (hrep.gains_samePages hrep' hd hg (hspace _)).2
  | mfreePage hlive heq =>
    obtain ⟨hdir,m₁,events,rfl,hrep₁,hfree⟩ := h.mfreePage_ok hlive heq
    have hsame := hrep.frees_samePages hrep₁ hd hfree (hspace _) hdir
    rw [← m₁.setVaddr_mem] at hsame
    refine .of_setup ht ((Machine.setVaddr_setup ?_).trans hfree.setup) hsame
    rw [Bitmap.setRange_btmpBytesLen,hfree.vbitmap]
  | threadStart heq =>
    obtain ⟨A',-,-,hst,-⟩ := (hrep.threadStart_runs hvad h.freshPcb).of_ok heq
    exact .of_started h ht hst (hrep.threadStart_samePages hvad hd hr heq)
  | processExecute heq =>
    obtain ⟨A',-,-,hst,-⟩ := (hrep.processExecute_runs hvad h.freshPcb).of_ok heq
    exact .of_started h ht hst (hrep.processExecute_samePages hvad h.freshPcb hd hr heq)
  | @switchTask u m' hu heq =>
    obtain ⟨d,hdir,-⟩ := h.home u hu
    obtain ⟨m'',hrun,-,hm'⟩ := hrep.switchTask_eq hdir
    rw [hrun] at heq
    obtain rfl := (Prod.mk.inj heq).2
    rw [hm']
    exact ⟨ht,rfl,.refl _ _ _⟩
  | @store va b m' pf hlive heq =>
    obtain ⟨g,mem',-,hrun,-,ho⟩ := h.storeByte_ok hlive b
    rw [hrun] at heq
    obtain rfl := (Prod.mk.inj heq).2
    exact .of_setup ht rfl (hrep.only_samePages hd hr ho)

theorem Reachable.step (h : Reachable s) (hs : Step s s') : Reachable s' := by
  obtain ⟨allMem,mem,kBlockDesc,hu,hr⟩ := h
  exact ⟨allMem,mem,kBlockDesc,hu,hr.tail hs⟩

theorem Undisturbed.seen_eq (h : Undisturbed t s s') (hva : va < 0xc0000000) :
    s'.seen t va = s.seen t va := by
  have hva' : va < 4096*kernelHalf := hva
  rw [seen,seen,h.dir]
  exact h.pages.fetch_eq hva'

/-- Isolation: while other threads have the processor, whatever operations they call and whatever
they write, a process keeps its pages, and the bytes that it finds at the addresses of its half
stay as they are. -/
theorem reachable_isolated (h : Reachable s) (ht : s.m.IsProc t)
    (hrun : Relation.ReflTransGen (StepOf t) s s') (hva : va < 0xc0000000) :
    s'.seen t va = s.seen t va := by
  have hkey : Reachable s' ∧ s'.m.IsProc t ∧ s'.seen t va = s.seen t va := by
    induction hrun with
    | refl => exact ⟨h,ht,rfl⟩
    | tail _ hstep ih =>
      obtain ⟨hreach,hproc,hseen⟩ := ih
      obtain ⟨A,hi⟩ := hreach.inv
      have hun := hstep.2.undisturbed hi hproc hstep.1
      exact ⟨hreach.step hstep.2,hun.proc,(hun.seen_eq hva).trans hseen⟩
  exact hkey.2.2

/-! A process that runs, with a page of its own. -/

/-- No process has a page table. -/
def NoUserTable (s : PageSys) : Prop :=
  ∀ u i, s.m.IsProc u → i < 768 → target (word s.m.mem (s.dir u) i) = none

theorem Inv.noUserTable_iff (h : Inv s A) : s.NoUserTable ↔ ∀ u i, A (.table u i) = none := by
  have hword {u i} (hu : s.m.IsProc u) (hi : i < 768) :
      target (word s.m.mem (s.dir u) i) = A (.table u i) :=
    h.pageRep.spec _ _ _ (.pde hu (h.dir_eq (h.procs u hu)) hi)
  constructor
  · intro hno u i
    cases hp : A (.table u i) with
    | none => rfl
    | some f =>
      obtain ⟨hu,hi⟩ := h.pageRep.table u i f hp
      rw [← hword hu hi,hno u i hu hi] at hp
      contradiction
  · intro hnone u i hu hi
    rw [hword hu hi,hnone u i]

/-- Without page tables no page of a process is mapped. -/
theorem Inv.noUserPage (h : Inv s A) (hno : s.NoUserTable) (u : TaskId) (v : ℕ) :
    A (.page (some u) v) = none := by
  cases hp : A (.page (some u) v) with
  | none => rfl
  | some f =>
    have htab := (h.pageRep.userPage u v f hp).2.2.2
    rw [h.noUserTable_iff.mp hno] at htab
    contradiction

/-- process_execute where there is room. -/
theorem Inv.execute (h : Inv s A) (hl : s.m.Unlocked) (hno : s.NoUserTable) {ns : List ℕ}
    (hroom : s.m.RoomFor ([1,23,1]++ns)) : ∃ s' t, Step s s' ∧ s'.m.IsProc t ∧ t ∈ s'.threads ∧
      t ≠ mainThread ∧ s'.NoUserTable ∧ s'.m.RoomFor ns ∧ s'.m.len .user = s.m.len .user ∧
      s'.m.kBlockDesc = s.m.kBlockDesc ∧ s'.live = s.live ∧ s.threads ⊆ s'.threads := by
  obtain ⟨t,m',heq,-,hroom'⟩ :=
    (h.pageRep.processExecute_asks h.vaddrRep h.freshPcb hl).returns hroom
  obtain ⟨A',hinv,hst,hproc⟩ := h.of_processExecute heq
  have hlen : m'.len .user = s.m.len .user :=
    congrArg (fun c => (c.pool .user).poolBitmap.btmpBytesLen) hst.same
  have hmain : t ≠ mainThread := by
    obtain ⟨p,rfl,hle,-⟩ := hst.pcb
    exact pcb_ne_mainThread hle
  refine ⟨_,t,.processExecute heq,hproc,.inl rfl,hmain,?_,hroom',hlen,
    congrArg (fun c => c.kBlockDesc) hst.same,rfl,fun _ => .inr⟩
  rw [hinv.noUserTable_iff]
  intro u i
  rw [hst.user _ (by simp),h.noUserTable_iff.mp hno]

/-- The processor goes over to another thread. -/
theorem Inv.switchTo (h : Inv s A) (ht : t ∈ s.threads) : ∃ m', Step s { s with m := m' } ∧
    m'.runningThread = t ∧ m'.mem = s.m.mem ∧ m'.pool = s.m.pool ∧ m'.task = s.m.task ∧
    m'.kBlockDesc = s.m.kBlockDesc := by
  obtain ⟨d,hd,-⟩ := h.home t ht
  obtain ⟨m',hrun,-,rfl⟩ := h.pageRep.switchTask_eq hd
  exact ⟨_,.switchTask ht hrun,rfl,rfl,rfl,rfl,rfl⟩

/-- At most one page and one page table are needed for one page. -/
theorem card_newUses_one (A : FrameMap) (u : TaskId) (v : ℕ) (pf : PoolFlags) :
    ((newUses A (some u) v 1).filter fun x => x.pool = pf).card ≤ 1 := by
  have hsub : (newUses A (some u) v 1).filter (fun x => x.pool = pf) ⊆
      {if pf = .user then Use.page (some u) v else Use.table u (v/1024)} := by
    intro x hx
    obtain ⟨hx,hpool⟩ := Finset.mem_filter.mp hx
    obtain hx|hx := mem_newUses.mp hx
    · obtain ⟨w,h₁,h₂,rfl⟩ := mem_newPages.mp hx
      obtain rfl : w = v := by omega
      rw [← hpool]
      exact Finset.mem_singleton_self _
    · obtain ⟨t,w,hs,h₁,h₂,rfl,-⟩ := mem_newTables.mp hx
      obtain rfl := Option.some.inj hs
      obtain rfl : w = v := by omega
      rw [← hpool]
      exact Finset.mem_singleton_self _
  exact (Finset.card_le_card hsub).trans (Finset.card_singleton _).le

/-- The first page of a process can be had where the kernel has a frame for the page table. -/
theorem Inv.fits_first (h : Inv s A) (hno : s.NoUserTable) (hp : s.m.IsProc s.m.runningThread)
    (hkernel : 0 < s.m.free .kernel) (hlen : 1 < s.m.len .user) : s.m.Fits A .user 1 := by
  have hnone := h.noUserPage hno
  have hclear : ∀ k < 8*94199, (s.m.vbitmap .user).bitmapScanTest k = false := by
    intro k hk
    have hbits := h.vaddrRep.bits (some s.m.runningThread) k
    rw [show ((s.m.vaddr (some s.m.runningThread)).vaddrBitmap.btmpBytesLen) = 94199 from
      h.vaddrRep.userLen _ hp] at hbits
    change (s.m.vaddr (some s.m.runningThread)).vaddrBitmap.bitmapScanTest k = false
    simpa [hnone] using hbits hk
  have hscan : (s.m.vbitmap .user).bitmapScan 1 = some 0 := by
    refine ((s.m.vbitmap .user).bitmapScan_eq_some_iff 1 Nat.one_pos 0).mpr
      ⟨?_,fun i hi => hclear _ (by omega),fun j hj => absurd hj (Nat.not_lt_zero j)⟩
    rw [show (s.m.vbitmap .user).btmpBytesLen = 94199 from h.vaddrRep.userLen _ hp]
    decide
  have huser : 0 < s.m.free .user := by
    refine (Bitmap.clearCount_pos_iff _ _ _).mpr ⟨0,Nat.sub_pos_of_lt hlen,?_⟩
    have hbits := h.pageRep.bits .user 0 (by omega)
    have hunused : ¬ ∃ x, A x = some (s.m.start .user+0) := by
      rintro ⟨x,hx⟩
      obtain ⟨h₁,h₂⟩ := h.pageRep.inPool x _ hx
      have hdis := h.pageRep.disjoint
      cases x with
      | page u v =>
        cases u with
        | none =>
          have hstart := h.pageRep.start_kernel
          simp only [Use.pool] at h₁ h₂
          omega
        | some u => simp [hnone] at hx
      | table u i =>
        have hstart := h.pageRep.start_kernel
        simp only [Use.pool] at h₁ h₂
        omega
    rw [iff_false_intro hunused,or_false] at hbits
    simpa [Machine.bit] using hbits
  refine ⟨Nat.one_pos,by decide,0,hscan,fun pf => (card_newUses_one A _ _ pf).trans ?_⟩
  cases pf with
  | kernel => exact hkernel
  | user => exact huser

/-- A byte of a page in use is written, and the thread finds it there. -/
theorem Inv.storeByte_run (h : Inv s A) {pf : PoolFlags}
    (hl : (s.m.space pf,va/pageSize) ∈ s.live) (b : BitVec 8) : ∃ mem',
      Step s { s with m := s.m.setMem mem' } ∧
      ({ s with m := s.m.setMem mem' } : PageSys).seen s.m.runningThread va = some b := by
  obtain ⟨g,mem',hdata,hrun,hrep',-⟩ := h.storeByte_ok hl b
  have htr : s.m.translate va = some (4096*g+va % 4096) := by
    have hlook : lookup s.m.mem (s.m.cr3/pageSize) (va/4096) = some g := h.pageRep.lookup_data hdata
    rw [Machine.translate,walk,hlook]
    rfl
  have hmem : mem' = store8 s.m.mem (4096*g+va % 4096) b :=
    congrArg Machine.mem (Prod.mk.inj (hrun.symm.trans (storeByte_eq htr))).2
  have hcr3 : s.m.cr3 = s.home s.m.runningThread := h.kernelShared.active
  have hlook : lookup mem' (s.dir s.m.runningThread) (va/4096) = some g := by
    have hlook' := hrep'.lookup_data (m := s.m.setMem mem') hdata
    rwa [dir,← hcr3]
  refine ⟨mem',.store hl hrun,?_⟩
  change (walk mem' (s.dir s.m.runningThread) va).map mem' = some b
  rw [walk,hlook,hmem]
  exact congrArg some (Function.update_self ..)

/-- What malloc_page leaves when the kernel has taken a page. -/
theorem Inv.mallocPage_kernel (h : Inv s A) {m' : Machine}
    (heq : OsKernel.mallocPage .kernel 1 s.m = (.ok va,m')) {ns : List ℕ}
    (hroom : s.m.RoomFor (1 :: ns)) :
    (∀ u, m'.IsProc u ↔ s.m.IsProc u) ∧ m'.RoomFor ns ∧ m'.len .user = s.m.len .user ∧
      m'.kBlockDesc = s.m.kBlockDesc := by
  obtain ⟨k,A₁,-,hh,-⟩ := (h.pageRep.mallocPage_runs h.vaddrRep).of_ok heq
  obtain ⟨p,A₂,-,-,-,-,-,-,hleft⟩ :=
    (h.pageRep.mallocPage_room h.vaddrRep Nat.one_pos (by decide)).of_ok heq
  have hset : m'.setup = s.m.setup := hh.gains.setup
  exact ⟨Machine.isProc_congr hset,(hleft ns).mp hroom,Machine.len_congr hset .user,
    congrArg (fun c => c.kBlockDesc) hset⟩

theorem onePage_m : onePage.m = (mallocPage .kernel 1 smallMachine).2 := by
  simp only [onePage]

theorem smallComputer_len : smallComputer.m.len .user = 992 := rfl

/-- A process has just been started on the small computer, and runs. Main has a page of the
kernel. -/
structure FreshProcess (s : PageSys) (t : TaskId) : Prop where
  reachable : Reachable s
  proc : s.m.IsProc t
  running : s.m.runningThread = t
  main : t ≠ mainThread ∧ mainThread ∈ s.threads
  kernel : (none,0xc0100) ∈ s.live
  noTable : s.NoUserTable
  free : 0 < s.m.free .kernel ∧ 1 < s.m.len .user
  image : s.m.kBlockDesc = 0xc0002000

theorem exists_freshProcess : ∃ s t, FreshProcess s t := by
  have hinv : Inv smallComputer FrameMap.empty := .init heapUnmapped_zero
  obtain ⟨hprocs₀,hroom,hlen,himage⟩ := hinv.mallocPage_kernel onePage_run
    (smallComputer_room (l := [1,1,23,1,1]) (by simp) (by simp))
  rw [← onePage_m] at hprocs₀ hroom hlen himage
  have hno : onePage.NoUserTable :=
    fun u _ hu => absurd ((hprocs₀ u).mp hu) (bootedMachine_isProc u)
  obtain ⟨A,hi⟩ := onePage_reachable.inv
  obtain ⟨s₁,t,hs₁,hproc,ht,hmain,hno₁,hroom₁,hlen₁,himage₁,hlive₁,hthreads⟩ :=
    hi.execute onePage_reachable.unlocked hno hroom
  have hreach₁ := onePage_reachable.step hs₁
  obtain ⟨A₁,hi₁⟩ := hreach₁.inv
  obtain ⟨m₂,hs₂,hrun₂,hmem₂,hpool₂,htask₂,himage₂⟩ := hi₁.switchTo ht
  have hprocs : ∀ u, m₂.IsProc u ↔ s₁.m.IsProc u := fun u => by
    rw [Machine.IsProc,Machine.IsProc,htask₂]
  refine ⟨_,t,hreach₁.step hs₂,(hprocs t).mpr hproc,hrun₂,⟨hmain,hthreads rfl⟩,?_,
    fun u i hu hi => ?_,⟨?_,?_⟩,himage₂.trans (himage₁.trans himage)⟩
  · change _ ∈ s₁.live
    rw [hlive₁]
    exact .inr ⟨rfl,by decide,by decide⟩
  · change target (word m₂.mem _ i) = none
    rw [hmem₂]
    exact hno₁ u i ((hprocs u).mp hu) hi
  · rw [Machine.free,hpool₂]
    exact hroom₁.2
  · rw [Machine.len,hpool₂]
    change 1 < s₁.m.len .user
    rw [hlen₁,hlen,smallComputer_len]
    decide

/-- A process runs and has a page, and main has a page of the kernel. -/
structure TwoPages (s : PageSys) (t : TaskId) (va : ℕ) : Prop where
  reachable : Reachable s
  proc : s.m.IsProc t
  main : t ≠ mainThread ∧ mainThread ∈ s.threads
  running : s.m.runningThread = t
  user : va < 0xc0000000 ∧ (some t,va/pageSize) ∈ s.live
  kernel : (none,0xc0100) ∈ s.live

theorem exists_twoPages : ∃ s t va, TwoPages s t va := by
  obtain ⟨s,t,h⟩ := exists_freshProcess
  obtain ⟨A,hi⟩ := h.reachable.inv
  have hfits := hi.fits_first h.noTable (h.running.symm ▸ h.proc) h.free.1 h.free.2
  have hspace : s.m.space .user = some t := congrArg some h.running
  cases hx : mallocPage .user 1 s.m with
  | mk r m' =>
    cases r with
    | error e => exact absurd hfits ((hi.pageRep.mallocPage_runs hi.vaddrRep).of_error hx)
    | ok va =>
      obtain ⟨k,A',rfl,hh,-⟩ := (hi.pageRep.mallocPage_runs hi.vaddrRep).of_ok hx
      have hset : m'.setup = s.m.setup := hh.gains.setup
      have hreach := h.reachable.step (.mallocPage hx)
      obtain ⟨hin,-⟩ := (hi.vaddrRep.scan Nat.one_pos hh.scan).2 0 Nat.one_pos
      rw [hspace] at hin hreach
      have hlow : 4096*(firstPage (some t)+k) < 0xc0000000 := by
        have hlt : firstPage (some t)+k+0 < kernelHalf := hin.2.2
        unfold kernelHalf at hlt
        omega
      exact ⟨_,t,_,hreach,(Machine.isProc_congr hset t).mpr h.proc,h.main,
        (Machine.runningThread_congr hset).trans h.running,
        ⟨hlow,.inr ⟨hspace.symm,Nat.le_refl _,Nat.lt_succ_self _⟩⟩,.inl h.kernel⟩

/-- The process writes to its page; the processor goes over to main, which writes to the page of
the kernel. The process finds its own byte. -/
theorem reachable_isolated_write : ∃ s s' t va, Reachable s ∧ s.m.IsProc t ∧ va < 0xc0000000 ∧
    s.seen t va = some 7 ∧ StepOf t s s' ∧ s'.seen mainThread 0xc0100000 = some 9 ∧
    s'.seen t va = some 7 := by
  obtain ⟨s,t,va,h⟩ := exists_twoPages
  obtain ⟨A,hi⟩ := h.reachable.inv
  have hspace : s.m.space .user = some t := congrArg some h.running
  obtain ⟨mem₁,hs₁,hseen₁⟩ := hi.storeByte_run (hspace ▸ h.user.2) 7
  have hreach₁ := h.reachable.step hs₁
  obtain ⟨A₁,hi₁⟩ := hreach₁.inv
  obtain ⟨m₂,hs₂,hrun₂,hmem₂,-,htask₂,-⟩ := hi₁.switchTo h.main.2
  have hreach₂ := hreach₁.step hs₂
  obtain ⟨A₂,hi₂⟩ := hreach₂.inv
  have hkernel : (m₂.space .kernel,0xc0100000/pageSize) ∈ s.live := h.kernel
  obtain ⟨mem₃,hs₃,hseen₃⟩ := hi₂.storeByte_run hkernel 9
  have hproc₂ : m₂.IsProc t := by
    rw [Machine.IsProc,htask₂]
    exact h.proc
  have hseen₂ : ({ s with m := m₂ } : PageSys).seen t va = some 7 := by
    rw [← hseen₁,h.running]
    exact congrArg (fun mem => fetch mem (s.dir t) va) hmem₂
  have hother : m₂.runningThread ≠ t := hrun₂ ▸ h.main.1.symm
  have hsame := reachable_isolated hreach₂ hproc₂ (.single ⟨hother,hs₃⟩) h.user.1
  exact ⟨_,_,t,va,hreach₂,hproc₂,h.user.1,hseen₂,⟨hother,hs₃⟩,hrun₂ ▸ hseen₃,hsame.trans hseen₂⟩

/-! What all address spaces have in common. -/

end PageSys
end OsKernel

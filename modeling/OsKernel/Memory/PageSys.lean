import OsKernel.Memory.PageBoot

/-! Runs of the page allocator. One operation follows the other, on behalf of whichever thread
runs: pages are handed out and given back, threads and processes are started, the processor
goes over to another thread, and pages in use are written. -/
namespace OsKernel
open Paging ByteMemory Exec KernelM

/-- The machine, and what the run has done so far: the pages that malloc_page and get_a_page have
handed out and that are still in use, the threads, and for each of them the physical address of
its page directory. -/
structure PageSys where
  m : Machine
  live : Set (Option TaskId × ℕ)
  threads : Set TaskId
  home : TaskId → ℕ

namespace PageSys

/-- The n pages from v on, of the space that the running thread allocates from a pool. -/
def pages (s : PageSys) (pf : PoolFlags) (v n : ℕ) : Set (Option TaskId × ℕ) :=
  { x | x.1 = s.m.space pf ∧ v ≤ x.2 ∧ x.2 < v+n }

/-- The bitmap that get_a_page updates covers the page. -/
def Covers (m : Machine) (pf : PoolFlags) (v : ℕ) : Prop :=
  ∃ k, v = firstPage (m.space pf)+k ∧ k < 8*(m.vaddr (m.space pf)).vaddrBitmap.btmpBytesLen

/-- The operations that return. -/
inductive Step : PageSys → PageSys → Prop
  | mallocPage {s pf n va m'} (h : mallocPage pf n s.m = (.ok va,m')) :
    Step s { s with m := m', live := s.live ∪ s.pages pf (va/pageSize) n }
  | getAPage {s pf v va m'} (hc : Covers s.m pf v)
      (h : getAPage pf (pageSize*v) s.m = (.ok va,m')) :
    Step s { s with m := m', live := s.live ∪ s.pages pf v 1 }
  | mfreePage {s pf v n m'} (hl : s.pages pf v n ⊆ s.live)
      (h : mfreePage pf (pageSize*v) n s.m = (.ok (),m')) :
    Step s { s with m := m', live := s.live \ s.pages pf v n }
  | threadStart {s t m'} (h : threadStart s.m = (.ok t,m')) :
    Step s { s with
      m := m'
      threads := insert t s.threads
      home := Function.update s.home t 0x100000 }
  /-- The directory comes from create_page_dir. -/
  | processExecute {s t m'} (h : processExecute s.m = (.ok t,m')) :
    Step s { s with
      m := m'
      threads := insert t s.threads
      home := Function.update s.home t ((m'.translate (m'.task t).pgdir).getD 0) }
  | switchTask {s t m'} (ht : t ∈ s.threads) (h : switchTask t s.m = (.ok (),m')) :
    Step s { s with m := m' }
  /-- A byte of a page in use is written. -/
  | store {s va b m' pf} (hl : (s.m.space pf,va/pageSize) ∈ s.live)
      (h : storeByte va b s.m = (.ok (),m')) :
    Step s { s with m := m' }

/-- The state that mem_pool_init leaves. -/
def init (allMem : ℕ) (mem : ByteMemory) (kBlockDesc : ℕ) : PageSys where
  m := bootedMachine allMem mem kBlockDesc
  live := ∅
  threads := {mainThread}
  home := fun _ => 0x100000

/-- A state of a run from a booted machine in which no page of the kernel heap is mapped. -/
def Reachable (s : PageSys) : Prop := ∃ allMem mem kBlockDesc,
  HeapUnmapped (bootedMachine allMem mem kBlockDesc) ∧
    Relation.ReflTransGen Step (init allMem mem kBlockDesc) s

/-- What holds after every operation, for a map from the uses of frames to frames. -/
structure Inv (s : PageSys) (A : FrameMap) : Prop where
  pageRep : PageRep s.m A ∅
  vaddrRep : VaddrRep s.m A ∅
  procs : ∀ t, s.m.IsProc t → t ∈ s.threads
  running : s.m.runningThread ∈ s.threads
  pcb : ∀ t, t ∈ s.threads → t = mainThread ∨ ∃ p, t = 4096*p ∧ kernelHeapPage ≤ p ∧
    (A (.page none p)).isSome ∧ (none,p) ∉ s.live
  idle : ∀ t, t ∈ s.threads → ¬ s.m.IsProc t →
    (s.m.task t).userprogVaddr.vaddrBitmap.btmpBytesLen = 0
  home : ∀ t, t ∈ s.threads → ∃ d, s.m.dirOf A t = some d ∧ s.home t = pageSize*d
  live : ∀ x, x ∈ s.live → (A (.page x.1 x.2)).isSome ∧ ¬ s.m.DirPage x.1 x.2

section Invariant
variable {s s' : PageSys} {A A' : FrameMap} {m' : Machine} {live' : Set (Option TaskId × ℕ)}
  {t : TaskId}

theorem Inv.init {allMem : ℕ} {mem : ByteMemory} {kBlockDesc : ℕ}
    (hu : HeapUnmapped (bootedMachine allMem mem kBlockDesc)) :
    Inv (init allMem mem kBlockDesc) FrameMap.empty where
  pageRep := bootedMachine_pageRep hu
  vaddrRep := bootedMachine_vaddrRep
  procs t ht := absurd ht (bootedMachine_isProc t)
  running := rfl
  pcb _ ht := .inl ht
  idle _ _ _ := rfl
  home t _ := ⟨bootDir,Machine.dirOf_of_not_proc (bootedMachine_isProc t),rfl⟩
  live _ hx := absurd hx (Set.notMem_empty _)

/-- The PCB of the main thread is no page of the kernel heap. -/
theorem pcb_ne_mainThread {p : ℕ} (hp : kernelHeapPage ≤ p) : 4096*p ≠ mainThread := by
  intro he
  replace he : 4096*p = 0xc009e000 := he
  unfold kernelHeapPage at hp
  omega

theorem pcb_inj {p q : ℕ} (h : 4096*p = 4096*q) : p = q := by omega

theorem Inv.freshPcb (h : Inv s A) : s.m.FreshPcb A := by
  have hthread : ∀ t p, t ∈ s.threads → t = 4096*p → kernelHeapPage ≤ p →
      (A (.page none p)).isSome := by
    rintro t p ht rfl hp
    obtain hm | ⟨q,hq,-,hsome,-⟩ := h.pcb _ ht
    · exact absurd hm (pcb_ne_mainThread hp)
    · rwa [pcb_inj hq]
  intro p hnone hp
  refine ⟨fun ht => ?_,fun hr => ?_⟩
  · have hs := hthread _ p (h.procs _ ht) rfl hp
    rw [hnone] at hs
    contradiction
  · have hs := hthread _ p h.running hr hp
    rw [hnone] at hs
    contradiction

/-- An operation that changes the pages in use only. -/
theorem Inv.of_setup (h : Inv s A) (hset : m'.setup = s.m.setup) (hrep : PageRep m' A' ∅)
    (hvad : VaddrRep m' A' ∅)
    (hkeep : ∀ p f, (none,p) ∉ s.live → A (.page none p) = some f → A' (.page none p) = some f)
    (hlive : ∀ x, x ∈ live' → (A' (.page x.1 x.2)).isSome ∧
      (x ∈ s.live ∨ A (.page x.1 x.2) = none)) :
    Inv { s with m := m', live := live' } A' := by
  have hproc := Machine.isProc_congr hset
  have hdirLive : ∀ t, s.m.IsProc t → (none,s.m.dirPage t) ∉ s.live :=
    fun t ht hl => (h.live _ hl).2 ⟨rfl,t,ht,rfl⟩
  refine ⟨hrep,hvad,fun t ht => h.procs t ((hproc t).mp ht),?_,fun t ht => ?_,fun t ht hn => ?_,
    fun t ht => ?_,fun x hx => ⟨(hlive x hx).1,fun hd => ?_⟩⟩
  · change m'.runningThread ∈ s.threads
    rw [Machine.runningThread_congr hset]
    exact h.running
  · obtain hm | ⟨p,hp,hle,hsome,hnl⟩ := h.pcb t ht
    · exact .inl hm
    · obtain ⟨f,hf⟩ := Option.isSome_iff_exists.mp hsome
      refine .inr ⟨p,hp,hle,by rw [hkeep p f hnl hf]; rfl,fun hl => ?_⟩
      rcases (hlive _ hl).2 with hc | hc
      · exact hnl hc
      · rw [hf] at hc
        contradiction
  · have hlen := congrArg (fun c => (c.task t).userprogVaddr.vaddrBitmap.btmpBytesLen) hset
    exact hlen.trans (h.idle t ht fun hc => hn ((hproc t).mpr hc))
  · obtain ⟨d,hd,hh⟩ := h.home t ht
    refine ⟨d,?_,hh⟩
    change m'.dirOf A' t = some d
    rw [Machine.dirOf_congr hset]
    by_cases hp : s.m.IsProc t
    · rw [Machine.dirOf_of_proc hp] at hd ⊢
      exact hkeep _ _ (hdirLive t hp) hd
    · rwa [Machine.dirOf_of_not_proc hp] at hd ⊢
  · replace hd := (Machine.dirPage_iff_congr hset x.1 x.2).mp hd
    rcases (hlive x hx).2 with hc | hc
    · exact (h.live x hc).2 hd
    · obtain ⟨hx1,t,ht,hp⟩ := hd
      have := (h.pageRep.dir t ht).2
      rw [hp,← hx1,hc] at this
      contradiction

/-- A new thread. -/
theorem Inv.of_started (h : Inv s A) (hrep : PageRep m' A' ∅) (hvad : VaddrRep m' A' ∅)
    (hst : Started s.m A t m' A') (hidle : ¬ m'.IsProc t →
      (m'.task t).userprogVaddr.vaddrBitmap.btmpBytesLen = 0) {home : ℕ}
    (hhome : ∃ d, m'.dirOf A' t = some d ∧ home = pageSize*d) :
    Inv { s with
      m := m'
      threads := insert t s.threads
      home := Function.update s.home t home } A' := by
  obtain ⟨p,rfl,hle,hnone,hsome,hpdir⟩ := hst.pcb
  have hfresh : 4096*p ∉ s.threads := by
    intro ht
    obtain hm | ⟨q,hq,-,hs,-⟩ := h.pcb _ ht
    · exact pcb_ne_mainThread hle hm
    · rw [← pcb_inj hq,hnone] at hs
      contradiction
  have hne : ∀ u, u ∈ s.threads → u ≠ 4096*p := fun u hu e => hfresh (e ▸ hu)
  have hisSome : ∀ x, (A x).isSome → (A' x).isSome := by
    intro x hx
    obtain ⟨f,hf⟩ := Option.isSome_iff_exists.mp hx
    rw [hst.le x f hf]
    rfl
  refine ⟨hrep,hvad,fun u hu => ?_,?_,fun u hu => ?_,fun u hu hn => ?_,fun u hu => ?_,
    fun x hx => ⟨hisSome _ (h.live x hx).1,fun hd => ?_⟩⟩
  · by_cases hup : u = 4096*p
    · exact .inl hup
    · exact .inr (h.procs u fun hc => hu ((hst.same.pgdir hup).trans hc))
  · change m'.runningThread ∈ _
    rw [hst.same.runningThread]
    exact .inr h.running
  · rcases hu with rfl | hu
    · refine .inr ⟨p,rfl,hle,hsome,fun hl => ?_⟩
      have := (h.live _ hl).1
      rw [hnone] at this
      contradiction
    · obtain hm | ⟨q,hq,hle',hs,hnl⟩ := h.pcb u hu
      · exact .inl hm
      · exact .inr ⟨q,hq,hle',hisSome _ hs,hnl⟩
  · rcases hu with rfl | hu
    · exact hidle hn
    · rw [hst.same.len (hne u hu)]
      exact h.idle u hu fun hc => hc ((hst.same.pgdir (hne u hu)).symm.trans (not_not.mp hn))
  · rcases hu with rfl | hu
    · simpa using hhome
    · obtain ⟨d,hd,hh⟩ := h.home u hu
      refine ⟨d,?_,by simpa [hne u hu] using hh⟩
      have hpg := hst.same.pgdir (hne u hu)
      change m'.dirOf A' u = some d
      by_cases hup : s.m.IsProc u
      · have hdp : m'.dirPage u = s.m.dirPage u := congrArg (fun c => c/pageSize) hpg
        rw [Machine.dirOf_of_proc hup] at hd
        rw [Machine.dirOf_of_proc fun hc => hup (hpg.symm.trans hc),hdp]
        exact hst.le _ _ hd
      · rw [Machine.dirOf_of_not_proc hup] at hd
        rwa [Machine.dirOf_of_not_proc fun hc => hc (hpg.trans (not_not.mp hup))]
  · obtain ⟨hx1,u,hu,hup⟩ := hd
    by_cases hut : u = 4096*p
    · subst hut
      have hdn := hst.dirPage hu
      replace hup : m'.dirPage (4096*p) = x.2 := hup
      rw [hup] at hdn
      have := (h.live x hx).1
      rw [hx1,hdn] at this
      contradiction
    · have hpg := hst.same.pgdir hut
      refine (h.live x hx).2 ⟨hx1,u,fun hc => hu (hpg.trans hc),?_⟩
      rw [← hup,Machine.dirPage,Machine.dirPage]
      exact congrArg (fun c => c/pageSize) hpg.symm

end Invariant

section Steps
variable {s s' : PageSys} {A : FrameMap}

theorem pageSize_mul (v : ℕ) : pageSize*v = 4096*v := rfl

theorem pageSize_div (v : ℕ) : 4096*v/pageSize = v := Nat.mul_div_cancel_left v (by decide)

/-- Pages that have been handed out. -/
theorem Inv.of_gains (h : Inv s A) {m' : Machine} {A' : FrameMap} {pf : PoolFlags} {v n : ℕ}
    (hrep : PageRep m' A' ∅) (hvad : VaddrRep m' A' ∅)
    (hg : Gains s.m A (newUses A (s.m.space pf) v n) m' A') :
    Inv { s with m := m', live := s.live ∪ s.pages pf v n } A' := by
  refine h.of_setup hg.setup hrep hvad (fun p f _ hp => hg.le hp) fun x hx => ?_
  rcases hx with hx | ⟨hx1,h₁,h₂⟩
  · obtain ⟨f,hf⟩ := Option.isSome_iff_exists.mp (h.live x hx).1
    exact ⟨by rw [hg.le hf]; rfl,.inl hx⟩
  · have hn := hg.new (.page x.1 x.2) (by rw [hx1]; exact mem_newUses_page.mpr ⟨rfl,h₁,h₂⟩)
    exact ⟨hn.2,.inr hn.1⟩

/-- The range that mfree_page has taken out of the page tables is cleared in the bitmap. -/
theorem Inv.of_frees (h : Inv s A) {m₁ : Machine} {pf : PoolFlags} {v n : ℕ} (hn : 0 < n)
    (hl : s.pages pf v n ⊆ s.live) (hrep : PageRep m₁ (A.drop (s.m.space pf) v n) ∅)
    (hfree : Frees s.m A m₁ (A.drop (s.m.space pf) v n)) (events : List Event) :
    Inv { s with
      m := { m₁.setVaddr pf ((s.m.vbitmap pf).setRange (v-firstPage (s.m.space pf)) false n) with
        events := events }
      live := s.live \ s.pages pf v n } (A.drop (s.m.space pf) v n) := by
  have hp : ∀ i, i < n → (A (.page (s.m.space pf) (v+i))).isSome :=
    fun i hi => (h.live (s.m.space pf,v+i) (hl ⟨rfl,by dsimp only; omega,by dsimp only; omega⟩)).1
  obtain ⟨f,hf⟩ := Option.isSome_iff_exists.mp (hp 0 hn)
  have hlen : ((s.m.vbitmap pf).setRange (v-firstPage (s.m.space pf)) false n).btmpBytesLen =
      (m₁.vbitmap pf).btmpBytesLen := by
    rw [Bitmap.setRange_btmpBytesLen,hfree.vbitmap]
  have hvad := h.vaddrRep.free hfree hp (h.pageRep.inSpace hf).firstPage_le
  refine h.of_setup ((Machine.setVaddr_setup hlen).trans hfree.setup)
    ((hrep.setVaddr hlen).congr rfl rfl fun _ _ => rfl)
    ⟨hvad.bits,hvad.userStart,hvad.userLen,hvad.kernelLen,hvad.pending⟩
    (fun p f hnl hpf => ?_) fun x hx => ?_
  · rw [FrameMap.drop_page,if_neg,hpf]
    rintro ⟨hs,h₁,h₂⟩
    exact hnl (hl ⟨hs,h₁,h₂⟩)
  · have hnot : ¬ (x.1 = s.m.space pf ∧ v ≤ x.2 ∧ x.2 < v+n) := hx.2
    rw [FrameMap.drop_page,if_neg hnot]
    exact ⟨(h.live x hx.1).1,.inl hx.1⟩

/-- A new process, whose directory is found through the page tables. -/
theorem Inv.of_processExecute (h : Inv s A) {t : TaskId} {m' : Machine}
    (heq : OsKernel.processExecute s.m = (.ok t,m')) : ∃ A', Inv { s with
      m := m'
      threads := insert t s.threads
      home := Function.update s.home t ((m'.translate (m'.task t).pgdir).getD 0) } A' ∧
      Started s.m A t m' A' ∧ m'.IsProc t := by
  obtain ⟨A',hrep',hvad',hst,hproc⟩ :=
    (h.pageRep.processExecute_runs h.vaddrRep h.freshPcb).of_ok heq
  obtain ⟨d,hd⟩ := hrep'.dirOf_isSome t
  refine ⟨A',h.of_started hrep' hvad' hst (fun hn => absurd hproc hn) ⟨d,hd,?_⟩,hst,hproc⟩
  rw [Machine.dirOf_of_proc hproc] at hd
  obtain ⟨d',hd',hc⟩ := hrep'.cr3_eq
  have hin := hrep'.inSpace hd
  have hpage : (m'.task t).pgdir/4096 = m'.dirPage t := rfl
  have hmod : (m'.task t).pgdir % 4096 = 0 := by
    have hpg := (hrep'.dir t hproc).1
    unfold pageSize at hpg
    omega
  rw [Machine.translate,hc,walk,hpage,hrep'.lookup_kernel hd' hin.1 (hin.lt hrep'.toLayout),hd,
    hmod]
  rfl

/-- A byte of a page in use is written to the frame of the page. -/
theorem Inv.storeByte_ok (h : Inv s A) {pf : PoolFlags} {va : ℕ}
    (hl : (s.m.space pf,va/pageSize) ∈ s.live) (b : BitVec 8) :
    ∃ g mem', s.m.dataPages A (va/4096) = some g ∧
      storeByte va b s.m = (.ok (),s.m.setMem mem') ∧ PageRep (s.m.setMem mem') A ∅ ∧
      Only (s.m.dataPages A) Set.univ s.m.mem mem' := by
  have hrep := h.pageRep
  obtain ⟨hsome,hdir⟩ := h.live _ hl
  obtain ⟨g,hg⟩ := Option.isSome_iff_exists.mp hsome
  have hdata : s.m.dataPages A (va/4096) = some g :=
    hrep.dataPages_page (s.m.reaches_space pf) hg hdir
  have hstore : Acts s.m (s.m.dataPages A) Set.univ (storeByte va b) (s.m.data A) () _ :=
    Acts.storeByte hrep.window (hdata ▸ rfl) trivial
  obtain ⟨mem',hrun,hrep',-,ho⟩ := hrep.run_acts hstore
  exact ⟨g,mem',hdata,hrun,hrep',ho⟩

/-- Every operation keeps the invariant. -/
theorem Step.inv (hs : Step s s') (h : Inv s A) : ∃ A', Inv s' A' := by
  have hrep := h.pageRep
  have hvad := h.vaddrRep
  cases hs with
  | mallocPage heq =>
    obtain ⟨k,A',rfl,hh,hrep'⟩ := (hrep.mallocPage_runs hvad).of_ok heq
    rw [pageSize_div]
    exact ⟨A',h.of_gains hrep' (hh.vaddrRep hvad) hh.gains⟩
  | @getAPage pf v va m' hc heq =>
    obtain ⟨k,rfl,hk⟩ := hc
    have hin := hvad.inSpace (s.m.reaches_space pf) hk
    obtain ⟨A',-,hrep',hvad',hg⟩ := (hrep.getAPage_runs hvad hin).of_ok heq
    rw [Set.empty_sdiff] at hvad'
    exact ⟨A',h.of_gains hrep' hvad' hg⟩
  | @mfreePage pf v n m' hl heq =>
    have hn : 0 < n := by
      by_contra hn
      obtain rfl : n = 0 := by omega
      rw [OsKernel.mfreePage,
        Exec.bind_of_error (show mfreeAsserts (pageSize*v) 0 s.m = _ from rfl)] at heq
      simp at heq
    have hp : ∀ i, i < n → (A (.page (s.m.space pf) (v+i))).isSome ∧
        ¬ s.m.DirPage (s.m.space pf) (v+i) :=
      fun i hi => h.live (s.m.space pf,v+i) (hl ⟨rfl,by dsimp only; omega,by dsimp only; omega⟩)
    obtain ⟨m₁,events,hrun,hrep₁,hfree,-⟩ := hrep.mfreePage_eq hvad hn hp
    rw [pageSize_mul,hrun] at heq
    obtain rfl := (Prod.mk.inj heq).2
    exact ⟨_,h.of_frees hn hl hrep₁ hfree events⟩
  | threadStart heq =>
    obtain ⟨A',hrep',hvad',hst,htask⟩ := (hrep.threadStart_runs hvad h.freshPcb).of_ok heq
    refine ⟨A',h.of_started hrep' hvad' hst (fun _ => by rw [htask]) ⟨bootDir,?_,rfl⟩⟩
    exact Machine.dirOf_of_not_proc (by simp [Machine.IsProc,htask])
  | processExecute heq =>
    obtain ⟨A',hinv,-⟩ := h.of_processExecute heq
    exact ⟨A',hinv⟩
  | @switchTask t m' ht heq =>
    obtain ⟨d,hd,-⟩ := h.home t ht
    obtain ⟨m'',hrun,hrep',hm'⟩ := hrep.switchTask_eq hd
    rw [hrun] at heq
    obtain rfl := (Prod.mk.inj heq).2
    refine ⟨A,hrep',?_,?_,?_,h.pcb,?_,?_,?_⟩
    · subst hm'
      exact ⟨hvad.bits,hvad.userStart,hvad.userLen,h.idle t ht,hvad.pending⟩
    · subst hm'
      exact h.procs
    · subst hm'
      exact ht
    · subst hm'
      exact h.idle
    · subst hm'
      exact h.home
    · subst hm'
      exact h.live
  | @store va b m' pf hl heq =>
    obtain ⟨g,mem',-,hrun,hrep',-⟩ := h.storeByte_ok hl b
    rw [hrun] at heq
    obtain rfl := (Prod.mk.inj heq).2
    refine ⟨A,h.of_setup rfl hrep'
      ⟨hvad.bits,hvad.userStart,hvad.userLen,hvad.kernelLen,hvad.pending⟩ (fun _ _ _ hp => hp)
      fun x hx => ⟨(h.live x hx).1,.inl hx⟩⟩

/-- Every state of a run satisfies the invariant. -/
theorem Reachable.inv (h : Reachable s) : ∃ A, Inv s A := by
  obtain ⟨allMem,mem,kBlockDesc,hu,hr⟩ := h
  induction hr with
  | refl => exact ⟨_,.init hu⟩
  | tail _ hs ih =>
    obtain ⟨A,hi⟩ := ih
    exact hs.inv hi

end Steps
end PageSys
end OsKernel

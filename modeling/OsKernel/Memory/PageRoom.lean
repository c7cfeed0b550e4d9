import OsKernel.Memory.PageAgreement
import OsKernel.Memory.PoolUse

/-! When the memory parts of thread_start and process_execute return. They ask get_kernel_pages for
ranges of pages, one after the other, and nothing else in these parts can fail. -/
namespace OsKernel
open Paging ByteMemory Exec KernelM

/-- Nobody holds the lock of a pool. -/
def Machine.Unlocked (m : Machine) : Prop := ∀ pf, (m.pool pf).lock = ⟨none,0⟩

/-- The computation asks for the ranges, returns if there is room for them and fails otherwise.
What is asked for later finds the room that is left. -/
def Asks {α : Type} (x : KernelM α) (m : Machine) (l : List ℕ) : Prop :=
  Runs x m (fun _ m' => m'.Unlocked ∧ ∀ ns, m.RoomFor (l++ns) ↔ m'.RoomFor ns)
    fun _ _ => ∀ ns, ¬ m.RoomFor (l++ns)

section Requests
variable {α β : Type} {m m' m₀ : Machine} {A : FrameMap} {F : Set ℕ} {P : Set (Option TaskId × ℕ)}
  {x : KernelM α} {f : α → KernelM β} {l l' : List ℕ} {p g n : ℕ} {t : TaskId}

theorem Asks.bind (h : Asks x m l) (hf : ∀ a m', x m = (.ok a,m') → m'.Unlocked →
    Asks (f a) m' l') : Asks (x >>= f) m (l++l') := by
  unfold Asks
  cases hx : x m with
  | mk r m' =>
    cases r with
    | error e =>
      rw [Runs,Exec.bind_of_error hx]
      intro ns
      rw [List.append_assoc]
      exact Runs.of_error h hx _
    | ok a =>
      obtain ⟨hl,hroom⟩ := Runs.of_ok h hx
      rw [Runs,Exec.bind_of_ok hx]
      refine Runs.mono (hf a m' hx hl) (fun b m'' hb => ⟨hb.1,fun ns => ?_⟩) fun e m'' he ns => ?_
      · rw [List.append_assoc,hroom,hb.2]
      · rw [List.append_assoc,hroom]
        exact he ns

/-- What follows asks for nothing more. -/
theorem Asks.last (h : Asks x m l) (hf : ∀ a m', x m = (.ok a,m') → m'.Unlocked →
    Asks (f a) m' []) : Asks (x >>= f) m l := by
  rw [← List.append_nil l]
  exact h.bind hf

theorem Asks.first (h : Asks x m []) (hf : ∀ a m', x m = (.ok a,m') → m'.Unlocked →
    Asks (f a) m' l) : Asks (x >>= f) m l := h.bind hf

/-- A computation that asks for nothing. -/
theorem Asks.of_eq {a : α} (h : x m = (.ok a,m')) (hl : m'.Unlocked)
    (hroom : ∀ ns, m.RoomFor ns ↔ m'.RoomFor ns) : Asks x m [] :=
  Runs.of_eq h ⟨hl,hroom⟩

/-- Where there is room, the computation returns, and what is left over is still there. -/
theorem Asks.returns {ns : List ℕ} (h : Asks x m l) (hroom : m.RoomFor (l++ns)) :
    ∃ a m', x m = (.ok a,m') ∧ m'.Unlocked ∧ m'.RoomFor ns := by
  cases hx : x m with
  | mk r m' =>
    cases r with
    | ok a =>
      obtain ⟨hl,hrest⟩ := Runs.of_ok h hx
      exact ⟨a,m',rfl,hl,(hrest ns).mp hroom⟩
    | error e => exact absurd hroom (Runs.of_error h hx ns)

/-- Asks says whether the computation returns. -/
theorem Asks.returns_iff (h : Asks x m l) : (∃ a m', x m = (.ok a,m')) ↔ m.RoomFor l := by
  constructor
  · rintro ⟨a,m',hx⟩
    have hroom := (Runs.of_ok h hx).2 []
    rw [List.append_nil] at hroom
    exact hroom.mpr ⟨trivial,Nat.zero_le _⟩
  · intro hroom
    rw [← List.append_nil l] at hroom
    obtain ⟨a,m',hx,-⟩ := h.returns hroom
    exact ⟨a,m',hx⟩

/-- malloc_page for the kernel leaves the locks alone and uses up the room for its range. -/
theorem PageRep.mallocPage_room (h : PageRep m A F) (hv : VaddrRep m A P) (h₁ : 0 < n)
    (h₂ : n < 3840) :
    Runs (mallocPage .kernel n) m
      (fun va m' => ∃ p A', va = 4096*p ∧ p ≠ 0 ∧ PageRep m' A' F ∧
        (∀ i, i < n → (m'.dataPages A' (p+i)).isSome) ∧ m'.runningThread = m.runningThread ∧
        (∀ pf, (m'.pool pf).lock = (m.pool pf).lock) ∧ ∀ ns, m.RoomFor (n::ns) ↔ m'.RoomFor ns)
      (fun _ _ => ∀ ns, ¬ m.RoomFor (n::ns)) := by
  refine (h.mallocPage_runs hv).mono ?_ fun e m' he ns hroom => ?_
  · rintro _ m' ⟨k,A',rfl,hh,hrep⟩
    refine ⟨firstPage none+k,A',rfl,Nat.ne_of_gt (Nat.add_pos_left (by decide) k),hrep,
      fun i hi => hh.dataPages h hrep hi,Machine.runningThread_congr hh.gains.setup,fun pf => ?_,
      hh.roomFor⟩
    rw [Machine.lock_of_rest hh.grow.rest,Machine.setVaddr_pool]
  · obtain ⟨⟨k,hk,-⟩,hsum⟩ := hroom
    rw [List.sum_cons] at hsum
    exact he ((Machine.fits_kernel h₁ h₂).mpr ⟨⟨k,hk⟩,by omega⟩)

/-- The lock of get_kernel_pages is free again when it returns. -/
theorem PageRep.getKernelPages_asks (h : PageRep m A F) (hv : VaddrRep m A P) (hl : m.Unlocked)
    (h₁ : 0 < n) (h₂ : n < 3840) : Asks (getKernelPages n) m [n] := by
  have hroom₀ (ns : List ℕ) : m.RoomFor ns ↔
      (m.setLock .kernel ⟨some m.runningThread,1⟩).RoomFor ns := by
    rw [Machine.RoomFor,Machine.RoomFor,Machine.setLock_free]
    rfl
  unfold Asks
  simp only [List.cons_append,List.nil_append,hroom₀]
  rw [getKernelPages,getPages,Runs,Exec.bind_of_ok (lockAcquire_free (hl .kernel))]
  change Runs _ _ _ _
  refine Runs.bind (h.setLock.mallocPage_room hv.setLock h₁ h₂) ?_
  rintro _ m₁ ⟨p,A',rfl,hp,hrep,hdata,hcur,hlock,hroom⟩
  have hne : 4096*p ≠ 0 := by omega
  have hset : Acts m₁ (m₁.dataPages A') Set.univ (memset (4096*p) 0 (n*pageSize)) (m₁.data A') ()
      _ := Acts.memset hrep.window hne fun i hi => by
    rw [show (4096*p+i)/4096 = p+i/4096 by omega]
    exact ⟨hdata _ (by unfold pageSize at hi; omega),trivial⟩
  obtain ⟨mem',hrun,-⟩ := hrep.run_acts hset
  have hown : (((m₁.setMem mem').pool .kernel)).lock = ⟨some (m₁.setMem mem').runningThread,1⟩ := by
    change (m₁.pool .kernel).lock = ⟨some m₁.runningThread,1⟩
    rw [hlock,hcur,m.setLock_pool,if_pos rfl]
    rfl
  rw [Runs,Exec.bind_of_ok (kassert_eq hne),Exec.bind_of_ok hrun,
    Exec.bind_of_ok (lockRelease_once hown)]
  refine ⟨fun pf => ?_,fun ns => ?_⟩
  · rw [Machine.setLock_pool]
    split_ifs with hpf
    · rfl
    · change (m₁.pool pf).lock = _
      rw [hlock,m.setLock_pool,if_neg hpf]
      exact hl pf
  · rw [hroom,Machine.RoomFor,Machine.RoomFor,Machine.setLock_free]
    rfl

/-- init_thread writes to the page of the PCB only. -/
theorem PageRep.initThread_run (h : PageRep m A F) (hp : m.dataPages A p = some g) (hp0 : p ≠ 0) :
    ∃ mem', initThread (4096*p) m =
        (.ok (),(m.setMem mem').setTask (4096*p) ⟨0,⟨⟨0,fun _ => 0⟩,0⟩⟩) ∧
      Only (m.dataPages A) Set.univ m.mem mem' := by
  have hset : Acts m (m.dataPages A) Set.univ (memset (4096*p) 0 taskStructSize) (m.data A) () _ :=
    Acts.memset h.window (by omega) fun k hk => by
      unfold taskStructSize at hk
      rw [show (4096*p+k)/4096 = p by omega,hp]
      exact ⟨rfl,trivial⟩
  obtain ⟨mem',hrun,-,-,ho⟩ := h.run_acts hset
  refine ⟨mem',?_,ho⟩
  rw [initThread,Exec.bind_of_ok hrun]
  rfl

/-- A page that get_kernel_pages has handed out. -/
theorem PageRep.kernelPage_ok (h : PageRep m A F) (hv : VaddrRep m A P) {va : ℕ}
    (heq : getKernelPages n m = (.ok va,m')) : ∃ p g A', va = 4096*p ∧ p ≠ 0 ∧ PageRep m' A' F ∧
      VaddrRep m' A' P ∧ Gains m A (newUses A none p n) m' A' ∧ A (.page none p) = none ∧
      A' (.page none p) = some g ∧ m'.dataPages A' p = some g ∧
      ∀ i, i < n*pageSize → m'.data A' (4096*p+i) = 0 := by
  obtain ⟨k,A',rfl,hn,hrep,hvad,hgain,hzero⟩ := (h.getPages_runs hv).of_ok heq
  rw [show m.space .kernel = none from rfl] at hgain hzero ⊢
  obtain ⟨hnone,-,g,hg,hdata⟩ := hgain.new_page h hrep (page_mem_newUses hn)
  exact ⟨firstPage none+k,g,A',rfl,Nat.ne_of_gt (Nat.add_pos_left (by decide) k),hrep,hvad,hgain,
    hnone,hg,hdata,hzero⟩

theorem PageRep.initThread_asks (h : PageRep m A F) (hl : m.Unlocked)
    (hp : m.dataPages A p = some g) (hp0 : p ≠ 0) : Asks (initThread (4096*p)) m [] := by
  obtain ⟨mem',hrun,-⟩ := h.initThread_run hp hp0
  exact .of_eq hrun hl fun _ => Iff.rfl

theorem PageRep.threadStart_asks (h : PageRep m A F) (hv : VaddrRep m A P) (hl : m.Unlocked) :
    Asks threadStart m [1] := by
  refine (h.getKernelPages_asks hv hl Nat.one_pos (by decide)).last ?_
  intro va m₁ heq hl₁
  obtain ⟨p,g,A₁,rfl,hp0,hrep,-,-,-,-,hdata,-⟩ := h.kernelPage_ok hv heq
  refine (hrep.initThread_asks hl₁ hdata hp0).first ?_
  intro _ m₂ _ hl₂
  exact .of_eq rfl hl₂ fun _ => Iff.rfl

theorem PageRep.createUserVaddrBitmap_asks (h : PageRep m A F) (hv : VaddrRep m A P)
    (hl : m.Unlocked) : Asks (createUserVaddrBitmap t) m [23] := by
  refine (h.getKernelPages_asks hv hl (by decide) (by decide)).last ?_
  intro va m₁ _ hl₁
  exact .of_eq rfl hl₁ fun _ => Iff.rfl

/-- Once it has the page, create_page_dir writes to it and returns. -/
theorem PageRep.createPageDir_asks (h : PageRep m A F) (hv : VaddrRep m A P) (hl : m.Unlocked) :
    Asks createPageDir m [1] := by
  refine (h.getKernelPages_asks hv hl Nat.one_pos (by decide)).last ?_
  intro va m₁ heq hl₁
  obtain ⟨p,g,A₁,rfl,hp0,hrep,-,-,-,hg,hdata,hzero⟩ := h.kernelPage_ok hv heq
  obtain ⟨mem',hcopy,ho,-⟩ := hrep.copyDir hdata fun i hi =>
    Machine.word_of_data hdata (fun j hj => hzero j (by unfold pageSize; omega)) hi
  have hrep₂ : PageRep (m₁.setMem mem') A₁ F := hrep.setData ho
  have htr : (m₁.setMem mem').translate (4096*p+4*1023) = some (4096*g+4*1023) := by
    have hlook : lookup (m₁.setMem mem').mem ((m₁.setMem mem').cr3/pageSize) p = some g :=
      hrep₂.lookup_data (m := m₁.setMem mem') hdata
    rw [Machine.translate,walk,show (4096*p+4*1023)/4096 = p by omega,hlook,
      show (4096*p+4*1023) % 4096 = 4*1023 by omega]
    rfl
  rw [Asks,Runs,Exec.bind_of_ok hcopy,Exec.bind_of_ok (hrep₂.addrV2p_eq hg (.inl rfl)),
    Exec.bind_of_ok (store_eq htr)]
  exact ⟨hl₁,fun _ => Iff.rfl⟩

theorem PageRep.processExecute_asks (h : PageRep m A F) (hv : VaddrRep m A ∅) (hf : m.FreshPcb A)
    (hl : m.Unlocked) : Asks processExecute m [1,23,1] := by
  refine (h.getKernelPages_asks hv hl Nat.one_pos (by decide)).bind ?_
  intro va m₁ heq₁ hl₁
  obtain ⟨p',g',A₁,rfl,hp0,hrep₁,-,-,-,-,hdata₁,-⟩ := h.kernelPage_ok hv heq₁
  refine (hrep₁.initThread_asks hl₁ hdata₁ hp0).first ?_
  intro _ m₂ heq₂ hl₂
  obtain ⟨p,g,A₂,hpp,-,hnone,hrep₂,hvad₂,-,hg,-,hsame₂,htask₂,hrun₂⟩ :=
    ((h.newPcb_runs hv hf).of_ok heq₁).of_ok heq₂
  obtain rfl := PageSys.pcb_inj hpp
  refine (hrep₂.createUserVaddrBitmap_asks hvad₂ hl₂).bind ?_
  intro _ m₃ heq₃ hl₃
  obtain ⟨A₃,hrep₃,hvad₃,hgrows₃,hsame₃,hun₃⟩ :=
    (hrep₂.createUserVaddrBitmap_runs hvad₂ (by rw [htask₂]) hrun₂).of_ok heq₃
  refine (hrep₃.createPageDir_asks hvad₃ hl₃).last ?_
  intro _ m₄ heq₄ hl₄
  obtain ⟨q,g₄,A₄,rfl,hrep₄,-,-,-,-,hgain⟩ := (hrep₃.createPageDir_runs hvad₃).of_ok heq₄
  have hdir := ((hsame₂.trans hsame₃).trans (.of_setup hgain.setup)).not_dirPage h
    (hun₃.congr hgain.setup).pgdir hnone
  have hpg := hgain.le (hgrows₃.le _ _ hg)
  obtain ⟨mem',hrun,-⟩ := hrep₄.enterPgdir_run hpg hrep₄.window
    (hrep₄.dataPages_page (.inl rfl) hpg hdir) (4096*q)
  exact .of_eq hrun hl₄ fun _ => Iff.rfl

end Requests

section Locks
variable {m m' : Machine} {pf : PoolFlags} {vaddr pa : ℕ}

/-- get_a_page gives the lock back, unless it returns NULL. -/
theorem getAPage_unlocked (hl : m.Unlocked) (hne : pa ≠ 0)
    (heq : getAPage pf vaddr m = (.ok pa,m')) : m'.Unlocked := by
  rw [getAPage,Exec.bind_of_ok (lockAcquire_free (hl pf))] at heq
  obtain ⟨_,m₁,hmark,heq⟩ := Exec.bind_eq_ok heq
  obtain ⟨frame,m₂,hpalloc,heq⟩ := Exec.bind_eq_ok heq
  have huse₂ := (Machine.Uses.of_moves (markPage_uses fun _ => Set.mem_univ _) hmark).trans
    (.of_moves (palloc_uses (Set.mem_univ pf)) hpalloc)
  split_ifs at heq with hz
  · exact absurd (Except.ok.inj (Prod.mk.inj heq).1).symm hne
  · obtain ⟨_,m₃,hadd,heq⟩ := Exec.bind_eq_ok heq
    have huse₃ := huse₂.trans (.of_moves (pageTableAdd_uses (Set.mem_univ _)) hadd)
    have hown : (m₃.pool pf).lock = ⟨some m₃.runningThread,1⟩ := by
      rw [huse₃.lock,huse₃.runningThread,m.setLock_pool,if_pos rfl]
      rfl
    rw [Exec.bind_of_ok (lockRelease_once hown)] at heq
    obtain rfl := (Prod.mk.inj heq).2
    intro pf'
    rw [Machine.setLock_pool]
    split_ifs with hpf
    · rfl
    · rw [huse₃.lock,m.setLock_pool,if_neg hpf]
      exact hl pf'

end Locks

namespace PageSys
variable {s s' : PageSys} {A : FrameMap}

/-- mfree_page of pages in use. -/
theorem Inv.mfreePage_ok (h : Inv s A) {pf : PoolFlags} {v n : ℕ} {m' : Machine}
    (hl : s.pages pf v n ⊆ s.live) (heq : OsKernel.mfreePage pf (pageSize*v) n s.m = (.ok (),m')) :
    (∀ w, v ≤ w → w < v+n → ¬ s.m.DirPage (s.m.space pf) w) ∧ ∃ m₁ events,
      m' = { m₁.setVaddr pf ((s.m.vbitmap pf).setRange (v-firstPage (s.m.space pf)) false n) with
        events := events } ∧
      PageRep m₁ (A.drop (s.m.space pf) v n) ∅ ∧ Frees s.m A m₁ (A.drop (s.m.space pf) v n) := by
  have hlive : ∀ w, v ≤ w → w < v+n → (A (.page (s.m.space pf) w)).isSome ∧
      ¬ s.m.DirPage (s.m.space pf) w := fun w h₁ h₂ => h.live (s.m.space pf,w) (hl ⟨rfl,h₁,h₂⟩)
  have hn : 0 < n := by
    by_contra hn
    obtain rfl : n = 0 := by omega
    rw [OsKernel.mfreePage,
      Exec.bind_of_error (show mfreeAsserts (pageSize*v) 0 s.m = _ from rfl)] at heq
    simp at heq
  obtain ⟨m₁,events,hrun,hrep₁,hfree,-⟩ := h.pageRep.mfreePage_eq h.vaddrRep hn fun i hi =>
    hlive (v+i) (by omega) (by omega)
  rw [pageSize_mul,hrun] at heq
  exact ⟨fun w h₁ h₂ => (hlive w h₁ h₂).2,m₁,events,(Prod.mk.inj heq).2.symm,hrep₁,hfree⟩

/-- No operation that returns leaves a lock taken. -/
theorem Step.unlocked (hs : Step s s') (h : Inv s A) (hl : s.m.Unlocked) : s'.m.Unlocked := by
  have hrep := h.pageRep
  have hvad := h.vaddrRep
  cases hs with
  | mallocPage heq =>
    obtain ⟨k,A',-,hh,-⟩ := (hrep.mallocPage_runs hvad).of_ok heq
    intro pf
    refine (Machine.lock_of_rest hh.grow.rest pf).trans ?_
    rw [Machine.setVaddr_pool]
    exact hl pf
  | @getAPage pf v va m' hc heq =>
    obtain ⟨k,rfl,hk⟩ := hc
    have hin := hvad.inSpace (s.m.reaches_space pf) hk
    obtain ⟨A',rfl,-⟩ := (hrep.getAPage_runs hvad hin).of_ok heq
    refine getAPage_unlocked hl ?_ heq
    have hpos : 0 < firstPage (s.m.space pf) := by
      cases pf <;> simp [Machine.space,firstPage,userStartPage,kernelHeapPage]
    omega
  | mfreePage hlive heq =>
    obtain ⟨-,m₁,events,rfl,-,hfree⟩ := h.mfreePage_ok hlive heq
    intro pf
    refine Eq.trans ?_ ((hfree.lock pf).trans (hl pf))
    exact congrArg (fun pool => (pool pf).lock) (m₁.setVaddr_pool _ _)
  | threadStart heq => exact (Runs.of_ok (hrep.threadStart_asks hvad hl) heq).1
  | processExecute heq => exact (Runs.of_ok (hrep.processExecute_asks hvad h.freshPcb hl) heq).1
  | @switchTask t m' ht heq =>
    obtain ⟨d,hd,-⟩ := h.home t ht
    obtain ⟨m'',hrun,-,hm'⟩ := hrep.switchTask_eq hd
    rw [hrun] at heq
    obtain rfl := (Prod.mk.inj heq).2
    rw [hm']
    exact hl
  | store hlive heq =>
    intro pf
    exact ((Machine.Uses.of_moves (S := ∅) storeByte_uses heq).lock pf).trans (hl pf)

theorem Reachable.unlocked (h : Reachable s) : s.m.Unlocked := by
  obtain ⟨allMem,mem,kBlockDesc,hu,hr⟩ := h
  induction hr with
  | refl =>
    intro pf
    cases pf <;> rfl
  | tail hr hs ih =>
    obtain ⟨A,hi⟩ := Reachable.inv ⟨allMem,mem,kBlockDesc,hu,hr⟩
    exact hs.unlocked hi ih

/-- How the memory parts of thread_start and process_execute end. -/
structure Starts (s : PageSys) : Prop where
  unlocked : s.m.Unlocked
  thread : (∃ t m', threadStart s.m = (.ok t,m')) ↔ s.m.RoomFor [1]
  process : (∃ t m', processExecute s.m = (.ok t,m')) ↔ s.m.RoomFor [1,23,1]

/-- In every state of every run no lock is taken, the memory part of thread_start returns exactly
when there is room for one page, and that of process_execute exactly when there is room for a page,
for the 23 pages of a bitmap and for a directory. -/
theorem reachable_starts (h : Reachable s) : Starts s := by
  obtain ⟨A,hi⟩ := h.inv
  exact ⟨h.unlocked,(hi.pageRep.threadStart_asks hi.vaddrRep h.unlocked).returns_iff,
    (hi.pageRep.processExecute_asks hi.vaddrRep hi.freshPcb h.unlocked).returns_iff⟩

end PageSys

/-- The small computer can start a thread, and it can start a process. -/
theorem PageSys.reachable_starts_small : (∃ t m', threadStart smallComputer.m = (.ok t,m')) ∧
    ∃ t m', processExecute smallComputer.m = (.ok t,m') := by
  have h := reachable_starts smallComputer_reachable
  exact ⟨h.thread.mpr (smallComputer_room (by simp) (by simp)),
    h.process.mpr (smallComputer_room (by simp) (by simp))⟩

end OsKernel

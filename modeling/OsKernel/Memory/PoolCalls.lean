import OsKernel.Memory.HeapOutcome
import OsKernel.Memory.Isolation
import OsKernel.Memory.PoolLocks

/-! The calls of the page allocator and of the heap, from any state that a run can reach, and which
of them use the pools under their locks only. -/
namespace OsKernel
open Paging ByteMemory Exec KernelM IntrusiveList

/-! The heap itself works on memory. It uses the pools through malloc_page and mfree_page. -/
section Uses
variable {S : Set PoolFlags} {pf : PoolFlags} {va v a desc elem plist fuel blockIdx : ℕ}

theorem loadWord_uses : Moves (Machine.Uses S) (loadWord va) :=
  .ite load_uses (.bind loadByte_uses fun _ => .bind loadByte_uses fun _ =>
    .bind loadByte_uses fun _ => .bind loadByte_uses fun _ => .pure _)

theorem storeWord_uses : Moves (Machine.Uses S) (storeWord va v) :=
  .ite store_uses (.bind physical_uses fun _ => .bind physical_uses fun _ =>
    .bind storeByte_uses fun _ => .bind storeByte_uses fun _ => .bind storeByte_uses fun _ =>
      storeByte_uses)

theorem listAppend_uses : Moves (Machine.Uses S) (listAppend plist elem) :=
  .bind loadWord_uses fun _ => .bind storeWord_uses fun _ => .bind storeWord_uses fun _ =>
    .bind loadWord_uses fun _ => .bind storeWord_uses fun _ => storeWord_uses

theorem listRemove_uses : Moves (Machine.Uses S) (listRemove elem) :=
  .bind loadWord_uses fun _ => .bind loadWord_uses fun _ => .bind storeWord_uses fun _ =>
    .bind loadWord_uses fun _ => .bind loadWord_uses fun _ => storeWord_uses

theorem listPop_uses : Moves (Machine.Uses S) (listPop plist) :=
  .bind loadWord_uses fun _ => .bind kassert_uses fun _ => .bind loadWord_uses fun _ =>
    .bind loadWord_uses fun _ => .bind listRemove_uses fun _ => .pure _

theorem elemFindLoop_uses : Moves (Machine.Uses S) (elemFindLoop plist elem fuel va) := by
  induction fuel generalizing va with
  | zero => exact .throw _
  | succ fuel ih => exact .ite (.pure _) (.ite (.pure _) (.bind loadWord_uses fun _ => ih))

theorem elemFind_uses : Moves (Machine.Uses S) (elemFind plist elem) :=
  .bind loadWord_uses fun _ => elemFindLoop_uses

theorem arena2block_uses : Moves (Machine.Uses S) (arena2block a blockIdx) :=
  .bind loadWord_uses fun _ => .bind loadWord_uses fun _ => .pure _

theorem makeBlocks_uses : Moves (Machine.Uses S) (makeBlocks desc a fuel blockIdx) := by
  induction fuel generalizing blockIdx with
  | zero => exact .throw _
  | succ fuel ih =>
    refine .bind loadWord_uses fun _ => .ite ?_ (.pure _)
    exact .bind arena2block_uses fun _ => .bind loadWord_uses fun _ => .bind elemFind_uses fun _ =>
      .bind kassert_uses fun _ => .bind loadWord_uses fun _ => .bind listAppend_uses fun _ => ih

theorem makeArena_uses : Moves (Machine.Uses S) (makeArena desc a) :=
  .bind memset_uses fun _ => .bind storeWord_uses fun _ => .bind storeWord_uses fun _ =>
    .bind loadWord_uses fun _ => .bind storeWord_uses fun _ => makeBlocks_uses

theorem largeHeader_uses {pgCnt : ℕ} : Moves (Machine.Uses S) (largeHeader a pgCnt) :=
  .bind memset_uses fun _ => .bind storeWord_uses fun _ => .bind storeWord_uses fun _ =>
    storeWord_uses

theorem takeBlock_quiet : Moves Machine.Quiet (takeBlock pf desc) :=
  .bind (Machine.Uses.moves_quiet listPop_uses) fun _ =>
    .bind (Machine.Uses.moves_quiet loadWord_uses) fun _ =>
    .bind (Machine.Uses.moves_quiet memset_uses) fun _ =>
    .bind (Machine.Uses.moves_quiet loadWord_uses) fun _ =>
    .bind (Machine.Uses.moves_quiet storeWord_uses) fun _ =>
    .bind lockRelease_quiet fun _ => .pure _

end Uses

section Malloc
variable {m₀ m : Machine} {A A₀ : FrameMap} {s : HeapSys} {H : Heap} {pf : PoolFlags}
  {n size desc : ℕ}

theorem mallocArena_guarded_iff :
    m.Guarded (mallocArena pf desc m).2 ↔ m.Guarded (mallocPage pf 1 m).2 := by
  unfold mallocArena
  refine Machine.guarded_bind_quiet fun _ => .ite (.bind lockRelease_quiet fun _ => .pure _) ?_
  exact .bind (Machine.Uses.moves_quiet makeArena_uses) fun _ => takeBlock_quiet

theorem mallocLarge_guarded_iff : m.Guarded (mallocLarge pf size m).2 ↔
    m.Guarded (mallocPage pf (divRoundUp (size+arenaSize) pageSize) m).2 := by
  rw [mallocLarge_eq]
  generalize divRoundUp (size+arenaSize) pageSize = n
  refine Machine.guarded_bind_quiet fun _ => .ite ?_ (.bind lockRelease_quiet fun _ => .pure _)
  exact .bind (Machine.Uses.moves_quiet largeHeader_uses) fun _ =>
    .bind lockRelease_quiet fun _ => .pure _

/-- The page tables are those of the same map. -/
theorem HeapRep.sheltered_setMem {mem' : ByteMemory} (h : HeapRep m₀ A₀ m A H)
    (h' : HeapRep m₀ A₀ (m.setMem mem') A H) :
    (m.setMem mem').Sheltered pf n ↔ m.Sheltered pf n := by
  unfold Machine.Sheltered
  rw [h.rep.hasTables_iff h.vad,h'.rep.hasTables_iff h'.vad]
  rfl

/-- The branch for at most 1024 bytes. -/
theorem HeapRep.mallocSmall_guarded_iff (h : HeapRep m₀ A₀ m A H) (hs : size ≤ 1024)
    (hheld : m.holds pf = true) : m.Guarded (mallocSmall pf m₀.descs size m).2 ↔
      ∃ c, IsClass c size ∧ (H.free c ≠ [] ∨ m.Sheltered pf 1) := by
  obtain ⟨c,mem',hc,h',-,heq⟩ := h.mallocSmall_eq hs pf
  have hclass : (∃ c, IsClass c size ∧ (H.free c ≠ [] ∨ m.Sheltered pf 1)) ↔
      H.free c ≠ [] ∨ m.Sheltered pf 1 := by
    refine ⟨fun ⟨d,hd,hd'⟩ => ?_,fun hd => ⟨c,hc,hd⟩⟩
    rwa [hc.unique hd]
  have hmem : m.events = (m.setMem mem').events := rfl
  rw [hclass,heq,Machine.guarded_congr hmem rfl]
  by_cases hempty : H.free c = []
  · rw [if_pos hempty,mallocArena_guarded_iff,h'.rep.mallocPage_guarded_iff h'.vad hheld,
      h.sheltered_setMem h',or_iff_right (not_not_intro hempty)]
  · rw [if_neg hempty]
    have hquiet : (m.setMem mem').Quiet (takeBlock pf (m₀.descs+24*c.val) (m.setMem mem')).2 :=
      takeBlock_quiet _
    have hguarded := (Machine.guarded_congr rfl hquiet).mpr (m.setMem mem').guarded_refl
    exact iff_of_true hguarded (.inl hempty)

/-- When sys_malloc needs no other pool than its own, read off the lists, the bitmaps and the page
directory. -/
def Machine.MallocSheltered (m : Machine) (size : ℕ) : Prop :=
  (m.pool m.ownPool).poolSize < size ∨
    if 1024 < size then m.Sheltered m.ownPool (divRoundUp (size+arenaSize) pageSize)
    else ∃ c, IsClass c size ∧
      (load32 m.bytes (freeListAt m.descs c+4) ≠ freeListAt m.descs c+8 ∨ m.Sheltered m.ownPool 1)

theorem HeapSys.Inv.sysMalloc_guarded_iff {F : Set ℕ} (h : HeapSys.Inv m₀ A₀ s A H)
    (h₀ : PageRep m₀ A₀ F) :
    s.m.Guarded (sysMalloc size s.m).2 ↔ s.m.MallocSheltered size := by
  have hlists := (h.conserves h₀).lists
  have hempty (c : Fin 7) :
      load32 s.m.bytes (freeListAt s.m.descs c+4) = freeListAt s.m.descs c+8 ↔ H.free c = [] :=
    hlists.isEmpty_iff c
  have hlock : (s.m.pool s.m.ownPool).lock = ⟨none,0⟩ := by
    rw [Machine.ownPool_congr h.rep.setup]
    exact h.lock
  have hacq := lockAcquire_free hlock
  have hheld := (lockAcquire_holds s.m s.m.ownPool).of_ok hacq
  have h₁ := h.rep.setLock s.m.ownPool ⟨some s.m.runningThread,1⟩
  unfold Machine.MallocSheltered
  simp only [Ne,hempty]
  rw [sysMalloc_eq]
  by_cases hbig : (s.m.pool s.m.ownPool).poolSize < size
  · rw [if_pos hbig]
    exact iff_of_true s.m.guarded_refl (.inl hbig)
  rw [if_neg hbig,or_iff_right hbig,Machine.guarded_of_bind hacq rfl]
  by_cases hlarge : 1024 < size
  · rw [if_pos hlarge,if_pos hlarge,mallocLarge_guarded_iff,
      h₁.rep.mallocPage_guarded_iff h₁.vad hheld,Machine.sheltered_setLock]
  · rw [if_neg hlarge,if_neg hlarge,Machine.descs_congr h.rep.setup,
      h₁.mallocSmall_guarded_iff (Nat.le_of_not_lt hlarge) hheld,Machine.sheltered_setLock]

end Malloc

/-- A state in which no call is under way, with the lock that the running thread needs. -/
structure Machine.Between (m : Machine) (A : FrameMap) : Prop where
  rep : PageRep m A ∅
  vad : VaddrRep m A ∅
  lock : m.IsProc m.runningThread → (m.pool .user).lock = ⟨none,0⟩
  idle : ¬ m.IsProc m.runningThread → (m.vbitmap .user).btmpBytesLen = 0

section Between
variable {m m₀ : Machine} {A : FrameMap} {n vaddr : ℕ}

theorem PageSys.Reachable.between {s : PageSys} (h : s.Reachable) : ∃ A, s.m.Between A := by
  obtain ⟨A,hi⟩ := h.inv
  exact ⟨A,hi.pageRep,hi.vaddrRep,fun _ => h.unlocked .user,fun hp => hi.idle _ hi.running hp⟩

theorem HeapSys.Reachable.between {s : HeapSys} (h : HeapSys.Reachable m₀ s) (hs : HeapStart m₀) :
    ∃ A, s.m.Between A := by
  obtain ⟨A₀,hrep₀,hlock₀⟩ := hs.rep
  obtain ⟨A,H,hinv⟩ := h.inv hrep₀ hlock₀
  obtain ⟨s₀,hs₀,hk,-,hrun⟩ := hs
  obtain ⟨A₁,hi,hp⟩ := hs₀.inv_apart
  obtain ⟨mem',hrun',-⟩ := hi.blockDescInit_run hp hk
  rw [hrun'] at hrun
  obtain rfl := (Prod.mk.inj hrun).2
  have hset : s.m.setup = s₀.m.setup := hinv.rep.setup
  have hproc : s.m.IsProc s.m.runningThread ↔ s₀.m.IsProc s₀.m.runningThread := by
    rw [Machine.runningThread_congr hset,Machine.isProc_congr hset]
  refine ⟨A,hinv.rep.rep,hinv.rep.vad,fun hp => ?_,fun hn => ?_⟩
  · have hown : s₀.m.ownPool = .user := if_neg (hproc.mp hp)
    exact hown ▸ hinv.lock
  · have hlen := hi.idle _ hi.running (mt hproc.mpr hn)
    exact (congrArg (fun m => (m.vbitmap .user).btmpBytesLen) hset).trans hlen

theorem Machine.Between.getUserPages_guarded_iff (h : m.Between A) :
    m.Guarded (getUserPages n m).2 ↔ m.Sheltered .user n := by
  by_cases hp : m.IsProc m.runningThread
  · exact h.rep.getPages_guarded_iff h.vad (h.lock hp)
  · -- a thread of the kernel has no addresses to allocate
    have hs : m.Sheltered .user n := by
      refine .inr (.inr fun hn _ k hk => ?_)
      have hle := (((m.vbitmap .user).bitmapScan_eq_some_iff n hn k).mp hk).1
      rw [h.idle hp] at hle
      omega
    exact iff_of_true (h.rep.getPages_guarded h.vad hs) hs

/-- get_a_page panics when a thread of the kernel asks for a page of a process. -/
theorem getAPage_user_guarded (hp : ¬ m.IsProc m.runningThread) :
    m.Guarded (getAPage .user vaddr m).2 := by
  rw [getAPage_eq]
  refine Machine.guarded_locked fun l _ => ?_
  have hmark : markPage .user vaddr (m.setLock .user l) = (.error (.panic "get_a_page"
      "get_a_page:not allow kernel alloc userspace or user alloc kernelspace by get_a_page"),
      m.setLock .user l) := by
    have hpg : (m.task m.runningThread).pgdir = 0 := not_not.mp hp
    change (if (m.task m.runningThread).pgdir ≠ 0 ∧ PoolFlags.user = .user then _
      else if (m.task m.runningThread).pgdir = 0 ∧ PoolFlags.user = .kernel then _
      else _ : KernelM Unit) _ = _
    rw [if_neg fun hc => hc.1 hpg,if_neg (by simp)]
    rfl
  rw [handPage,Exec.bind_of_error hmark]
  exact Machine.guarded_refl _

theorem Machine.Between.getAPage_guarded_iff {pf : PoolFlags} (h : m.Between A)
    (hc : pf = .user → m.IsProc m.runningThread → PageSys.Covers m .user (vaddr/pageSize)) :
    m.Guarded (getAPage pf vaddr m).2 ↔ pf = .kernel ∨ ¬ m.IsProc m.runningThread ∨
      m.holds .kernel = true ∨ m.HasTable (vaddr/pageSize) := by
  cases pf with
  | kernel => exact iff_of_true (getAPage_kernel_guarded m vaddr) (.inl rfl)
  | user =>
    rw [or_iff_right (by simp)]
    by_cases hp : m.IsProc m.runningThread
    · obtain ⟨k,hk,hlt⟩ := hc rfl hp
      have hin := h.vad.inSpace (m.reaches_space .user) hlt
      rw [← hk] at hin
      rw [or_iff_right (not_not_intro hp)]
      exact h.rep.getAPage_guarded_iff h.vad hin rfl (h.lock hp)
    · exact iff_of_true (getAPage_user_guarded hp) (.inl hp)

end Between

section Fresh
variable {m : Machine} {s : PageSys} {t : TaskId} {n : ℕ}

/-- There is a page for a new process. -/
theorem PageSys.FreshProcess.scan (h : s.FreshProcess t) :
    1 ≤ s.m.free .user ∧ ∃ k, (s.m.vbitmap .user).bitmapScan 1 = some k := by
  obtain ⟨A,hi⟩ := h.reachable.inv
  obtain ⟨-,-,k,hscan,hfree⟩ :=
    hi.fits_first h.noTable (h.running.symm ▸ h.proc) h.free.1 h.free.2
  have hspace : s.m.space .user = some s.m.runningThread := rfl
  have hcard := hfree .user
  rw [hspace,card_newUses_user,if_pos rfl] at hcard
  exact ⟨hcard,k,hscan⟩

end Fresh

/-- A call of one of the functions that work on the pools. -/
inductive PoolCall
  | getKernelPages (pgCnt : ℕ)
  | getUserPages (pgCnt : ℕ)
  | getAPage (pf : PoolFlags) (vaddr : ℕ)
  | sysMalloc (size : ℕ)
  | sysFree (ptr : ℕ)

namespace PoolCall

/-- The state in which the call ends. -/
def after (m : Machine) : PoolCall → Machine
  | getKernelPages pgCnt => (OsKernel.getKernelPages pgCnt m).2
  | getUserPages pgCnt => (OsKernel.getUserPages pgCnt m).2
  | getAPage pf vaddr => (OsKernel.getAPage pf vaddr m).2
  | sysMalloc size => (OsKernel.sysMalloc size m).2
  | sysFree ptr => (OsKernel.sysFree ptr m).2

/-- A call of the page allocator. The bitmap of a process covers the page that get_a_page is
called for. -/
def OnPages (m : Machine) : PoolCall → Prop
  | getKernelPages _ | getUserPages _ => True
  | getAPage pf vaddr =>
    pf = .user → m.IsProc m.runningThread → PageSys.Covers m .user (vaddr/pageSize)
  | sysMalloc _ | sysFree _ => False

/-- The pointers that the assertions of sys_free refuse. -/
def Refused (m : Machine) (ptr : ℕ) : Prop := ptr = 0 ∨ m.ownPool = .kernel ∧ ptr ≤ kHeapStart

/-- A call by the owner of a heap, which gives back pointers in use. -/
def OnHeap (s : HeapSys) : PoolCall → Prop
  | sysMalloc _ => True
  | sysFree ptr => s.live ptr ≠ none ∨ Refused s.m ptr
  | c => c.OnPages s.m

/-- When the call needs no frame for a page table, or the pool of the kernel is locked. -/
def Sheltered (m : Machine) : PoolCall → Prop
  | getKernelPages _ | sysFree _ => True
  | getUserPages pgCnt => m.Sheltered .user pgCnt
  | getAPage pf vaddr => pf = .kernel ∨ ¬ m.IsProc m.runningThread ∨ m.holds .kernel = true ∨
      m.HasTable (vaddr/pageSize)
  | sysMalloc size => m.MallocSheltered size

section Discipline
variable {m m₀ : Machine} {A : FrameMap} {c : PoolCall}

theorem OnPages.guarded_iff (hc : c.OnPages m) (h : m.Between A) :
    m.Guarded (c.after m) ↔ c.Sheltered m := by
  cases c with
  | getKernelPages pgCnt => exact iff_of_true (h.rep.getPages_guarded h.vad (.inl rfl)) trivial
  | getUserPages pgCnt => exact h.getUserPages_guarded_iff
  | getAPage pf vaddr => exact h.getAPage_guarded_iff hc
  | sysMalloc size => exact hc.elim
  | sysFree ptr => exact hc.elim

theorem Refused.guarded {ptr : ℕ} (h : Refused m ptr) : m.Guarded (OsKernel.sysFree ptr m).2 := by
  rw [OsKernel.sysFree]
  by_cases hz : ptr = 0
  · rw [Exec.bind_of_error (kassert_error (not_not_intro hz))]
    exact m.guarded_refl
  · obtain ⟨hk,hle⟩ := h.resolve_left hz
    have hlow : ¬(m.ownPool = .kernel → kHeapStart < ptr) := fun hc => absurd (hc hk) (by omega)
    rw [Exec.bind_of_ok (kassert_eq hz),Exec.bind_of_ok (show Exec.get m = (.ok m,m) from rfl),
      Exec.bind_of_error (kassert_error hlow)]
    exact m.guarded_refl

theorem OnHeap.guarded_iff {s : HeapSys} (hc : c.OnHeap s) (hs : HeapStart m₀)
    (h : HeapSys.Reachable m₀ s) : s.m.Guarded (c.after s.m) ↔ c.Sheltered s.m := by
  obtain ⟨A,hb⟩ := h.between hs
  obtain ⟨A₀,hrep₀,hlock₀⟩ := hs.rep
  obtain ⟨A',H,hinv⟩ := h.inv hrep₀ hlock₀
  cases c with
  | getKernelPages pgCnt => exact OnPages.guarded_iff hc hb
  | getUserPages pgCnt => exact OnPages.guarded_iff hc hb
  | getAPage pf vaddr => exact OnPages.guarded_iff hc hb
  | sysMalloc size => exact hinv.sysMalloc_guarded_iff hrep₀.rep
  | sysFree ptr =>
    obtain hlive|hrefused := hc
    swap
    · exact iff_of_true hrefused.guarded trivial
    obtain ⟨size,hlive⟩ := Option.ne_none_iff_exists'.mp hlive
    obtain ⟨m',-,-,hrun,-,-,-,-,hg⟩ :=
      hinv.rep.sysFree_run hrep₀.rep hinv.tight hinv.lock (hinv.live ▸ hlive)
    refine iff_of_true ?_ trivial
    change s.m.Guarded (OsKernel.sysFree ptr s.m).2
    rwa [hrun]

end Discipline

end PoolCall
end OsKernel

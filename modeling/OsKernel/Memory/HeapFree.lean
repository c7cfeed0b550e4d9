import OsKernel.Memory.HeapCalls

/-! The call of sys_free with a pointer in use: it always returns, and gives the pages of an arena
without a block in use back. -/
namespace OsKernel
open Paging ByteMemory Exec KernelM IntrusiveList

/-- A call has taken the pointer x back. -/
structure Freed (m : Machine) (A : FrameMap) (H : Heap) (x : ℕ) (m' : Machine) (A' : FrameMap)
    (H' : Heap) : Prop where
  live : H'.live = Function.update H.live x none
  keep : ∀ q, H'.LiveByte q → m'.data A' q = m.data A q

section Free
variable {m m' m₀ : Machine} {A A' A₀ : FrameMap} {F : Set ℕ} {H H' : Heap} {c : Fin 7}
  {p n x size : ℕ} {pf : PoolFlags} {k : Arena}

/-- The pages of an arena that is no longer in the heap are given back. -/
theorem HeapIn.mfreePage_eq (hheap : HeapIn (m.dataPages A) (m.data A) m₀.descs H')
    (h : OwnPages m₀ A₀ m A { v | H.Covers v }) (h₀ : PageRep m₀ A₀ F)
    (hshape : H.Shape m₀.descs) (hp : H.arena p = some k)
    (harena : H'.arena = Function.update H.arena p none) :
    ∃ m' A', mfreePage m₀.ownPool (4096*p) k.pages m = (.ok (),m') ∧ HeapRep m₀ A₀ m' A' H' ∧
      (∀ q, H'.LiveByte q → m'.data A' q = m.data A q) ∧ m.Uses {m₀.ownPool} m' := by
  have hv := Heap.vacant_drop harena hshape hp
  have hcovers {v : ℕ} := Heap.covers_drop (v := v) harena hshape hp
  obtain ⟨m',A',hrun,hown,hpages,hdata,huse⟩ := h.mfreePage_eq h₀ (hshape.pos p k hp)
    fun v h₁ h₂ => ⟨p,k,hp,h₁,h₂⟩
  refine ⟨m',A',hrun,{
    toOwnPages := hown.congr_pages fun _ => hcovers
    heap := hheap.drop_pages hv hpages hdata },fun q hq => ?_,huse⟩
  exact hdata q (hv.page_ne (hheap.live_covers hq))

/-- A pointer in use is a block or the start of a large allocation. -/
theorem Heap.Shape.live_cases {descs : ℕ} (h : H.Shape descs) (hx : H.live x = some size) :
    (∃ p c i, H.arena p = some (.small c) ∧ i < perArena c ∧ blockAt p c i = x) ∨
      ∃ p n, H.arena p = some (.large n) ∧ x = 4096*p+12 := by
  obtain ⟨e,⟨p,k,hp,hroom⟩,-⟩ := h.live x size hx
  cases k with
  | small c =>
    obtain ⟨i,hi,rfl,-⟩ := hroom
    exact .inl ⟨p,c,i,hp,hi,rfl⟩
  | large n => exact .inr ⟨p,n,hp,hroom.1⟩

theorem block2arena_eq (hx : x/4096 = p) : block2arena x = 4096*p := by
  unfold block2arena pageSize
  omega

/-- sys_free of a block. -/
theorem HeapRep.freeBlock_run (h : HeapRep m₀ A₀ m A H) (h₀ : PageRep m₀ A₀ F) (ht : H.Tight)
    (hp : H.arena p = some (.small c)) {i : ℕ} (hi : i < perArena c) (hx : blockAt p c i = x)
    (hlive : H.live x = some size) :
    ∃ m' A' H', freeBlock m₀.ownPool (4096*p) x m = (.ok (),m') ∧ HeapRep m₀ A₀ m' A' H' ∧
      H'.Tight ∧ Freed m A H x m' A' H' ∧ m.Uses {m₀.ownPool} m' := by
  have hpage : x/4096 = p := hx ▸ blockAt_page hi
  obtain ⟨V₁,hpush,hheap₁,hkeep₁⟩ := h.heap.pushBlock h.rep.window hp hi hx (by simp [hlive])
  obtain ⟨mem₁,hrun₁,h₁,hview₁⟩ := h.run_acts hpush hheap₁ rfl
  have hdata₁ : ∀ q, (H.give c x).LiveByte q → (m.setMem mem₁).data A q = m.data A q := by
    intro q hq
    rw [hview₁]
    exact hkeep₁ q (hheap₁.live_not_meta hq)
  rw [freeBlock_eq,Exec.bind_of_ok hrun₁]
  by_cases hfull : (H.give c x).freeCount p c = perArena c
  · rw [if_pos (decide_eq_true hfull)]
    have hfree : ∀ i, i < perArena c → (H.give c x).live (blockAt p c i) = none :=
      fun i hi => Heap.live_eq_none_of_freeCount hfull hi
    obtain ⟨V₂,hremove,hheap₂,hkeep₂⟩ := h₁.heap.removeBlocks h₁.rep.window hp hfree
    obtain ⟨mem₂,hrun₂,hown₂,hview₂⟩ := h₁.toOwnPages.run_acts hremove
    have hheap₂' : HeapIn (((m.setMem mem₁).setMem mem₂).dataPages A)
        (((m.setMem mem₁).setMem mem₂).data A) m₀.descs ((H.give c x).dropSmall p c) :=
      hview₂ ▸ hheap₂
    obtain ⟨m',A',hrun₃,hrep,hkeep₃,huse⟩ :=
      hheap₂'.mfreePage_eq hown₂ h₀ h₁.heap.shape hp rfl
    refine ⟨m',A',_,?_,hrep,?_,⟨rfl,fun q hq => ?_⟩,
      ((m.uses_setMem mem₁).trans (Machine.uses_setMem _ mem₂)).trans huse⟩
    · rw [Exec.bind_of_ok hrun₂]
      exact hrun₃
    · exact Heap.dropSmall_tight fun q d hq hne => Heap.give_freeCount ht hq (hpage ▸ hne)
    · rw [hkeep₃ q hq,hview₂,hkeep₂ q (h₁.heap.live_not_meta hq)]
      exact hdata₁ q hq
  · rw [if_neg (by simpa using hfull)]
    exact ⟨_,A,_,rfl,h₁,Heap.give_tight ht hp hpage hfull,⟨rfl,hdata₁⟩,m.uses_setMem mem₁⟩

/-- sys_free of a large allocation. -/
theorem HeapRep.freeLarge_run (h : HeapRep m₀ A₀ m A H) (h₀ : PageRep m₀ A₀ F)
    (hp : H.arena p = some (.large n)) :
    ∃ m' A', (do
        let cnt ← loadWord (cntField (4096*p))
        mfreePage m₀.ownPool (4096*p) cnt : KernelM Unit) m = (.ok (),m') ∧
      HeapRep m₀ A₀ m' A' (H.dropLarge p) ∧ Freed m A H (4096*p+12) m' A' (H.dropLarge p) ∧
      m.Uses {m₀.ownPool} m' := by
  have hload := h.heap.loadCnt h.rep.window hp (U := m.data A)
  rw [(h.heap.large p n hp).2.1] at hload
  obtain ⟨mem₁,hrun₁,h₁,hview₁⟩ := h.run_acts hload h.heap rfl
  obtain ⟨m',A',hrun₂,hrep,hkeep,huse⟩ :=
    (h₁.heap.dropLarge hp).mfreePage_eq h₁.toOwnPages h₀ h₁.heap.shape hp rfl
  refine ⟨m',A',?_,hrep,⟨rfl,fun q hq => ?_⟩,(m.uses_setMem mem₁).trans huse⟩
  · rw [Exec.bind_of_ok hrun₁]
    exact hrun₂
  · rw [hkeep q hq,hview₁]

theorem HeapRep.freeLocked_run (h : HeapRep m₀ A₀ m A H) (h₀ : PageRep m₀ A₀ F) (ht : H.Tight)
    (hlive : H.live x = some size) :
    ∃ m' A' H', freeLocked m₀.ownPool x m = (.ok (),m') ∧ HeapRep m₀ A₀ m' A' H' ∧ H'.Tight ∧
      Freed m A H x m' A' H' ∧ m.Uses {m₀.ownPool} m' := by
  obtain ⟨p,c,i,hp,hi,hx⟩|⟨p,n,hp,rfl⟩ := h.heap.shape.live_cases hlive
  · obtain ⟨mem₁,hrun₁,h₁,hview₁⟩ := h.run_acts (h.heap.isLarge_small h.rep.window hp) h.heap rfl
    obtain ⟨m',A',H',hrun₂,hrep,ht',hfreed,huse⟩ := h₁.freeBlock_run h₀ ht hp hi hx hlive
    refine ⟨m',A',H',?_,hrep,ht',⟨hfreed.live,fun q hq => ?_⟩,(m.uses_setMem mem₁).trans huse⟩
    · rw [freeLocked,block2arena_eq (hx ▸ blockAt_page hi : x/4096 = p),Exec.bind_of_ok hrun₁]
      exact hrun₂
    · rw [hfreed.keep q hq,hview₁]
  · obtain ⟨mem₁,hrun₁,h₁,hview₁⟩ := h.run_acts (h.heap.isLarge_large h.rep.window hp) h.heap rfl
    obtain ⟨m',A',hrun₂,hrep,hfreed,huse⟩ := h₁.freeLarge_run h₀ hp
    refine ⟨m',A',_,?_,hrep,Heap.dropLarge_tight ht,⟨rfl,fun q hq => ?_⟩,
      (m.uses_setMem mem₁).trans huse⟩
    · rw [freeLocked,block2arena_eq (p := p) (by omega),Exec.bind_of_ok hrun₁]
      exact hrun₂
    · rw [hfreed.keep q hq,hview₁]

/-- sys_free of a pointer in use. -/
theorem HeapRep.sysFree_run (h : HeapRep m₀ A₀ m A H) (h₀ : PageRep m₀ A₀ F) (ht : H.Tight)
    (hlock : (m.pool m₀.ownPool).lock = ⟨none,0⟩) (hlive : H.live x = some size) :
    ∃ m' A' H', sysFree x m = (.ok (),m') ∧ HeapRep m₀ A₀ m' A' H' ∧ H'.Tight ∧
      Freed m A H x m' A' H' ∧ (m'.pool m₀.ownPool).lock = ⟨none,0⟩ ∧ m.Guarded m' := by
  have hpool := Machine.ownPool_congr h.setup
  have hx : x ≠ 0 ∧ (m₀.ownPool = .kernel → kHeapStart < x) := by
    obtain ⟨e,⟨p,k,hp,hroom⟩,-⟩ := h.heap.shape.live x size hlive
    have hb := hroom.bounds
    refine ⟨by omega,fun hk => ?_⟩
    obtain ⟨f,hf⟩ := Option.isSome_iff_exists.mp
      (h.new p (h.heap.shape.covers_first hp)).1
    have hown : m₀.own = none := by
      rw [Machine.own,hk]
      rfl
    rw [hown] at hf
    have hin := (h.rep.inSpace hf).1
    unfold kernelHeapPage at hin
    unfold kHeapStart
    omega
  generalize hm₁ : m.setLock m₀.ownPool ⟨some m.runningThread,1⟩ = m₁
  have h₁ : HeapRep m₀ A₀ m₁ A H := hm₁ ▸ h.setLock _ _
  obtain ⟨m₂,A',H',hrun₂,hrep,ht',hfreed,huse⟩ := h₁.freeLocked_run h₀ ht hlive
  have hlock₁ : (m₁.pool m₀.ownPool).lock = ⟨some m₁.runningThread,1⟩ := by
    rw [← hm₁,Machine.setLock_pool,if_pos rfl]
    rfl
  have hheld : m₁.holds m₀.ownPool = true := decide_eq_true (congrArg PoolLock.holder hlock₁)
  have hrelease : lockRelease m₀.ownPool m₂ = _ := lockRelease_once (by
    rw [huse.lock,huse.runningThread,hlock₁])
  refine ⟨m₂.setLock m₀.ownPool ⟨none,0⟩,A',H',?_,hrep.setLock _ _,ht',
    ⟨hfreed.live,fun q hq => ?_⟩,?_,?_⟩
  · have hget : sysFree x m = (do
        kassert (x ≠ 0) "sys_free" "ptr != NULL"
        kassert (m.ownPool = .kernel → kHeapStart < x) "sys_free" "(uint32_t) ptr > K_HEAP_START"
        lockAcquire m.ownPool
        freeLocked m.ownPool x
        lockRelease m.ownPool : KernelM Unit) m := by
      rw [sysFree,Exec.bind_of_ok (kassert_eq hx.1),Exec.bind_of_ok (kassert_eq hx.1)]
      rfl
    rw [hget,hpool,Exec.bind_of_ok (kassert_eq hx.1),Exec.bind_of_ok (kassert_eq hx.2),
      Exec.bind_of_ok (lockAcquire_free hlock),hm₁,Exec.bind_of_ok hrun₂]
    exact hrelease
  · refine (hfreed.keep q hq).trans ?_
    subst hm₁
    rfl
  · rw [Machine.setLock_pool,if_pos rfl]
  · refine (Machine.guarded_congr ?_ rfl).mp (huse.guarded (by rintro _ rfl; exact hheld))
    rw [← hm₁]
    rfl

end Free
end OsKernel

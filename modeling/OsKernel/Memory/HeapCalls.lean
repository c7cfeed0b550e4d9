import OsKernel.Memory.HeapPages
import OsKernel.Memory.OwnPages

/-! The calls of sys_malloc and sys_free by the owner of a heap, with the pages that come and go
below them. -/
namespace OsKernel
open Paging ByteMemory Exec KernelM IntrusiveList

theorem WordsIn.page {τ : ℕ → Option ℕ} {W : Set ℕ} {a n q : ℕ} (h : WordsIn τ W a n)
    (h₁ : a ≤ q) (h₂ : q < a+n) : (τ (q/4096)).isSome := by
  have h4 := (h.word (by omega)).aligned
  have hword := h ((q-a)/4*4) (by omega) (by omega)
  have hpage := hword.page
  rwa [show (a+(q-a)/4*4)/4096 = q/4096 by omega] at hpage

/-- A byte of a pointer in use. -/
def Heap.LiveByte (H : Heap) (q : ℕ) : Prop := ∃ x size, H.live x = some size ∧ x ≤ q ∧ q < x+size

section Bytes
variable {τ τ' : ℕ → Option ℕ} {V V' : ByteMemory} {descs : ℕ} {H : Heap} {p n q : ℕ}

theorem HeapIn.meta_page (h : HeapIn τ V descs H) (hq : H.Meta descs q) : (τ (q/4096)).isSome := by
  rcases hq with ⟨c,hc₁,hc₂⟩|⟨r,k,hr,hr₁,hr₂⟩|⟨c,a,ha,ha₁,ha₂⟩
  · exact h.desc.page (by omega) (by omega)
  · exact (H.header_words h.shape h.mapped hr).page hr₁ hr₂
  · exact (h.lists.words ha).page ha₁ ha₂

theorem HeapIn.live_covers (h : HeapIn τ V descs H) (hq : H.LiveByte q) : H.Covers (q/4096) := by
  obtain ⟨x,size,hx,h₁,h₂⟩ := hq
  obtain ⟨e,⟨p,k,hp,hroom⟩,hle⟩ := h.shape.live x size hx
  have hb := hroom.bounds
  exact ⟨p,k,hp,by omega,by omega⟩

theorem HeapIn.live_page (h : HeapIn τ V descs H) (hq : H.LiveByte q) : (τ (q/4096)).isSome :=
  (h.mapped _ (h.live_covers hq)).1

theorem HeapIn.live_not_meta (h : HeapIn τ V descs H) (hq : H.LiveByte q) : ¬ H.Meta descs q := by
  obtain ⟨x,size,hx,h₁,h₂⟩ := hq
  exact h.shape.live_not_meta hx h₁ h₂

/-- Pages that are apart from the heap go away. -/
theorem HeapIn.drop_pages (h : HeapIn τ V descs H) (hv : H.Vacant descs p n)
    (hτ : ∀ v, v < p ∨ p+n ≤ v → τ' v = τ v)
    (hV : ∀ q, q/4096 < p ∨ p+n ≤ q/4096 → V' q = V q) : HeapIn τ' V' descs H := by
  have haway := hv.away
  refine h.congr (fun j hj h4 => ?_) (fun v hc => ?_) fun q hq => hV q ?_
  · have hword := h.desc j hj h4
    refine ⟨?_,trivial,hword.aligned,hword.lt⟩
    rw [hτ _ (by omega)]
    exact hword.page
  · rw [hτ v (by
      by_contra hc'
      exact hv.uncovered v (by omega) (by omega) hc)]
    exact h.mapped v hc
  · by_contra hc
    exact h.shape.vacant_not_meta (q := q) hv (by omega) (by omega) hq

end Bytes

/-- The heap of the thread that runs in m₀, in a state that differs from m₀ by the pages of the
arenas. -/
structure HeapRep (m₀ : Machine) (A₀ : FrameMap) (m : Machine) (A : FrameMap) (H : Heap) : Prop
    extends OwnPages m₀ A₀ m A { v | H.Covers v } where
  heap : HeapIn (m.dataPages A) (m.data A) m₀.descs H

/-- A call has returned the pointer r. -/
structure Allocated (m : Machine) (A : FrameMap) (H : Heap) (r size : ℕ) (m' : Machine)
    (A' : FrameMap) (H' : Heap) : Prop where
  nonnull : r ≠ 0
  live : H'.live = Function.update H.live r (some size)
  fresh : H.live r = none
  zero : ∀ q, r ≤ q → q < r+size → m'.data A' q = 0
  keep : ∀ q, H.LiveByte q → m'.data A' q = m.data A q

/-- The class that sys_malloc takes a block from. -/
def IsClass (c : Fin 7) (size : ℕ) : Prop := size ≤ classSize c ∧ ∀ d, d < c → classSize d < size

theorem IsClass.unique {c d : Fin 7} {size : ℕ} (hc : IsClass c size) (hd : IsClass d size) :
    c = d := by
  rcases lt_trichotomy c d with hlt|heq|hlt
  · exact absurd hc.1 (Nat.not_le_of_lt (hd.2 c hlt))
  · exact heq
  · exact absurd hd.1 (Nat.not_le_of_lt (hc.2 d hlt))

/-- There is a free block or there are enough free pages for a request that the pool size allows. -/
def Machine.CanServe (m : Machine) (A : FrameMap) (H : Heap) (size : ℕ) : Prop :=
  if 1024 < size then m.Fits A m.ownPool (divRoundUp (size+arenaSize) pageSize)
  else ∃ c, IsClass c size ∧ (H.free c ≠ [] ∨ m.Fits A m.ownPool 1)

/-- The number of pages that sys_malloc takes at most. -/
def pagesFor (size : ℕ) : ℕ :=
  if 1024 < size then divRoundUp (size+arenaSize) pageSize else 1

section Malloc
variable {m m' m₀ : Machine} {A A' A₀ : FrameMap} {F : Set ℕ} {H H' : Heap} {c : Fin 7}
  {p n x size : ℕ} {l : List ℕ} {pf : PoolFlags}

theorem HeapRep.setLock (h : HeapRep m₀ A₀ m A H) (pf : PoolFlags) (lock : PoolLock) :
    HeapRep m₀ A₀ (m.setLock pf lock) A H :=
  { h.toOwnPages.setLock with heap := h.heap }

/-- A computation on data that changes the heap, but not the pages of its arenas. -/
theorem HeapRep.run_acts {α : Type} {y : KernelM α} {r : α} {V' : ByteMemory}
    (h : HeapRep m₀ A₀ m A H) (hx : Acts m (m.dataPages A) Set.univ y (m.data A) r V')
    (hV' : HeapIn (m.dataPages A) V' m₀.descs H') (harena : H'.arena = H.arena) :
    ∃ mem', y m = (.ok r,m.setMem mem') ∧ HeapRep m₀ A₀ (m.setMem mem') A H' ∧
      (m.setMem mem').data A = V' := by
  obtain ⟨mem',hrun,hown,hview⟩ := h.toOwnPages.run_acts hx
  refine ⟨mem',hrun,{ toOwnPages := ?_, heap := hview ▸ hV' },hview⟩
  unfold Heap.Covers
  rw [harena]
  exact hown

theorem HeapRep.mallocPage_runs (h : HeapRep m₀ A₀ m A H) (h₀ : PageRep m₀ A₀ F) :
    Runs (mallocPage m₀.ownPool n) m
      (fun va m' => m.Fits A m₀.ownPool n ∧ ∃ p A', va = 4096*p ∧ p ≠ 0 ∧
        OwnPages m₀ A₀ m' A' ({ v | H.Covers v } ∪ { v | p ≤ v ∧ v < p+n }) ∧
        H.Vacant m₀.descs p n ∧ HeapIn (m'.dataPages A') (m'.data A') m₀.descs H ∧
        (∀ v, p ≤ v → v < p+n → (m'.dataPages A' v).isSome ∧ v < 2^20) ∧
        (∀ q, H.LiveByte q → m'.data A' q = m.data A q) ∧
        (∀ pf, (m'.pool pf).lock = (m.pool pf).lock) ∧ m.LeavesRoom m₀.ownPool n m')
      (fun _ _ => ¬ m.Fits A m₀.ownPool n) := by
  refine h.toOwnPages.mallocPage_runs.mono ?_ fun _ _ he => he
  rintro _ m' ⟨hfits,p,A',rfl,hp0,hn,hown,hnew,hmono,hdata,hlock,hroom⟩
  have hsome {v : ℕ} (hv : (m.dataPages A v).isSome) : (m'.dataPages A' v).isSome := by
    obtain ⟨f,hf⟩ := Option.isSome_iff_exists.mp hv
    exact Option.isSome_of_eq_some (hmono v f hf)
  refine ⟨hfits,p,A',rfl,hp0,hown,⟨hn,fun v h₁ h₂ => (hnew v h₁ h₂).1,?_⟩,?_,
    fun v h₁ h₂ => hown.dataPages h₀ (.inr ⟨h₁,h₂⟩),fun q hq => hdata q (h.heap.live_page hq),hlock,
    hroom⟩
  · -- the descriptors lie in pages that were mapped before
    by_contra hc
    have hpage := h.heap.desc.page (q := max m₀.descs (4096*p)) (by omega) (by omega)
    rw [(hnew _ (by omega) (by omega)).2] at hpage
    contradiction
  · refine h.heap.congr (fun j hj h4 => ?_) (fun v hv => ?_) fun q hq =>
      hdata q (h.heap.meta_page hq)
    · have hword := h.heap.desc j hj h4
      exact ⟨hsome hword.page,trivial,hword.aligned,hword.lt⟩
    · have hmap := h.heap.mapped v hv
      exact ⟨hsome hmap.1,hmap.2⟩

/-- sys_malloc with a free block of the class. -/
theorem HeapRep.takeBlock_run (h : HeapRep m₀ A₀ m A H) (hl : H.free c = x::l)
    (hs : size ≤ classSize c) (hlock : (m.pool pf).lock = ⟨some m.runningThread,1⟩) :
    ∃ m', takeBlock pf (m₀.descs+24*c.val) m = (.ok x,m') ∧
      HeapRep m₀ A₀ m' A (H.take c l x size) ∧
      Allocated m A H x size m' A (H.take c l x size) ∧ (m'.pool pf).lock = ⟨none,0⟩ ∧
      ∀ k, m.Roomy k → m'.Roomy k := by
  obtain ⟨hlive,p,i,hp,hi,hxi⟩ := (h.heap.shape.free c x).mp (hl ▸ List.mem_cons_self)
  have hroom : H.Room x (classSize c) := ⟨p,_,hp,i,hi,hxi,rfl⟩
  obtain ⟨V',hacts,hheap,hzero,hkeep⟩ := h.heap.popBlock h.rep.window hl hs
  obtain ⟨mem',hrun,hrep,hview⟩ := h.run_acts hacts hheap rfl
  refine ⟨(m.setMem mem').setLock pf ⟨none,0⟩,?_,hrep.setLock _ _,⟨?_,rfl,hlive,?_,?_⟩,?_,
    fun k hk => Machine.Roomy.setLock (m := m.setMem mem') hk⟩
  · have hrelease : lockRelease pf (m.setMem mem') = _ := lockRelease_once hlock
    rw [takeBlock_eq,Exec.bind_of_ok hrun,Exec.bind_of_ok hrelease]
    rfl
  · have hb := blockAt_bounds (p := p) hi
    omega
  · intro q h₁ h₂
    change (m.setMem mem').data A q = 0
    rw [hview]
    exact hzero q h₁ (by omega)
  · intro q hq
    change (m.setMem mem').data A q = _
    rw [hview]
    refine hkeep q (h.heap.live_not_meta hq) ?_
    obtain ⟨y,s,hy,h₁,h₂⟩ := hq
    obtain ⟨e,hroomy,hle⟩ := h.heap.shape.live y s hy
    have hne : x ≠ y := by
      rintro rfl
      rw [hlive] at hy
      contradiction
    have hapart := h.heap.shape.room_apart hroom hroomy hne
    omega
  · rw [Machine.setLock_pool,if_pos rfl]

theorem OwnPages.congr_pages {C C' : Set ℕ} (h : OwnPages m₀ A₀ m A C)
    (hC : ∀ v, v ∈ C' ↔ v ∈ C) : OwnPages m₀ A₀ m A C' := by
  rwa [Set.ext hC]

theorem Heap.Vacant.page_ne {descs q : ℕ} (hv : H.Vacant descs p n) (hq : H.Covers (q/4096)) :
    q/4096 < p ∨ p+n ≤ q/4096 := by
  by_contra hc
  exact hv.uncovered _ (by omega) (by omega) hq

/-- sys_malloc without a free block of the class. -/
theorem HeapRep.mallocArena_runs (h : HeapRep m₀ A₀ m A H) (h₀ : PageRep m₀ A₀ F)
    (hl : H.free c = []) (hs : size ≤ classSize c)
    (hlock : (m.pool m₀.ownPool).lock = ⟨some m.runningThread,1⟩) :
    Runs (mallocArena m₀.ownPool (m₀.descs+24*c.val)) m
      (fun r m' => m.Fits A m₀.ownPool 1 ∧ ∃ A' p l,
        HeapRep m₀ A₀ m' A' ((H.addSmall p c).take c l r size) ∧
        r ∈ (H.addSmall p c).free c ∧ r/4096 = p ∧ H.Vacant m₀.descs p 1 ∧
        Allocated m A H r size m' A' ((H.addSmall p c).take c l r size) ∧
        (m'.pool m₀.ownPool).lock = ⟨none,0⟩ ∧ m.LeavesRoom m₀.ownPool 1 m')
      (fun _ _ => ¬ m.Fits A m₀.ownPool 1) := by
  refine Runs.bind ((h.mallocPage_runs h₀).mono (fun _ _ hx => hx) fun _ _ he => he) ?_
  rintro _ m₁ ⟨hfits,p,A',rfl,hp0,hown,hv,hheap,hnew,hkeep₁,hlock₁,hroom₁⟩
  obtain ⟨V',hacts,hheap₂,hkeep₂⟩ := hheap.makeArena hown.rep.window hv
    (hnew p le_rfl (by omega)).1 (hnew p le_rfl (by omega)).2 hp0 c
  obtain ⟨mem',hrun₂,hown₂,hview⟩ := hown.run_acts hacts
  have hcovers {v : ℕ} : (H.addSmall p c).Covers v ↔ H.Covers v ∨ p ≤ v ∧ v < p+1 :=
    Heap.covers_add (k := .small c) rfl (hv.arena_eq_none h.heap.shape)
  have hrep₂ : HeapRep m₀ A₀ (m₁.setMem mem') A' (H.addSmall p c) := {
    toOwnPages := hown₂.congr_pages fun _ => hcovers
    heap := hview ▸ hheap₂ }
  obtain ⟨x,l,hx⟩ : ∃ x l, (H.addSmall p c).free c = x::l := by
    refine List.exists_cons_of_ne_nil ?_
    have hpos := (perArena_bounds c).1
    rw [H.addSmall_free,Function.update_self,hl,List.nil_append,Ne,List.map_eq_nil_iff,
      List.range_eq_nil]
    omega
  have hset := hown.setup.trans h.setup.symm
  have hheld : (m₁.pool m₀.ownPool).lock = ⟨some m₁.runningThread,1⟩ := by
    rw [hlock₁,hlock,Machine.runningThread_congr hset]
  obtain ⟨m₃,hrun₃,hrep₃,halloc,hlock₃,hroom₃⟩ := hrep₂.takeBlock_run hx hs hheld
  have hxmem : x ∈ (H.addSmall p c).free c := hx ▸ List.mem_cons_self
  have hpage : x/4096 = p := by
    rw [H.addSmall_free,Function.update_self,hl,List.nil_append] at hxmem
    obtain ⟨i,hi,rfl⟩ := List.mem_map.mp hxmem
    exact blockAt_page (List.mem_range.mp hi)
  have ha : 4096*p ≠ 0 := by omega
  rw [Runs,if_neg ha,Exec.bind_of_ok hrun₂,hrun₃]
  refine ⟨hfits,A',p,l,hrep₃,hxmem,hpage,hv,⟨halloc.nonnull,halloc.live,halloc.fresh,halloc.zero,
    fun q hq => ?_⟩,hlock₃,fun hk k hroom => hroom₃ k (hroom₁ hk k hroom)⟩
  have hcov := h.heap.live_covers hq
  rw [halloc.keep q hq,hview,hkeep₂ q (h.heap.live_not_meta hq)
    (by have := hv.page_ne hcov; omega)]
  exact hkeep₁ q hq

theorem divRoundUp_bounds (x : ℕ) : x ≤ 4096*divRoundUp x pageSize := by
  unfold divRoundUp pageSize
  omega

/-- sys_malloc of more than 1024 bytes. -/
theorem HeapRep.mallocLarge_runs (h : HeapRep m₀ A₀ m A H) (h₀ : PageRep m₀ A₀ F)
    (hlock : (m.pool m₀.ownPool).lock = ⟨some m.runningThread,1⟩) :
    Runs (mallocLarge m₀.ownPool size) m
      (fun r m' => m.Fits A m₀.ownPool (divRoundUp (size+arenaSize) pageSize) ∧ ∃ A' p,
        HeapRep m₀ A₀ m' A' (H.addLarge p (divRoundUp (size+arenaSize) pageSize) size) ∧
        Allocated m A H r size m' A'
          (H.addLarge p (divRoundUp (size+arenaSize) pageSize) size) ∧
        (m'.pool m₀.ownPool).lock = ⟨none,0⟩ ∧
        m.LeavesRoom m₀.ownPool (divRoundUp (size+arenaSize) pageSize) m')
      (fun _ _ => ¬ m.Fits A m₀.ownPool (divRoundUp (size+arenaSize) pageSize)) := by
  have hs : size+12 ≤ 4096*divRoundUp (size+arenaSize) pageSize := divRoundUp_bounds _
  rw [mallocLarge_eq]
  generalize divRoundUp (size+arenaSize) pageSize = n at hs ⊢
  refine Runs.bind ((h.mallocPage_runs h₀).mono (fun _ _ hx => hx) fun _ _ he => he) ?_
  rintro _ m₁ ⟨hfits,p,A',rfl,hp0,hown,hv,hheap,hnew,hkeep₁,hlock₁,hroom₁⟩
  obtain ⟨V',hacts,hheap₂,hzero,hkeep₂⟩ := hheap.largeHeader hown.rep.window hv hnew hp0 hs
  obtain ⟨mem',hrun₂,hown₂,hview⟩ := hown.run_acts hacts
  have hcovers {v : ℕ} : (H.addLarge p n size).Covers v ↔ H.Covers v ∨ p ≤ v ∧ v < p+n :=
    Heap.covers_add (k := .large n) rfl (hv.arena_eq_none h.heap.shape)
  have hrep₂ : HeapRep m₀ A₀ (m₁.setMem mem') A' (H.addLarge p n size) := {
    toOwnPages := hown₂.congr_pages fun _ => hcovers
    heap := hview ▸ hheap₂ }
  have hset := hown.setup.trans h.setup.symm
  have hrelease : lockRelease m₀.ownPool (m₁.setMem mem') = _ := lockRelease_once (by
    change (m₁.pool m₀.ownPool).lock = ⟨some m₁.runningThread,1⟩
    rw [hlock₁,hlock,Machine.runningThread_congr hset])
  have hlt := (hnew p le_rfl (Nat.lt_add_of_pos_right hv.pos)).2
  have hfield : field (4096*p) arenaSize = 4096*p+12 := field_eq (by unfold arenaSize; omega)
  rw [Runs,if_pos (by omega),Exec.bind_of_ok hrun₂,Exec.bind_of_ok hrelease,hfield]
  refine ⟨hfits,A',p,hrep₂.setLock _ _,⟨by omega,rfl,?_,fun q h₁ h₂ => ?_,fun q hq => ?_⟩,?_,
    fun hk k hroom => Machine.Roomy.setLock (m := m₁.setMem mem') (hroom₁ hk k hroom)⟩
  · have hpos := hv.pos
    exact h.heap.shape.vacant_live hv (by omega) (by omega)
  · change (m₁.setMem mem').data A' q = 0
    rw [hview]
    exact hzero q h₁ (by omega)
  · change (m₁.setMem mem').data A' q = _
    rw [hview,hkeep₂ q (hv.page_ne (h.heap.live_covers hq))]
    exact hkeep₁ q hq
  · rw [Machine.setLock_pool,if_pos rfl]

theorem Machine.setLock_fits (m : Machine) (A : FrameMap) (pf pf' : PoolFlags) (lock : PoolLock)
    (n : ℕ) : (m.setLock pf lock).Fits A pf' n ↔ m.Fits A pf' n := by
  have hfree : ∀ q, (m.setLock pf lock).free q = m.free q := fun q =>
    congrArg Bitmap.free (m.setLock_bitmap pf lock q)
  have hspace : (m.setLock pf lock).space pf' = m.space pf' :=
    Machine.space_congr (m.setLock_setup pf lock) pf'
  have hbitmap : (m.setLock pf lock).vbitmap pf' = m.vbitmap pf' := by
    rw [Machine.vbitmap,hspace]
    rfl
  simp only [Machine.Fits,hbitmap,hspace,hfree]

theorem sysMalloc_eq (m : Machine) (size : ℕ) : sysMalloc size m =
    (if (m.pool m.ownPool).poolSize < size then return 0
    else do
      lockAcquire m.ownPool
      if 1024 < size then mallocLarge m.ownPool size
      else mallocSmall m.ownPool m.descs size : KernelM ℕ) m := rfl

/-- The branch for at most 1024 bytes, after the search for the class. -/
theorem HeapRep.mallocSmall_eq (h : HeapRep m₀ A₀ m A H) (hs : size ≤ 1024) (pf : PoolFlags) :
    ∃ c mem', IsClass c size ∧ HeapRep m₀ A₀ (m.setMem mem') A H ∧
      (m.setMem mem').data A = m.data A ∧
      mallocSmall pf m₀.descs size m = (if H.free c = [] then mallocArena pf (m₀.descs+24*c.val)
        else takeBlock pf (m₀.descs+24*c.val)) (m.setMem mem') := by
  obtain ⟨c,hc,hfirst,hfind⟩ := h.heap.descsIn.findDesc h.rep.window hs
  obtain ⟨mem₁,hrun₁,h₁,hview₁⟩ := h.run_acts hfind h.heap rfl
  obtain ⟨mem₂,hrun₂,h₂,hview₂⟩ := h₁.run_acts (h₁.heap.lists.listEmpty h₁.rep.window c) h₁.heap rfl
  refine ⟨c,mem₂,⟨hc,hfirst⟩,h₂,hview₂.trans hview₁,?_⟩
  rw [mallocSmall,Exec.bind_of_ok hrun₁,h.heap.descsIn.descAt_eq,h.heap.descsIn.freeListField_eq,
    Exec.bind_of_ok hrun₂]
  simp only [decide_eq_true_eq]
  rfl

/-- sys_malloc under the lock. -/
theorem HeapRep.mallocLocked_runs (h : HeapRep m₀ A₀ m A H) (h₀ : PageRep m₀ A₀ F) (ht : H.Tight)
    (hlock : (m.pool m₀.ownPool).lock = ⟨some m.runningThread,1⟩) :
    Runs (if 1024 < size then mallocLarge m₀.ownPool size
        else mallocSmall m₀.ownPool m₀.descs size) m
      (fun r m' => m.CanServe A H size ∧ ∃ A' H', HeapRep m₀ A₀ m' A' H' ∧ H'.Tight ∧
        Allocated m A H r size m' A' H' ∧ (m'.pool m₀.ownPool).lock = ⟨none,0⟩ ∧
        m.LeavesRoom m₀.ownPool (pagesFor size) m')
      (fun _ _ => ¬ m.CanServe A H size) := by
  have hpool := Machine.ownPool_congr h.setup
  unfold Machine.CanServe pagesFor
  rw [hpool]
  by_cases hlarge : 1024 < size
  · simp only [if_pos hlarge]
    refine (h.mallocLarge_runs h₀ hlock).mono ?_ fun _ _ he => he
    rintro r m' ⟨hf,A',p,hrep,ha,hl,hroom⟩
    exact ⟨hf,A',_,hrep,Heap.addLarge_tight ht,ha,hl,hroom⟩
  simp only [if_neg hlarge]
  obtain ⟨c,mem',hc,h₂,hview,heq⟩ := h.mallocSmall_eq (Nat.le_of_not_lt hlarge) m₀.ownPool
  have hserve : (∃ c, IsClass c size ∧ (H.free c ≠ [] ∨ m.Fits A m₀.ownPool 1)) ↔
      H.free c ≠ [] ∨ m.Fits A m₀.ownPool 1 := by
    refine ⟨fun ⟨d,hd,hs⟩ => ?_,fun hs => ⟨c,hc,hs⟩⟩
    rwa [hc.unique hd]
  simp only [hserve]
  have hkeep {r : ℕ} {m' : Machine} {A' : FrameMap} {H' : Heap}
      (ha : Allocated (m.setMem mem') A H r size m' A' H') : Allocated m A H r size m' A' H' :=
    ⟨ha.nonnull,ha.live,ha.fresh,ha.zero,fun q hq => by rw [ha.keep q hq,hview]⟩
  rw [Runs,heq]
  by_cases hempty : H.free c = []
  · rw [if_pos hempty]
    refine (h₂.mallocArena_runs h₀ hempty hc.1 hlock).mono ?_ fun _ _ he hs => ?_
    · rintro r m' ⟨hf,A',p,l,hrep,hr,hp,hv,ha,hl,hroom⟩
      refine ⟨.inr hf,A',_,hrep,?_,hkeep ha,hl,hroom⟩
      refine Heap.take_tight (h.heap.shape.addSmall hv c) hr fun q d hq hne => ?_
      rw [hp] at hne
      exact ht q d ((Function.update_of_ne hne _ _).symm.trans hq)
    · exact he (hs.resolve_left fun hne => hne hempty)
  · obtain ⟨x,l,hx⟩ := List.exists_cons_of_ne_nil hempty
    obtain ⟨m',hrun,hrep,ha,hl,hroom⟩ := h₂.takeBlock_run hx hc.1 hlock
    rw [if_neg hempty,hrun]
    refine ⟨.inl hempty,A,_,hrep,?_,hkeep ha,hl,
      fun _ k hk => hroom k (Machine.Roomy.mono hk (Nat.le_add_left k 1))⟩
    exact Heap.take_tight h.heap.shape (hx ▸ List.mem_cons_self) fun q d hq _ => ht q d hq

/-- The specification of sys_malloc. -/
theorem HeapRep.sysMalloc_runs (h : HeapRep m₀ A₀ m A H) (h₀ : PageRep m₀ A₀ F) (ht : H.Tight)
    (hlock : (m.pool m₀.ownPool).lock = ⟨none,0⟩) :
    Runs (sysMalloc size) m
      (fun r m' => (m.pool m₀.ownPool).poolSize < size ∧ r = 0 ∧ m' = m ∨
        size ≤ (m.pool m₀.ownPool).poolSize ∧ m.CanServe A H size ∧ ∃ A' H',
          HeapRep m₀ A₀ m' A' H' ∧ H'.Tight ∧ Allocated m A H r size m' A' H' ∧
          (m'.pool m₀.ownPool).lock = ⟨none,0⟩ ∧ m.LeavesRoom m₀.ownPool (pagesFor size) m')
      (fun _ _ => size ≤ (m.pool m₀.ownPool).poolSize ∧ ¬ m.CanServe A H size) := by
  have hpool := Machine.ownPool_congr h.setup
  have hget := sysMalloc_eq m size
  rw [hpool,Machine.descs_congr h.setup] at hget
  rw [Runs,hget]
  by_cases hbig : (m.pool m₀.ownPool).poolSize < size
  · rw [if_pos hbig]
    exact .inl ⟨hbig,rfl,rfl⟩
  rw [if_neg hbig,Exec.bind_of_ok (lockAcquire_free hlock)]
  have hle := Nat.le_of_not_lt hbig
  generalize hm₁ : m.setLock m₀.ownPool ⟨some m.runningThread,1⟩ = m₁
  have h₁ : HeapRep m₀ A₀ m₁ A H := hm₁ ▸ h.setLock _ _
  have hlock₁ : (m₁.pool m₀.ownPool).lock = ⟨some m₁.runningThread,1⟩ := by
    rw [← hm₁,Machine.setLock_pool,if_pos rfl]
    rfl
  have hserve : m₁.CanServe A H size ↔ m.CanServe A H size := by
    unfold Machine.CanServe
    rw [← hm₁,Machine.ownPool_congr (m.setLock_setup _ _)]
    simp only [Machine.setLock_fits]
  refine (h₁.mallocLocked_runs h₀ ht hlock₁).mono ?_
    fun _ _ he => ⟨hle,fun hs => he (hserve.mpr hs)⟩
  rintro r m' ⟨hs,A',H',hrep,ht',ha,hl,hroom⟩
  subst hm₁
  exact .inr ⟨hle,hserve.mp hs,A',H',hrep,ht',⟨ha.nonnull,ha.live,ha.fresh,ha.zero,ha.keep⟩,hl,
    fun hk k hr => hroom hk k hr.setLock⟩

end Malloc
end OsKernel

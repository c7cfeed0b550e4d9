import OsKernel.Memory.HeapStart

/-! Runs of the heap of one owner: a thread calls sys_malloc and sys_free, and writes to the
pointers that it has got. The pointers in use do not overlap, and nobody else changes them. Every
access goes through the page tables as they are; what the processor may still remember of older
tables is in the module Tlb. -/
namespace OsKernel
open Paging ByteMemory Exec KernelM IntrusiveList

/-- The byte at a virtual address, when the page tables map it now. -/
def Machine.byteAt (m : Machine) (va : ℕ) : Option (BitVec 8) := (m.translate va).map m.mem

/-- The owner, and the pointers that it has got and not given back, with the sizes asked for. -/
structure HeapSys where
  m : Machine
  live : ℕ → Option ℕ

namespace HeapSys

def init (m : Machine) : HeapSys := ⟨m,fun _ => none⟩

/-- The calls that return. -/
inductive Call : HeapSys → HeapSys → Prop
  | sysMalloc {s size p m'} (hp : p ≠ 0) (h : sysMalloc size s.m = (.ok p,m')) :
    Call s ⟨m',Function.update s.live p (some size)⟩
  | null {s size m'} (h : OsKernel.sysMalloc size s.m = (.ok 0,m')) : Call s ⟨m',s.live⟩
  | sysFree {s p size m'} (hl : s.live p = some size) (h : sysFree p s.m = (.ok (),m')) :
    Call s ⟨m',Function.update s.live p none⟩

/-- A call, or a write to an allocation in use. -/
inductive Step : HeapSys → HeapSys → Prop
  | call {s s'} (h : Call s s') : Step s s'
  | store {s p size q b m'} (hl : s.live p = some size) (h₁ : p ≤ q) (h₂ : q < p+size)
      (h : storeByte q b s.m = (.ok (),m')) : Step s ⟨m',s.live⟩

/-- A state of a run that starts in m₀. -/
def Reachable (m₀ : Machine) : HeapSys → Prop := Relation.ReflTransGen Step (init m₀)

/-- What holds after every step. -/
structure Inv (m₀ : Machine) (A₀ : FrameMap) (s : HeapSys) (A : FrameMap) (H : Heap) : Prop where
  rep : HeapRep m₀ A₀ s.m A H
  tight : H.Tight
  live : H.live = s.live
  lock : (s.m.pool m₀.ownPool).lock = ⟨none,0⟩

section Steps
variable {m₀ m' : Machine} {A A₀ : FrameMap} {F : Set ℕ} {s s' : HeapSys} {H : Heap} {q : ℕ}

theorem Inv.start (h : HeapRep m₀ A₀ m₀ A₀ Heap.empty)
    (hlock : (m₀.pool m₀.ownPool).lock = ⟨none,0⟩) : Inv m₀ A₀ (init m₀) A₀ Heap.empty :=
  ⟨h,fun p c hp => absurd hp (by simp [Heap.empty]),rfl,hlock⟩

/-- What a call does, and to which bytes of the pointers in use it does nothing. -/
theorem Call.inv (hs : Call s s') (h : Inv m₀ A₀ s A H) (h₀ : PageRep m₀ A₀ F) :
    ∃ A' H', Inv m₀ A₀ s' A' H' ∧
      ∀ q, H.LiveByte q → H'.LiveByte q → s'.m.data A' q = s.m.data A q := by
  cases hs with
  | @sysMalloc size p m' hp heq =>
    obtain ⟨-,rfl,-⟩|⟨-,-,A',H',hrep,ht,ha,hl,-⟩ :=
      (h.rep.sysMalloc_runs h₀ h.tight h.lock).of_ok heq
    · exact absurd rfl hp
    · refine ⟨A',H',⟨hrep,ht,?_,hl⟩,fun q hq _ => ha.keep q hq⟩
      rw [ha.live,h.live]
  | null heq =>
    obtain ⟨-,-,rfl⟩|⟨-,-,A',H',-,-,ha,-⟩ := (h.rep.sysMalloc_runs h₀ h.tight h.lock).of_ok heq
    · exact ⟨A,H,⟨h.rep,h.tight,h.live,h.lock⟩,fun _ _ _ => rfl⟩
    · exact absurd rfl ha.nonnull
  | @sysFree p size m' hlive heq =>
    rw [← h.live] at hlive
    obtain ⟨m'',A',H',hrun,hrep,ht,hf,hl,-⟩ := h.rep.sysFree_run h₀ h.tight h.lock hlive
    rw [hrun] at heq
    obtain rfl := (Prod.mk.inj heq).2
    refine ⟨A',H',⟨hrep,ht,?_,hl⟩,fun q _ hq => hf.keep q hq⟩
    rw [hf.live,h.live]

/-- A write to an allocation in use returns, and leaves everything that the allocator relies on. -/
theorem Inv.store_run (h : Inv m₀ A₀ s A H) {p size : ℕ} (hl : s.live p = some size)
    (h₁ : p ≤ q) (h₂ : q < p+size) (b : BitVec 8) : ∃ m', storeByte q b s.m = (.ok (),m') ∧
      Inv m₀ A₀ ⟨m',s.live⟩ A H ∧ m'.data A = store8 (s.m.data A) q b := by
  have hq : H.LiveByte q := ⟨p,size,h.live ▸ hl,h₁,h₂⟩
  have hheap := h.rep.heap
  have hstore : Acts s.m (s.m.dataPages A) Set.univ (storeByte q b) (s.m.data A) ()
      (store8 (s.m.data A) q b) := .storeByte h.rep.rep.window (hheap.live_page hq) trivial
  have hheap' : HeapIn (s.m.dataPages A) (store8 (s.m.data A) q b) m₀.descs H := by
    refine hheap.congr hheap.desc hheap.mapped fun r hr => Function.update_of_ne ?_ _ _
    rintro rfl
    exact hheap.live_not_meta hq hr
  obtain ⟨mem',hrun,hrep,hview⟩ := h.rep.run_acts hstore hheap' rfl
  exact ⟨_,hrun,⟨hrep,h.tight,h.live,h.lock⟩,hview⟩

theorem Inv.store (h : Inv m₀ A₀ s A H) {p size : ℕ} {b : BitVec 8} (hl : s.live p = some size)
    (h₁ : p ≤ q) (h₂ : q < p+size) (heq : storeByte q b s.m = (.ok (),m')) :
    Inv m₀ A₀ ⟨m',s.live⟩ A H ∧ m'.data A = store8 (s.m.data A) q b := by
  obtain ⟨m'',hrun,hstored⟩ := h.store_run hl h₁ h₂ b
  rw [hrun] at heq
  obtain rfl := (Prod.mk.inj heq).2
  exact hstored

theorem Step.inv (hs : Step s s') (h : Inv m₀ A₀ s A H) (h₀ : PageRep m₀ A₀ F) :
    ∃ A' H', Inv m₀ A₀ s' A' H' := by
  cases hs with
  | call hc =>
    obtain ⟨A',H',h',-⟩ := hc.inv h h₀
    exact ⟨A',H',h'⟩
  | store hl h₁ h₂ heq => exact ⟨A,H,(h.store hl h₁ h₂ heq).1⟩

/-- sys_free of a pointer in use returns. -/
theorem Inv.sysFree_ok (h : Inv m₀ A₀ s A H) (h₀ : PageRep m₀ A₀ F) {p size : ℕ}
    (hl : s.live p = some size) : ∃ m', OsKernel.sysFree p s.m = (.ok (),m') := by
  obtain ⟨m',-,-,hrun,-⟩ := h.rep.sysFree_run h₀ h.tight h.lock (h.live ▸ hl)
  exact ⟨m',hrun⟩

/-- A thread of the kernel can be served where there is room. -/
theorem Inv.canServe (h : Inv m₀ A₀ s A H) (size : ℕ) {k : ℕ} (hown : m₀.ownPool = .kernel)
    (hlt : pagesFor size < 3840) (hroom : s.m.Roomy (pagesFor size+k)) : s.m.CanServe A H size := by
  have hpos : 0 < pagesFor size := by
    unfold pagesFor divRoundUp arenaSize pageSize
    split <;> omega
  have hfits := hroom.fits (A := A) hpos hlt (Nat.le_add_right _ _)
  rw [Machine.CanServe,Machine.ownPool_congr h.rep.setup,hown]
  unfold pagesFor at hfits
  split at hfits
  · rwa [if_pos ‹_›]
  · rename_i hsmall
    rw [if_neg hsmall]
    obtain ⟨c,hc,hfirst,-⟩ :=
      h.rep.heap.descsIn.findDesc h.rep.rep.window (Nat.le_of_not_lt hsmall)
    exact ⟨c,⟨hc,hfirst⟩,.inr hfits⟩

/-- There sys_malloc returns a new pointer. -/
theorem Inv.sysMalloc_ok (h : Inv m₀ A₀ s A H) (h₀ : PageRep m₀ A₀ F) (size : ℕ) {k : ℕ}
    (hown : m₀.ownPool = .kernel) (hsize : size ≤ (m₀.pool .kernel).poolSize)
    (hlt : pagesFor size < 3840) (hroom : s.m.Roomy (pagesFor size+k)) :
    ∃ p m', p ≠ 0 ∧ OsKernel.sysMalloc size s.m = (.ok p,m') ∧ s.live p = none ∧ m'.Roomy k := by
  have hpool : (s.m.pool .kernel).poolSize = (m₀.pool .kernel).poolSize :=
    congrArg (fun m => (m.pool .kernel).poolSize) h.rep.setup
  have hruns : Runs (OsKernel.sysMalloc size) s.m _ _ := h.rep.sysMalloc_runs h₀ h.tight h.lock
  rw [hown,hpool] at hruns
  obtain ⟨r,m',hcall⟩ : ∃ r m', OsKernel.sysMalloc size s.m = (r,m') := ⟨_,_,rfl⟩
  cases r with
  | error e => exact absurd (h.canServe size hown hlt hroom) (hruns.of_error hcall).2
  | ok p =>
    obtain ⟨hbig,-⟩|⟨-,-,A',H',-,-,ha,-,hrest⟩ := hruns.of_ok hcall
    · exact absurd hbig (Nat.not_lt_of_le hsize)
    · exact ⟨p,m',ha.nonnull,hcall,h.live ▸ ha.fresh,hrest rfl k hroom⟩

/-- Every state of a run satisfies the invariant. -/
theorem Reachable.inv (h : Reachable m₀ s) (hrep : HeapRep m₀ A₀ m₀ A₀ Heap.empty)
    (hlock : (m₀.pool m₀.ownPool).lock = ⟨none,0⟩) : ∃ A H, Inv m₀ A₀ s A H := by
  induction h with
  | refl => exact ⟨A₀,_,.start hrep hlock⟩
  | tail _ hstep ih =>
    obtain ⟨A,H,hinv⟩ := ih
    exact hstep.inv hinv hrep.rep

/-- A run goes on with sys_free of any pointer in use. -/
theorem Reachable.sysFree_ok (h : Reachable m₀ s) (hs : HeapStart m₀) {p size : ℕ}
    (hl : s.live p = some size) : ∃ m', OsKernel.sysFree p s.m = (.ok (),m') ∧
      Reachable m₀ ⟨m',Function.update s.live p none⟩ := by
  obtain ⟨A₀,hrep,hlock⟩ := hs.rep
  obtain ⟨A,H,hinv⟩ := h.inv hrep hlock
  obtain ⟨m',hrun⟩ := hinv.sysFree_ok hrep.rep hl
  exact ⟨m',hrun,h.tail (.call (.sysFree hl hrun))⟩

end Steps

section Safety
variable {m₀ m' : Machine} {A A' A₀ : FrameMap} {F : Set ℕ} {s s' : HeapSys} {H H' : Heap}
  {p q r size : ℕ}

/-- A byte that the owner sees is the one at its address. -/
theorem byteAt_eq {m : Machine} (h : PageRep m A F) (hq : (m.dataPages A (q/4096)).isSome) :
    m.byteAt q = some (m.data A q) := by
  obtain ⟨f,hf⟩ := Option.isSome_iff_exists.mp hq
  rw [Machine.byteAt,Machine.translate,h.window.walk hf,Machine.data,view_of_some hf]
  rfl

/-- The half of the address space that the thread allocates from. -/
def OwnHalf (m : Machine) (va : ℕ) : Prop :=
  if (m.task m.runningThread).pgdir = 0 then kHeapStart ≤ va ∧ va < 0xffc00000 else va < 0xc0000000

/-- The pointers in use have bytes of their own, which are mapped. -/
structure Apart (s : HeapSys) : Prop where
  mapped : ∀ p size, s.live p = some size → ∀ q, p ≤ q → q < p+size →
    OwnHalf s.m q ∧ (s.m.byteAt q).isSome
  header : ∀ p size r, s.live p = some size → s.live r ≠ none →
    p+size ≤ block2arena r ∨ block2arena r+arenaSize ≤ p
  apart : ∀ p size r n, s.live p = some size → s.live r = some n → p ≠ r →
    p+size ≤ r ∨ r+n ≤ p

/-- What is promised about a pointer p that sys_malloc has returned: its bytes are mapped and
zero, and apart from all headers and from the other pointers in use. -/
structure Fresh (s : HeapSys) (p size : ℕ) (m' : Machine) : Prop where
  new : s.live p = none
  zero : ∀ q, p ≤ q → q < p+size → OwnHalf m' q ∧ m'.byteAt q = some 0
  header : ∀ r, r = p ∨ s.live r ≠ none →
    p+size ≤ block2arena r ∨ block2arena r+arenaSize ≤ p
  apart : ∀ r n, s.live r = some n → p+size ≤ r ∨ r+n ≤ p

/-- The allocations in use before and after a step keep their bytes. -/
def Keeps (s s' : HeapSys) : Prop := ∀ r n, s.live r = some n → s'.live r = some n →
  ∀ q, r ≤ q → q < r+n → s'.m.byteAt q = s.m.byteAt q ∧ (s.m.byteAt q).isSome

/-- The header of the arena of a pointer in use. -/
theorem live_arena {descs : ℕ} (h : H.Shape descs) (hr : H.live r = some size) :
    ∃ k, H.arena (r/4096) = some k ∧ block2arena r = 4096*(r/4096) := by
  refine Exists.imp (fun k hk => ⟨hk,block2arena_eq rfl⟩) ?_
  obtain ⟨p,c,i,hp,hi,rfl⟩|⟨p,n,hp,rfl⟩ := h.live_cases hr
  · exact ⟨_,by rwa [blockAt_page hi]⟩
  · exact ⟨_,by rwa [show (4096*p+12)/4096 = p by omega]⟩

/-- The pages of arenas lie in the half of the address space that the owner allocates from. -/
theorem ownHalf_of_covers (h : HeapRep m₀ A₀ s.m A H) (hq : H.Covers (q/4096)) :
    OwnHalf s.m q := by
  obtain ⟨f,hf⟩ := Option.isSome_iff_exists.mp (h.new _ hq).1
  have hin := h.rep.inSpace hf
  rw [← Machine.own_congr h.setup,Machine.own,Machine.ownPool] at hin
  unfold OwnHalf
  split
  · rename_i hk
    rw [if_pos hk] at hin
    have hle := hin.1
    have hlt := hin.lt h.rep.toLayout
    unfold kernelHeapPage at hle
    unfold recursivePage at hlt
    unfold kHeapStart
    omega
  · rename_i hk
    rw [if_neg hk] at hin
    have hlt := hin.2.2
    unfold kernelHalf at hlt
    omega

theorem Inv.apart (h : Inv m₀ A₀ s A H) : Apart s := by
  have hshape := h.rep.heap.shape
  refine ⟨fun p size hp q h₁ h₂ => ?_,fun p size r hp hr => ?_,fun p size r n hp hr hne => ?_⟩
  · have hq : H.LiveByte q := ⟨p,size,h.live ▸ hp,h₁,h₂⟩
    rw [byteAt_eq h.rep.rep (h.rep.heap.live_page hq)]
    exact ⟨ownHalf_of_covers h.rep (h.rep.heap.live_covers hq),rfl⟩
  · obtain ⟨e,hroom,hle⟩ := hshape.live p size (h.live ▸ hp)
    obtain ⟨n,hn⟩ := Option.ne_none_iff_exists'.mp hr
    obtain ⟨k,hk,hblock⟩ := live_arena hshape (h.live ▸ hn)
    have hheader := hshape.room_header hroom hk
    rw [hblock,arenaSize]
    omega
  · obtain ⟨e,hroom,hle⟩ := hshape.live p size (h.live ▸ hp)
    obtain ⟨f,hroom',hle'⟩ := hshape.live r n (h.live ▸ hr)
    have hapart := hshape.room_apart hroom hroom' hne
    omega

/-- The result of sys_malloc, from what the call does to the heap. -/
theorem Inv.fresh (h : Inv m₀ A₀ s A H) (ha : Allocated s.m A H p size m' A' H')
    (h' : Inv m₀ A₀ ⟨m',Function.update s.live p (some size)⟩ A' H') : Fresh s p size m' := by
  have hnew : s.live p = none := h.live ▸ ha.fresh
  have hp : Function.update s.live p (some size) p = some size := Function.update_self _ _ _
  have hold {r n : ℕ} (hr : s.live r = some n) : p ≠ r ∧
      Function.update s.live p (some size) r = some n := by
    have hne : r ≠ p := by
      rintro rfl
      rw [hnew] at hr
      cases hr
    exact ⟨hne.symm,by rwa [Function.update_of_ne hne]⟩
  have hapart := h'.apart
  refine ⟨hnew,fun q h₁ h₂ => ?_,fun r hr => hapart.header p size r hp ?_,fun r n hr => ?_⟩
  · have hq : H'.LiveByte q := ⟨p,size,h'.live ▸ hp,h₁,h₂⟩
    rw [byteAt_eq h'.rep.rep (h'.rep.heap.live_page hq),ha.zero q h₁ h₂]
    exact ⟨(hapart.mapped p size hp q h₁ h₂).1,rfl⟩
  · obtain rfl|hr := hr
    · exact Option.ne_none_iff_exists'.mpr ⟨size,hp⟩
    · obtain ⟨n,hn⟩ := Option.ne_none_iff_exists'.mp hr
      exact Option.ne_none_iff_exists'.mpr ⟨n,(hold hn).2⟩
  · exact hapart.apart p size r n hp (hold hr).2 (hold hr).1

/-- A pointer that sys_malloc returns is fresh. -/
theorem Inv.sysMalloc_fresh (h : Inv m₀ A₀ s A H) (h₀ : PageRep m₀ A₀ F)
    (heq : sysMalloc size s.m = (.ok p,m')) (hp : p ≠ 0) : Fresh s p size m' := by
  obtain ⟨-,rfl,-⟩|⟨-,-,A',H',hrep,ht,ha,hl,-⟩ :=
    (h.rep.sysMalloc_runs h₀ h.tight h.lock).of_ok heq
  · exact absurd rfl hp
  · exact h.fresh ha ⟨hrep,ht,by rw [ha.live,h.live],hl⟩

/-- A call leaves an allocation in use, unless it gives it back. -/
theorem Call.keeps (hc : Call s s') (h : Inv m₀ A₀ s A H) (h₀ : PageRep m₀ A₀ F)
    (hp : s.live p = some size) (hp' : s'.live p = some size) (hle : p ≤ q) (hlt : q < p+size) :
    s'.m.byteAt q = s.m.byteAt q := by
  obtain ⟨A',H',h',hkeep⟩ := hc.inv h h₀
  have hq : H.LiveByte q := ⟨p,size,h.live ▸ hp,hle,hlt⟩
  have hq' : H'.LiveByte q := ⟨p,size,h'.live ▸ hp',hle,hlt⟩
  rw [byteAt_eq h.rep.rep (h.rep.heap.live_page hq),
    byteAt_eq h'.rep.rep (h'.rep.heap.live_page hq'),hkeep q hq hq']

/-- Heap safety: in every state of every run sys_malloc returns mapped bytes that are zero and
overlap no header and no other allocation, and no call changes an allocation in use. -/
theorem reachable_safe (hs : HeapStart m₀) (h : Reachable m₀ s) :
    (∀ size p m', sysMalloc size s.m = (.ok p,m') → p ≠ 0 → Fresh s p size m') ∧
      ∀ s', Call s s' → Keeps s s' := by
  obtain ⟨A₀,hrep₀,hlock₀⟩ := hs.rep
  obtain ⟨A,H,hinv⟩ := h.inv hrep₀ hlock₀
  refine ⟨fun size p m' => hinv.sysMalloc_fresh hrep₀.rep,fun s' hc r n hr hr' q h₁ h₂ => ?_⟩
  exact ⟨hc.keeps hinv hrep₀.rep hr hr' h₁ h₂,(hinv.apart.mapped r n hr q h₁ h₂).2⟩

/-- A run in which a thread of the kernel has got two blocks of 24 bytes and an arena of its own for
2000 bytes. -/
structure ThreeCalls (m₀ m₁ m₂ m₃ : Machine) (p q r : ℕ) : Prop where
  start : HeapStart m₀
  first : p ≠ 0 ∧ sysMalloc 24 m₀ = (.ok p,m₁)
  second : q ≠ 0 ∧ sysMalloc 24 m₁ = (.ok q,m₂)
  third : r ≠ 0 ∧ sysMalloc 2000 m₂ = (.ok r,m₃)
  nodup : [p,q,r].Nodup

def inUse₁ (p : ℕ) : ℕ → Option ℕ := Function.update (fun _ => none) p (some 24)
def inUse₂ (p q : ℕ) : ℕ → Option ℕ := Function.update (inUse₁ p) q (some 24)
def inUse₃ (p q r : ℕ) : ℕ → Option ℕ := Function.update (inUse₂ p q) r (some 2000)

theorem ThreeCalls.reachable₂ {m₁ m₂ m₃ : Machine} (h : ThreeCalls m₀ m₁ m₂ m₃ p q r) :
    Reachable m₀ ⟨m₂,inUse₂ p q⟩ :=
  .tail (.single (.call (.sysMalloc h.first.1 h.first.2))) (.call (.sysMalloc h.second.1 h.second.2))

theorem ThreeCalls.reachable₃ {m₁ m₂ m₃ : Machine} (h : ThreeCalls m₀ m₁ m₂ m₃ p q r) :
    Reachable m₀ ⟨m₃,inUse₃ p q r⟩ :=
  .tail h.reachable₂ (.call (.sysMalloc h.third.1 h.third.2))

theorem ThreeCalls.live {m₁ m₂ m₃ : Machine} (h : ThreeCalls m₀ m₁ m₂ m₃ p q r) :
    inUse₃ p q r p = some 24 ∧ inUse₃ p q r q = some 24 ∧ inUse₃ p q r r = some 2000 := by
  have hnd := h.nodup
  simp only [List.nodup_cons,List.mem_cons,List.not_mem_nil,or_false,not_or] at hnd
  obtain ⟨⟨hpq,hpr⟩,hqr,-⟩ := hnd
  simp [inUse₃,inUse₂,inUse₁,hpq,hpr,hqr]

theorem ThreeCalls.mem_iff {m₁ m₂ m₃ : Machine} (h : ThreeCalls m₀ m₁ m₂ m₃ p q r) (x : ℕ) :
    x ∈ [p,q,r] ↔ inUse₃ p q r x ≠ none := by
  simp only [List.mem_cons,List.not_mem_nil,or_false]
  constructor
  · rintro (rfl|rfl|rfl)
    · simp [h.live.1]
    · simp [h.live.2.1]
    · simp [h.live.2.2]
  · intro hx
    by_contra hc
    rw [not_or,not_or] at hc
    obtain ⟨hp,hq,hr⟩ := hc
    exact hx (by simp [inUse₃,inUse₂,inUse₁,hp,hq,hr])

/-- The small computer has room for these calls and more. -/
theorem exists_threeCalls_roomy : ∃ m₀ m₁ m₂ m₃ p q r, ThreeCalls m₀ m₁ m₂ m₃ p q r ∧
    m₀.ownPool = .kernel ∧ 2^24 ≤ (m₀.pool .kernel).poolSize ∧ m₃.Roomy 988 := by
  obtain ⟨m₀,A₀,hs,hrep,hlock,hown,hsize,hroom⟩ := exists_heapStart
  have hinv {s : HeapSys} (h : Reachable m₀ s) := h.inv hrep hlock
  obtain ⟨A,H,h⟩ := hinv .refl
  obtain ⟨p,m₁,hp,hcall₁,-,hroom₁⟩ := h.sysMalloc_ok hrep.rep 24 (k := 990) hown
    (Nat.le_trans (by decide) hsize) (by decide) hroom
  have hs₁ : Reachable m₀ ⟨m₁,inUse₁ p⟩ := .single (.call (.sysMalloc hp hcall₁))
  obtain ⟨A,H,h⟩ := hinv hs₁
  obtain ⟨q,m₂,hq,hcall₂,hnew₂,hroom₂⟩ := h.sysMalloc_ok hrep.rep 24 (k := 989) hown
    (Nat.le_trans (by decide) hsize) (by decide) hroom₁
  have hs₂ : Reachable m₀ ⟨m₂,inUse₂ p q⟩ := hs₁.tail (.call (.sysMalloc hq hcall₂))
  obtain ⟨A,H,h⟩ := hinv hs₂
  obtain ⟨r,m₃,hr,hcall₃,hnew₃,hroom₃⟩ :=
    h.sysMalloc_ok hrep.rep 2000 (k := 988) hown
      (Nat.le_trans (by decide) hsize) (by decide) hroom₂
  refine ⟨m₀,m₁,m₂,m₃,p,q,r,⟨hs,⟨hp,hcall₁⟩,⟨hq,hcall₂⟩,⟨hr,hcall₃⟩,?_⟩,hown,hsize,hroom₃⟩
  have hpq : p ≠ q := by
    rintro rfl
    simp [inUse₁] at hnew₂
  have hqr : q ≠ r := by
    rintro rfl
    simp [inUse₂] at hnew₃
  have hpr : p ≠ r := by
    rintro rfl
    simp [inUse₂,inUse₁,hpq] at hnew₃
  simp [hpq,hpr,hqr]

theorem exists_threeCalls : ∃ m₀ m₁ m₂ m₃ p q r, ThreeCalls m₀ m₁ m₂ m₃ p q r := by
  obtain ⟨m₀,m₁,m₂,m₃,p,q,r,h,-⟩ := exists_threeCalls_roomy
  exact ⟨m₀,m₁,m₂,m₃,p,q,r,h⟩

theorem reachable_safe_small : ∃ m₀ m₁ m₂ m₃ p q r, ThreeCalls m₀ m₁ m₂ m₃ p q r ∧
    Fresh ⟨m₂,inUse₂ p q⟩ r 2000 m₃ ∧ ∃ m₄, sysFree p m₃ = (.ok (),m₄) ∧
      Keeps ⟨m₃,inUse₃ p q r⟩ ⟨m₄,Function.update (inUse₃ p q r) p none⟩ := by
  obtain ⟨m₀,m₁,m₂,m₃,p,q,r,h⟩ := exists_threeCalls
  have hfresh := (reachable_safe h.start h.reachable₂).1 2000 r m₃ h.third.2 h.third.1
  obtain ⟨m₄,hfree,-⟩ := h.reachable₃.sysFree_ok h.start h.live.1
  exact ⟨m₀,m₁,m₂,m₃,p,q,r,h,hfresh,m₄,hfree,
    (reachable_safe h.start h.reachable₃).2 _ (.sysFree h.live.1 hfree)⟩

end Safety
end HeapSys
end OsKernel

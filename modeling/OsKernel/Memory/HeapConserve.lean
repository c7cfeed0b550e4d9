import OsKernel.Memory.HeapSys

/-! Conservation of the heap: the free lists have exactly the free blocks of the arenas in use,
and when nothing is in use every page has been given back. -/
namespace OsKernel
open Paging ByteMemory Exec KernelM IntrusiveList

/-- The memory as the running thread sees it. -/
def Machine.bytes (m : Machine) : ByteMemory := fun va => (m.byteAt va).getD 0

namespace HeapSys

/-- The page at a is an arena whose desc is that of the class. -/
def OfClass (s : HeapSys) (a : ℕ) (c : Fin 7) : Prop :=
  (∃ r, s.live r ≠ none ∧ block2arena r = a) ∧ load32 s.m.bytes a = s.m.descs+24*c.val

/-- The number of pages of the arena at a, by its header. -/
def arenaPages (V : ByteMemory) (a : ℕ) : ℕ := if load32 V a = 0 then load32 V (a+4) else 1

/-- The lists in memory, and what is on them. -/
structure Conserves (m₀ : Machine) (s : HeapSys) (free : Fin 7 → List ℕ) : Prop where
  sizes : ∀ c : Fin 7, load32 s.m.bytes (s.m.descs+24*c.val) = classSize c ∧
    load32 s.m.bytes (s.m.descs+24*c.val+4) = perArena c
  /-- No node is on a list twice, or on two lists. -/
  lists : Represents (nodeLinks s.m.bytes) (freeListAt s.m.descs)
    (fun c => freeListAt s.m.descs c+8) free
  blocks : ∀ c b, b ∈ free c ↔ s.live b = none ∧ ∃ a i, s.OfClass a c ∧ i < perArena c ∧
    b = a+arenaSize+i*classSize c
  cnt : ∀ a c, s.OfClass a c →
    load32 s.m.bytes (a+4) = (free c).countP (fun b => block2arena b = a) ∧
      load32 s.m.bytes (a+4) < perArena c
  mapped : ∀ c b, b ∈ free c → ∀ q, b ≤ q → q < b+classSize c → (s.m.byteAt q).isSome
  /-- Apart from what was mapped before, there are the arenas of the pointers in use and no
  others. -/
  pages : ∀ q, OwnHalf s.m q → ((s.m.byteAt q).isSome ↔ (m₀.byteAt q).isSome ∨
    ∃ r, s.live r ≠ none ∧ block2arena r ≤ q ∧
      q < block2arena r+4096*arenaPages s.m.bytes (block2arena r))

/-- A page table of the running process that it did not have in m₀. -/
def TakenForTable (m₀ m : Machine) (f : ℕ) : Prop := ∃ j, j < 768 ∧
  target (word m.mem (m.cr3/pageSize) j) = some f ∧
  target (word m₀.mem (m₀.cr3/pageSize) j) = none

/-- The bitmaps are those of m₀, bit for bit, apart from the frames for page tables of a
process. -/
structure Restored (m₀ m : Machine) : Prop where
  vaddr : ∀ s k, k < 8*(m₀.vaddr s).vaddrBitmap.btmpBytesLen →
    (m.vaddr s).vaddrBitmap.bitmapScanTest k = (m₀.vaddr s).vaddrBitmap.bitmapScanTest k
  user : ∀ i, i < 8*m₀.len .user → m.bit .user i = m₀.bit .user i
  kernel : ∀ i, i < 8*m₀.len .kernel → m.bit .kernel i = m₀.bit .kernel i ∨
    (m₀.task m₀.runningThread).pgdir ≠ 0 ∧ TakenForTable m₀ m (m₀.start .kernel+i)

section Blocks
variable {H : Heap} {descs p : ℕ} {c : Fin 7}

/-- The count of an arena, as the number of its blocks on the list. -/
theorem countP_free (h : H.Shape descs) (hnd : (H.free c).Nodup)
    (hp : H.arena p = some (.small c)) :
    (H.free c).countP (fun b => block2arena b = 4096*p) = H.freeCount p c := by
  have himage : ((H.free c).filter fun b => block2arena b = 4096*p).toFinset =
      ((Finset.range (perArena c)).filter fun i => H.live (blockAt p c i) = none).image
        (blockAt p c) := by
    ext b
    simp only [List.mem_toFinset,List.mem_filter,decide_eq_true_eq,Finset.mem_image,
      Finset.mem_filter,Finset.mem_range]
    constructor
    · rintro ⟨hb,hpage⟩
      obtain ⟨hlive,q,i,hq,hi,rfl⟩ := (h.free c b).mp hb
      rw [block2arena_eq (blockAt_page hi)] at hpage
      obtain rfl : q = p := by omega
      exact ⟨i,⟨hi,hlive⟩,rfl⟩
    · rintro ⟨i,⟨hi,hlive⟩,rfl⟩
      exact ⟨(h.free c _).mpr ⟨hlive,p,i,hp,hi,rfl⟩,block2arena_eq (blockAt_page hi)⟩
  rw [List.countP_eq_length_filter,← List.toFinset_card_of_nodup (hnd.filter _),himage,
    Finset.card_image_of_injective _ fun _ _ => blockAt_inj]
  rfl

/-- An arena that is not all free has a block in use. -/
theorem exists_live (ht : H.Tight) (hp : H.arena p = some (.small c)) :
    ∃ i, i < perArena c ∧ H.live (blockAt p c i) ≠ none := by
  by_contra hc
  push Not at hc
  exact absurd (Heap.freeCount_eq_perArena hc) (Nat.ne_of_lt (ht p c hp))

/-- When nothing is in use there are no arenas. -/
theorem arena_eq_none (h : H.Shape descs) (ht : H.Tight) (hlive : ∀ x, H.live x = none) (p : ℕ) :
    H.arena p = none := by
  by_contra hne
  obtain ⟨k,hk⟩ := Option.ne_none_iff_exists'.mp hne
  cases k with
  | small c =>
    obtain ⟨i,-,hi⟩ := exists_live ht hk
    exact hi (hlive _)
  | large n =>
    have hsome := h.large p n hk
    rw [hlive] at hsome
    contradiction

end Blocks

section Conserved
variable {m₀ m : Machine} {A A₀ : FrameMap} {F : Set ℕ} {s : HeapSys} {H : Heap} {a p q : ℕ}
  {c : Fin 7}

theorem bytes_eq (h : PageRep m A F) (hq : (m.dataPages A (q/4096)).isSome) :
    m.bytes q = m.data A q := by
  rw [Machine.bytes,byteAt_eq h hq]
  rfl

theorem load32_bytes (h : PageRep m A F) (hw : WordIn (m.dataPages A) Set.univ a) :
    load32 m.bytes a = load32 (m.data A) a := by
  have haligned := hw.aligned
  refine load32_congr fun q h₁ h₂ => bytes_eq h ?_
  rw [show q/4096 = a/4096 by omega]
  exact hw.page

theorem Inv.descs_eq (h : Inv m₀ A₀ s A H) : s.m.descs = m₀.descs :=
  Machine.descs_congr h.rep.setup

theorem Inv.ofClass_iff (h : Inv m₀ A₀ s A H) :
    s.OfClass a c ↔ ∃ p, a = 4096*p ∧ H.arena p = some (.small c) := by
  have hheap := h.rep.heap
  have hdesc {p : ℕ} {k : Arena} (hp : H.arena p = some k) :
      load32 s.m.bytes (4096*p) = load32 (s.m.data A) (4096*p) :=
    load32_bytes h.rep.rep (hheap.header_word hp (j := 0) (by decide) rfl)
  constructor
  · rintro ⟨⟨r,hr,rfl⟩,hclass⟩
    obtain ⟨n,hn⟩ := Option.ne_none_iff_exists'.mp hr
    obtain ⟨k,hk,hblock⟩ := live_arena hheap.shape (h.live ▸ hn)
    rw [hblock,hdesc hk,h.descs_eq] at hclass
    refine ⟨_,hblock,?_⟩
    cases k with
    | small d =>
      rw [(hheap.small _ d hk).1] at hclass
      have hcd : c = d := Fin.ext (by omega)
      rw [hk,hcd]
    | large n =>
      have hnn := hheap.nonnull
      rw [(hheap.large _ n hk).1] at hclass
      omega
  · rintro ⟨p,rfl,hp⟩
    obtain ⟨i,hi,hlive⟩ := exists_live h.tight hp
    refine ⟨⟨blockAt p c i,h.live ▸ hlive,block2arena_eq (blockAt_page hi)⟩,?_⟩
    rw [hdesc hp,h.descs_eq]
    exact (hheap.small p c hp).1

/-- The pages of the half that the thread allocates from. -/
theorem byteAt_isSome {m : Machine} (h : PageRep m A F) (hq : OwnHalf m q) :
    (m.byteAt q).isSome ↔ (A (.page m.own (q/4096))).isSome := by
  obtain ⟨d,hd,hc⟩ := h.cr3_eq
  rw [Machine.byteAt,Machine.translate,hc,walk,Option.isSome_map,Option.isSome_map,Machine.own,
    Machine.ownPool]
  unfold OwnHalf at hq
  split at hq
  · rename_i hp
    unfold kHeapStart at hq
    rw [if_pos hp,h.lookup_kernel hd (by unfold kernelHeapPage; omega)
      (by unfold recursivePage; omega)]
    rfl
  · rename_i hp
    rw [if_neg hp,h.lookup_user hp hd (by unfold kernelHalf; omega)]
    rfl

theorem Inv.arenaPages_eq (h : Inv m₀ A₀ s A H) {k : Arena} (hp : H.arena p = some k) :
    arenaPages s.m.bytes (4096*p) = k.pages := by
  have hheap := h.rep.heap
  have hdesc : load32 s.m.bytes (4096*p) = load32 (s.m.data A) (4096*p) :=
    load32_bytes h.rep.rep (hheap.header_word hp (j := 0) (by decide) rfl)
  have hcnt : load32 s.m.bytes (4096*p+4) = load32 (s.m.data A) (4096*p+4) :=
    load32_bytes h.rep.rep (hheap.header_word hp (j := 4) (by decide) rfl)
  rw [arenaPages,hdesc,hcnt]
  cases k with
  | small c =>
    have hnn := hheap.nonnull
    rw [(hheap.small p c hp).1,if_neg (by omega)]
    rfl
  | large n =>
    obtain ⟨hdesc,hcnt,-⟩ := hheap.large p n hp
    rw [if_pos hdesc,hcnt]
    rfl

/-- Every arena has a pointer in use. -/
theorem Inv.covers_iff (h : Inv m₀ A₀ s A H) : H.Covers (q/4096) ↔ ∃ r, s.live r ≠ none ∧
    block2arena r ≤ q ∧ q < block2arena r+4096*arenaPages s.m.bytes (block2arena r) := by
  have hshape := h.rep.heap.shape
  constructor
  · rintro ⟨p,k,hp,h₁,h₂⟩
    obtain ⟨r,hr,hblock⟩ : ∃ r, s.live r ≠ none ∧ block2arena r = 4096*p := by
      rw [← h.live]
      cases k with
      | small c =>
        obtain ⟨i,hi,hlive⟩ := exists_live h.tight hp
        exact ⟨_,hlive,block2arena_eq (blockAt_page hi)⟩
      | large n =>
        exact ⟨_,Option.isSome_iff_ne_none.mp (hshape.large p n hp),block2arena_eq (by omega)⟩
    refine ⟨r,hr,?_⟩
    rw [hblock,h.arenaPages_eq hp]
    omega
  · rintro ⟨r,hr,h₁,h₂⟩
    obtain ⟨n,hn⟩ := Option.ne_none_iff_exists'.mp hr
    obtain ⟨k,hk,hblock⟩ := live_arena hshape (h.live ▸ hn)
    rw [hblock] at h₁ h₂
    rw [h.arenaPages_eq hk] at h₂
    exact ⟨_,k,hk,by omega,by omega⟩

/-- The free lists of the heap are those in memory. -/
theorem Inv.conserves (h : Inv m₀ A₀ s A H) (h₀ : PageRep m₀ A₀ F) : Conserves m₀ s H.free := by
  have hheap := h.rep.heap
  have hrep := h.rep.rep
  refine ⟨fun c => ?_,?_,fun c b => ?_,fun a c ha => ?_,fun c b hb q h₁ h₂ => ?_,
    fun q hq => ?_⟩
  · have hwords := hheap.descsIn.desc_words c
    rw [h.descs_eq,load32_bytes hrep (hwords.word (by decide)),
      load32_bytes hrep (hwords 4 (by decide) rfl)]
    exact hheap.sizes c
  · rw [h.descs_eq]
    refine hheap.lists.lists.congr fun c a ha => ?_
    have hwords := hheap.lists.words ha
    exact ⟨load32_bytes hrep (hwords 4 (by decide) rfl),
      load32_bytes hrep (hwords.word (by decide))⟩
  · rw [hheap.shape.free,h.live]
    refine and_congr_right fun _ => ⟨?_,?_⟩
    · rintro ⟨p,i,hp,hi,rfl⟩
      exact ⟨4096*p,i,h.ofClass_iff.mpr ⟨p,rfl,hp⟩,hi,rfl⟩
    · rintro ⟨a,i,ha,hi,rfl⟩
      obtain ⟨p,rfl,hp⟩ := h.ofClass_iff.mp ha
      exact ⟨p,i,hp,hi,rfl⟩
  · obtain ⟨p,rfl,hp⟩ := h.ofClass_iff.mp ha
    rw [load32_bytes hrep (hheap.header_word hp (by decide) rfl),(hheap.small p c hp).2,
      countP_free hheap.shape (hheap.lists.lists.nodup_list c) hp]
    exact ⟨rfl,h.tight p c hp⟩
  · obtain ⟨-,p,i,hp,hi,rfl⟩ := (hheap.shape.free c b).mp hb
    have hbounds := blockAt_bounds (p := p) hi
    have hpage : (s.m.dataPages A (q/4096)).isSome := by
      rw [show q/4096 = p by omega]
      exact (hheap.mapped p (hheap.shape.covers_first hp)).1
    rw [byteAt_eq hrep hpage]
    rfl
  · have hset := h.rep.setup
    have hq₀ : OwnHalf m₀ q := (congrArg (fun m => OwnHalf m q) hset).mp hq
    rw [byteAt_isSome hrep hq,byteAt_isSome h₀ hq₀,Machine.own_congr hset,← h.covers_iff]
    by_cases hcov : H.Covers (q/4096)
    · exact iff_of_true (h.rep.new _ hcov).1 (.inr hcov)
    · rw [h.rep.old _ hcov,or_iff_left hcov]

end Conserved

section Returned
variable {m₀ m : Machine} {A A₀ : FrameMap} {F : Set ℕ} {s : HeapSys} {H : Heap} {x : Use} {f : ℕ}

theorem vaddr_len_congr (h : m.setup = m₀.setup) (sp : Option TaskId) :
    (m.vaddr sp).vaddrBitmap.btmpBytesLen = (m₀.vaddr sp).vaddrBitmap.btmpBytesLen := by
  cases sp with
  | none => exact congrArg (fun c => (c.vaddr none).vaddrBitmap.btmpBytesLen) h
  | some t => exact congrArg (fun c => (c.vaddr (some t)).vaddrBitmap.btmpBytesLen) h

/-- The process that the thread is, when it allocates from a half of its own. -/
theorem own_eq_some {t : TaskId} (h : m.own = some t) : t = m.runningThread ∧ m.IsProc t := by
  rw [Machine.own,Machine.ownPool] at h
  split at h
  · cases h
  · rename_i hp
    cases h
    exact ⟨rfl,hp⟩

/-- Without pages of its own the thread keeps nothing but page tables. -/
theorem unmoved (h : OwnPages m₀ A₀ m A ∅) (hx : ∀ t i, m₀.own = some t → x ≠ .table t i) :
    A x = A₀ x := by
  by_cases hp : ∃ v, x = .page m₀.own v
  · obtain ⟨v,rfl⟩ := hp
    exact h.old v (Set.notMem_empty v)
  · exact h.other x (not_exists.mp hp) hx

theorem page_unmoved (h : OwnPages m₀ A₀ m A ∅) (sp : Option TaskId) (v : ℕ) :
    A (.page sp v) = A₀ (.page sp v) :=
  unmoved h fun t i _ hc => by cases hc

/-- A frame with a use now and none before is a page table of the running process. -/
theorem takenForTable (h : OwnPages m₀ A₀ m A ∅) (h₀ : PageRep m₀ A₀ F) (hx : A x = some f)
    (hne : A₀ x ≠ some f) : x.pool = .kernel ∧ m₀.IsProc m₀.runningThread ∧
      TakenForTable m₀ m f := by
  have htable : ∃ t i, m₀.own = some t ∧ x = .table t i := by
    by_contra hc
    push Not at hc
    exact hne (unmoved h hc ▸ hx)
  obtain ⟨t,i,ht,rfl⟩ := htable
  obtain ⟨rfl,hproc⟩ := own_eq_some ht
  have hi := (h.rep.table _ i f hx).2
  have hrun := Machine.runningThread_congr h.setup
  obtain ⟨d,hd,hcr⟩ := h.rep.cr3
  rw [hrun] at hd
  have hd₀ : m₀.dirOf A₀ m₀.runningThread = some d := by
    rw [← hd,Machine.dirOf_congr h.setup,Machine.dirOf,Machine.dirOf,
      page_unmoved h]
  have hdiv : pageSize*d/pageSize = d := Nat.mul_div_cancel_left d (by decide)
  refine ⟨rfl,hproc,i,hi,?_,?_⟩
  · rw [hcr,hdiv,h.rep.spec _ _ _ (.pde ((Machine.isProc_congr h.setup _).mpr hproc) hd hi),hx]
  · rw [← Machine.cr3_congr h.setup,hcr,hdiv,h₀.spec _ _ _ (.pde hproc hd₀ hi)]
    by_contra hc
    obtain ⟨g,hg⟩ := Option.ne_none_iff_exists'.mp hc
    have heq := h.table _ i g hg
    rw [hx] at heq
    exact hne (heq ▸ hg)

/-- A bit of a pool changes only for a page table. -/
theorem bit_unmoved (h : OwnPages m₀ A₀ m A ∅) (h₀ : PageRep m₀ A₀ ∅) {pf : PoolFlags} {i : ℕ}
    (hi : i < 8*m₀.len pf) : m.bit pf i = m₀.bit pf i ∨
      pf = .kernel ∧ m₀.IsProc m₀.runningThread ∧ TakenForTable m₀ m (m₀.start pf+i) := by
  have hnew := h.rep.bits pf i (by rwa [Machine.len_congr h.setup])
  rw [Machine.start_congr h.setup] at hnew
  have hold := h₀.bits pf i hi
  by_cases hc : ∃ x, A x = some (m₀.start pf+i) ∧ A₀ x ≠ some (m₀.start pf+i)
  · obtain ⟨x,hx,hne⟩ := hc
    obtain ⟨hpool,hproc,htaken⟩ := takenForTable h h₀ hx hne
    obtain ⟨hle,hlt⟩ := h.rep.inPool x _ hx
    rw [Machine.start_congr h.setup,Machine.len_congr h.setup] at hlt
    rw [Machine.start_congr h.setup] at hle
    have hpos : pf = x.pool ∧ i = m₀.start pf+i-m₀.start x.pool :=
      h₀.position_inj hi (by omega) (by omega)
    exact .inr ⟨hpos.1.trans hpool,hproc,htaken⟩
  · push Not at hc
    left
    rw [Bool.eq_iff_iff,hnew,hold]
    refine or_congr_right ⟨fun ⟨x,hx⟩ => ⟨x,hc x hx⟩,fun ⟨x,hx⟩ => ?_⟩
    cases x with
    | page sp v => exact ⟨_,(page_unmoved h sp v).trans hx⟩
    | table t j => exact ⟨_,h.table t j _ hx⟩

theorem restored (h : OwnPages m₀ A₀ m A ∅) (h₀ : PageRep m₀ A₀ ∅) (hv₀ : VaddrRep m₀ A₀ ∅) :
    Restored m₀ m := by
  refine ⟨fun sp k hk => ?_,fun i hi => ?_,fun i hi => ?_⟩
  · rw [Bool.eq_iff_iff,h.vad.bits sp k (by rwa [vaddr_len_congr h.setup]),hv₀.bits sp k hk,
      page_unmoved h]
  · exact (bit_unmoved h h₀ hi).resolve_right fun hc => by cases hc.1
  · exact (bit_unmoved h h₀ hi).imp_right And.right

/-- When nothing is in use the lists are empty, and everything has been given back. -/
theorem Inv.empty (h : Inv m₀ A₀ s A H) (hrep₀ : HeapRep m₀ A₀ m₀ A₀ Heap.empty)
    (hlive : ∀ p, s.live p = none) : (∀ c, H.free c = []) ∧ Restored m₀ s.m := by
  have hshape := h.rep.heap.shape
  have hnone := arena_eq_none hshape h.tight fun x => by rw [h.live,hlive]
  have hcovers (v : ℕ) : ¬ H.Covers v := by
    rintro ⟨p,k,hp,-⟩
    rw [hnone p] at hp
    cases hp
  refine ⟨fun c => List.eq_nil_iff_forall_not_mem.mpr fun b hb => ?_,?_⟩
  · obtain ⟨-,p,i,hp,-⟩ := (hshape.free c b).mp hb
    rw [hnone p] at hp
    cases hp
  · exact restored (h.rep.toOwnPages.congr_pages fun v => iff_of_false id (hcovers v)) hrep₀.rep
      hrep₀.vad

/-- Conservation of the heap: in every state of every run the lists have exactly the free blocks
of the arenas, and after the last sys_free the bitmaps are those of the start again. -/
theorem reachable_conserved (hs : HeapStart m₀) (h : Reachable m₀ s) : ∃ free, Conserves m₀ s free ∧
    ((∀ p, s.live p = none) → (∀ c, free c = []) ∧ Restored m₀ s.m) := by
  obtain ⟨A₀,hrep₀,hlock₀⟩ := hs.rep
  obtain ⟨A,H,hinv⟩ := h.inv hrep₀ hlock₀
  exact ⟨H.free,hinv.conserves hrep₀.rep,hinv.empty hrep₀⟩

theorem reachable_conserved_small : ∃ m₀ m₁ m₂ m₃ p q r, ThreeCalls m₀ m₁ m₂ m₃ p q r ∧
    (∃ free, Conserves m₀ ⟨m₃,inUse₃ p q r⟩ free) ∧ ∃ m₄ m₅ m₆, sysFree q m₃ = (.ok (),m₄) ∧
      sysFree r m₄ = (.ok (),m₅) ∧ sysFree p m₅ = (.ok (),m₆) ∧ Restored m₀ m₆ := by
  obtain ⟨m₀,m₁,m₂,m₃,p,q,r,h⟩ := exists_threeCalls
  obtain ⟨free,hfree,-⟩ := reachable_conserved h.start h.reachable₃
  have hnd := h.nodup
  simp only [List.nodup_cons,List.mem_cons,List.not_mem_nil,or_false,not_or] at hnd
  obtain ⟨⟨hpq,hpr⟩,hqr,-⟩ := hnd
  obtain ⟨m₄,hrun₄,h₄⟩ := h.reachable₃.sysFree_ok h.start h.live.2.1
  obtain ⟨m₅,hrun₅,h₅⟩ := h₄.sysFree_ok h.start (p := r) (by simpa [Ne.symm hqr] using h.live.2.2)
  obtain ⟨m₆,hrun₆,h₆⟩ := h₅.sysFree_ok h.start (p := p) (by simpa [hpq,hpr] using h.live.1)
  obtain ⟨_,-,hrest⟩ := reachable_conserved h.start h₆
  refine ⟨m₀,m₁,m₂,m₃,p,q,r,h,⟨free,hfree⟩,m₄,m₅,m₆,hrun₄,hrun₅,hrun₆,(hrest fun x => ?_).2⟩
  have hx := h.mem_iff x
  simp only [List.mem_cons,List.not_mem_nil,or_false] at hx
  simp only [Function.update_apply]
  split_ifs with hxp hxr hxq
  · rfl
  · rfl
  · rfl
  · by_contra hc
    obtain h'|h'|h' := hx.mpr hc
    · exact hxp h'
    · exact hxq h'
    · exact hxr h'

end Returned
end HeapSys
end OsKernel

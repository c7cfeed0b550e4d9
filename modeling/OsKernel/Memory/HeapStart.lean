import OsKernel.Memory.HeapFree
import OsKernel.Memory.PageAgreement

/-! The empty heap that block_desc_init leaves, in any state that the page allocator can reach. -/
namespace OsKernel
open Paging ByteMemory Exec KernelM IntrusiveList

/-- A descriptor of a class with an empty list. -/
structure EmptyDesc (V : ByteMemory) (descs : ℕ) (c : Fin 7) : Prop where
  size : load32 V (descs+24*c.val) = classSize c
  blocks : load32 V (descs+24*c.val+4) = perArena c
  next : load32 V (descs+24*c.val+12) = descs+24*c.val+16
  prev : load32 V (descs+24*c.val+16) = descs+24*c.val+8

section EmptyHeap
variable {τ : ℕ → Option ℕ} {V V' : ByteMemory} {descs descIdx left : ℕ} {c : Fin 7}

/-- One round of the loop of block_desc_init. -/
theorem emptyDesc_stores (hc : c.val = descIdx) (hlt : descs+168 ≤ 2^32) :
    EmptyDesc (listInitMem (store32 (store32 V (descs+24*descIdx) (16*2^descIdx))
      (descs+24*descIdx+4) ((pageSize-arenaSize)/(16*2^descIdx))) (descs+24*descIdx+8))
      descs c := by
  subst hc
  have hs := classSize_bounds c
  have hb := perArena_bounds c
  have hclass : 16*2^c.val = classSize c := rfl
  have harena : (pageSize-arenaSize)/classSize c = perArena c := rfl
  rw [hclass,harena,listInitMem]
  generalize hd : descs+24*c.val = d
  have hd' : d+24 ≤ 2^32 := by omega
  rw [Nat.add_assoc d 8 4,Nat.add_assoc d 8 8,Nat.add_assoc d 8 12]
  refine ⟨?_,?_,?_,?_⟩ <;> rw [hd]
  · rw [load32_store32_of_disjoint (by omega),load32_store32_of_disjoint (by omega),
      load32_store32_of_disjoint (by omega),load32_store32_of_disjoint (by omega),
      load32_store32_of_disjoint (by omega),load32_store32_self (by omega)]
  · rw [load32_store32_of_disjoint (by omega),load32_store32_of_disjoint (by omega),
      load32_store32_of_disjoint (by omega),load32_store32_of_disjoint (by omega),
      load32_store32_self (by omega)]
  · rw [load32_store32_of_disjoint (by omega),load32_store32_of_disjoint (by omega),
      load32_store32_self (by omega)]
  · rw [load32_store32_of_disjoint (by omega),load32_store32_self (by omega)]

theorem EmptyDesc.congr (h : EmptyDesc V descs c)
    (hV : ∀ q, descs+24*c.val ≤ q → q < descs+24*c.val+24 → V' q = V q) :
    EmptyDesc V' descs c := by
  have hload {a : ℕ} (h₁ : descs+24*c.val ≤ a) (h₂ : a+4 ≤ descs+24*c.val+24) :
      load32 V' a = load32 V a := load32_congr fun q h₃ h₄ => hV q (by omega) (by omega)
  exact ⟨(hload le_rfl (by omega)).trans h.size,(hload (by omega) (by omega)).trans h.blocks,
    (hload (by omega) (by omega)).trans h.next,(hload (by omega) (by omega)).trans h.prev⟩

/-- block_desc_init leaves seven descriptors with empty lists. -/
theorem blockDescInitMem_spec (hsum : descIdx+left = 7) (hlt : descs+168 ≤ 2^32)
    (hV : ∀ c : Fin 7, c.val < descIdx → EmptyDesc V descs c) (c : Fin 7) :
    EmptyDesc (blockDescInitMem descs left descIdx (16*2^descIdx) V) descs c := by
  induction left generalizing descIdx V with
  | zero => exact hV c (by omega)
  | succ left ih =>
    rw [blockDescInitMem]
    have hnext : left = 0 ∨ 16*2^descIdx*2 % 2^16 = 16*2^(descIdx+1) := by
      by_cases hleft : left = 0
      · exact .inl hleft
      · right
        have hle : 2^descIdx ≤ 2^5 := Nat.pow_le_pow_right (by decide) (by omega)
        have hsucc : 2^(descIdx+1) = 2^descIdx*2 := pow_succ 2 descIdx
        rw [hsucc,Nat.mod_eq_of_lt (by omega),Nat.mul_assoc]
    have hround : ∀ d : Fin 7, d.val < descIdx+1 → EmptyDesc (listInitMem (store32 (store32 V
        (descs+24*descIdx) (16*2^descIdx)) (descs+24*descIdx+4)
        ((pageSize-arenaSize)/(16*2^descIdx))) (descs+24*descIdx+8)) descs d := by
      intro d hd
      by_cases he : d.val = descIdx
      · exact emptyDesc_stores he hlt
      · refine (hV d (by omega)).congr fun q h₁ h₂ => ?_
        rw [listInitMem,store32_of_not_mem (by omega),store32_of_not_mem (by omega),
          store32_of_not_mem (by omega),store32_of_not_mem (by omega),
          store32_of_not_mem (by omega),store32_of_not_mem (by omega)]
    rcases hnext with rfl|hnext
    · rw [blockDescInitMem]
      exact hround c (by omega)
    · rw [hnext]
      exact ih (by omega) hround

def Heap.empty : Heap := ⟨fun _ => none,fun _ => [],fun _ => none⟩

theorem Heap.not_covers_empty (v : ℕ) : ¬ Heap.empty.Covers v := by
  rintro ⟨p,k,hp,-⟩
  cases hp

/-- Descriptors with empty lists hold the empty heap. -/
theorem HeapIn.empty (hd : WordsIn τ Set.univ descs 168) (hnn : descs ≠ 0)
    (hV : ∀ c, EmptyDesc V descs c) : HeapIn τ V descs Heap.empty := by
  have hnodes (c : Fin 7) : nodesAt (freeListAt descs) Heap.empty.free c =
      [descs+24*c.val+8,descs+24*c.val+16] := rfl
  have hshape : Heap.empty.Shape descs := by
    refine ⟨?_,?_,?_,fun c x => ⟨fun hx => ?_,?_⟩,?_,?_⟩
    · rintro p k q l hp
      cases hp
    · rintro p k hp
      cases hp
    · rintro p k hp
      cases hp
    · cases hx
    · rintro ⟨-,p,i,hp,-⟩
      cases hp
    · rintro x size hx
      cases hx
    · rintro p n hp
      cases hp
  refine ⟨hshape,hd,hnn,fun v hv => absurd hv (Heap.not_covers_empty v),
    fun c => ⟨(hV c).size,(hV c).blocks⟩,⟨⟨fun c => ?_,fun c => ?_,fun c d hcd => ?_⟩,?_,?_⟩,?_,?_⟩
  · change List.IsChain _ (nodesAt (freeListAt descs) Heap.empty.free c)
    rw [hnodes,List.isChain_cons_cons]
    exact ⟨⟨(hV c).next,(hV c).prev⟩,.singleton _⟩
  · change (nodesAt (freeListAt descs) Heap.empty.free c).Nodup
    rw [hnodes]
    simp
  · change List.Disjoint (nodesAt (freeListAt descs) Heap.empty.free c)
      (nodesAt (freeListAt descs) Heap.empty.free d)
    have hne : c.val ≠ d.val := fun he => hcd (Fin.ext he)
    rw [hnodes,hnodes]
    intro x hx hy
    simp only [List.mem_cons,List.not_mem_nil,or_false] at hx hy
    omega
  · rintro a ⟨c,ha⟩
    exact hshape.node_words hd (fun v hv => absurd hv (Heap.not_covers_empty v)) ha
  · rintro a b ⟨c,ha⟩ ⟨d,hb⟩ hab
    rw [hnodes] at ha hb
    simp only [List.mem_cons,List.not_mem_nil,or_false] at ha hb
    omega
  · rintro p c hp
    cases hp
  · rintro p n hp
    cases hp

end EmptyHeap
namespace PageSys
variable {s s' : PageSys} {A A' : FrameMap} {m' : Machine} {t : TaskId} {p : ℕ}

/-- The PCB of a thread is not the page directory of a process. -/
def PcbApart (s : PageSys) : Prop :=
  ∀ p, 4096*p ∈ s.threads → kernelHeapPage ≤ p → ¬ s.m.DirPage none p

theorem PcbApart.of_setup (h : s.PcbApart) (hset : m'.setup = s.m.setup)
    {live : Set (Option TaskId × ℕ)} : PcbApart { s with m := m', live := live } :=
  fun p hp hle hd => h p hp hle ((Machine.dirPage_iff_congr hset none p).mp hd)

theorem PcbApart.of_started (h : s.PcbApart) (hinv : Inv s A) (hst : Started s.m A t m' A')
    {home : TaskId → ℕ} :
    PcbApart { s with m := m', threads := insert t s.threads, home := home } := by
  intro p hp hle hd
  obtain ⟨q,rfl,-,-,-,hq⟩ := hst.pcb
  rcases hp with hp|hp
  · rw [pcb_inj hp] at hd
    exact hq hd
  · obtain ⟨-,u,hu,hup⟩ := hd
    by_cases hut : u = 4096*q
    · subst hut
      have hnone := hst.dirPage hu
      rw [hup] at hnone
      obtain hm|⟨r,hr,-,hsome,-⟩ := hinv.pcb _ hp
      · exact pcb_ne_mainThread hle hm
      · rw [← pcb_inj hr,hnone] at hsome
        contradiction
    · have hpg := hst.same.pgdir hut
      refine h p hp hle ⟨rfl,u,fun hc => hu (hpg.trans hc),?_⟩
      rw [← hup,Machine.dirPage,Machine.dirPage,hpg]

theorem Step.pcbApart (hs : Step s s') (hinv : Inv s A) (h : s.PcbApart) : s'.PcbApart := by
  have hrep := hinv.pageRep
  have hvad := hinv.vaddrRep
  cases hs with
  | mallocPage heq =>
    obtain ⟨k,A',rfl,hh,-⟩ := (hrep.mallocPage_runs hvad).of_ok heq
    exact h.of_setup hh.gains.setup
  | @getAPage pf v va m' hc heq =>
    obtain ⟨k,rfl,hk⟩ := hc
    obtain ⟨A',-,-,-,hg⟩ :=
      (hrep.getAPage_runs hvad (hvad.inSpace (s.m.reaches_space pf) hk)).of_ok heq
    exact h.of_setup hg.setup
  | @mfreePage pf v n m' hl heq =>
    have hn : 0 < n := by
      by_contra hn
      obtain rfl : n = 0 := by omega
      rw [OsKernel.mfreePage,
        Exec.bind_of_error (show mfreeAsserts (pageSize*v) 0 s.m = _ from rfl)] at heq
      simp at heq
    obtain ⟨m₁,events,hrun,-,hfree,-⟩ := hrep.mfreePage_eq hvad hn fun i hi =>
      hinv.live (s.m.space pf,v+i) (hl ⟨rfl,by dsimp only; omega,by dsimp only; omega⟩)
    rw [pageSize_mul,hrun] at heq
    obtain rfl := (Prod.mk.inj heq).2
    have hlen : ((s.m.vbitmap pf).setRange (v-firstPage (s.m.space pf)) false n).btmpBytesLen =
        (m₁.vbitmap pf).btmpBytesLen := by
      rw [Bitmap.setRange_btmpBytesLen,hfree.vbitmap]
    have hset := (Machine.setVaddr_setup hlen).trans hfree.setup
    exact fun p hp hle hd => h p hp hle ((Machine.dirPage_iff_congr hset none p).mp hd)
  | threadStart heq =>
    obtain ⟨A',-,-,hst,-⟩ := (hrep.threadStart_runs hvad hinv.freshPcb).of_ok heq
    exact h.of_started hinv hst
  | processExecute heq =>
    obtain ⟨A',-,-,hst,-⟩ := (hrep.processExecute_runs hvad hinv.freshPcb).of_ok heq
    exact h.of_started hinv hst
  | @switchTask t m' ht heq =>
    obtain ⟨d,hd,-⟩ := hinv.home t ht
    obtain ⟨m'',hrun,-,hm'⟩ := hrep.switchTask_eq hd
    rw [hrun] at heq
    obtain rfl := (Prod.mk.inj heq).2
    subst hm'
    exact h
  | @store va b m' pf hl heq =>
    refine h.of_setup ?_
    cases hva : s.m.translate va with
    | none => simp [storeByte,Bind.bind,physical,hva] at heq
    | some pa =>
      rw [storeByte_eq hva] at heq
      rw [← (Prod.mk.inj heq).2]
      rfl

theorem Reachable.inv_apart (h : Reachable s) : ∃ A, Inv s A ∧ s.PcbApart := by
  obtain ⟨allMem,mem,kBlockDesc,hu,hsteps⟩ := h
  induction hsteps with
  | refl =>
    refine ⟨FrameMap.empty,Inv.init hu,?_⟩
    rintro p hp hle ⟨-,t,ht,-⟩
    exact bootedMachine_isProc t ht
  | tail _ hstep ih =>
    obtain ⟨A,hinv,hp⟩ := ih
    obtain ⟨A',hinv'⟩ := hstep.inv hinv
    exact ⟨A',hinv',hstep.pcbApart hinv hp⟩

end PageSys

/-- k_block_desc lies in the image of the kernel, in the first megabyte. -/
structure InImage (a : ℕ) : Prop where
  low : 0xc0000000 ≤ a
  high : a+168 ≤ 0xc0100000
  aligned : a % 4 = 0

/-- The state in which the running thread has a heap without arenas: any state that the page
allocator can reach, after block_desc_init. -/
def HeapStart (m : Machine) : Prop := ∃ s : PageSys, s.Reachable ∧ InImage s.m.kBlockDesc ∧
  (s.m.pool s.m.ownPool).lock = ⟨none,0⟩ ∧ blockDescInit s.m.descs s.m = (.ok (),m)

section Start
variable {m : Machine} {A : FrameMap} {s : PageSys} {F : Set ℕ}

/-- A region of one page of the first megabyte, or of a mapped page of the kernel heap. -/
theorem wordsIn_image (h : InImage m.kBlockDesc) (A : FrameMap) :
    WordsIn (m.dataPages A) Set.univ m.kBlockDesc 168 := by
  have hlow := h.low
  have hhigh := h.high
  have haligned := h.aligned
  intro k hk h4
  refine ⟨?_,trivial,by omega,by omega⟩
  have hpage := m.dataPages_low A (f := (m.kBlockDesc+k)/4096-kernelHalf)
    (by unfold kernelHalf; omega)
  rw [show kernelHalf+((m.kBlockDesc+k)/4096-kernelHalf) = (m.kBlockDesc+k)/4096 by
    unfold kernelHalf; omega] at hpage
  rw [hpage]
  rfl

theorem uBlockDesc_page {p k : ℕ} (hk : k < 168) : (4096*p+68+k)/4096 = p := by omega

theorem PageSys.Inv.descs_words (h : PageSys.Inv s A) (hp : s.PcbApart)
    (hk : InImage s.m.kBlockDesc) :
    WordsIn (s.m.dataPages A) Set.univ s.m.descs 168 ∧ s.m.descs ≠ 0 := by
  by_cases hproc : (s.m.task s.m.runningThread).pgdir = 0
  · rw [Machine.descs,if_pos hproc]
    refine ⟨wordsIn_image hk A,?_⟩
    have hlow := hk.low
    omega
  rw [Machine.descs,if_neg hproc]
  obtain ht|⟨p,ht,hle,hsome,-⟩ := h.pcb _ h.running
  · have hd : uBlockDesc s.m.runningThread = 0xc009e044 := by rw [ht]; rfl
    rw [hd]
    refine ⟨fun k hk h4 => ⟨?_,trivial,by omega,by omega⟩,by decide⟩
    have hpage := s.m.dataPages_low A (f := 0x9e) (by decide)
    rw [show (0xc009e044+k)/4096 = kernelHalf+0x9e by unfold kernelHalf; omega,hpage]
    rfl
  · obtain ⟨f,hf⟩ := Option.isSome_iff_exists.mp hsome
    have hdata := h.pageRep.dataPages_page (.inl rfl) hf
      (hp p (ht ▸ h.running) hle)
    have hlt := (h.pageRep.inSpace hf).lt h.pageRep.toLayout
    unfold recursivePage at hlt
    unfold kernelHeapPage at hle
    have hd : uBlockDesc s.m.runningThread = 4096*p+68 := by
      rw [ht]
      exact field_eq (by omega)
    rw [hd]
    refine ⟨fun k hk h4 => ⟨?_,trivial,by omega,by omega⟩,by omega⟩
    rw [uBlockDesc_page hk,hdata]
    rfl

/-- block_desc_init leaves the empty heap. -/
theorem PageSys.Inv.blockDescInit_run (h : PageSys.Inv s A) (hp : s.PcbApart)
    (hk : InImage s.m.kBlockDesc) : ∃ mem', blockDescInit s.m.descs s.m = (.ok (),s.m.setMem mem') ∧
      HeapRep (s.m.setMem mem') A (s.m.setMem mem') A Heap.empty := by
  obtain ⟨hwords,hnn⟩ := h.descs_words hp hk
  obtain ⟨mem',hrun,hrep,hview,-⟩ := h.pageRep.run_acts (.blockDescInit h.pageRep.window hwords)
  have hv := h.vaddrRep
  have hown : OwnPages (s.m.setMem mem') A (s.m.setMem mem') A ∅ :=
    .refl hrep ⟨hv.bits,hv.userStart,hv.userLen,hv.kernelLen,hv.pending⟩
  have hlast := hwords 164 (by decide) rfl
  refine ⟨mem',hrun,{
    toOwnPages := hown.congr_pages fun v => iff_of_false (Heap.not_covers_empty v) id
    heap := .empty hwords hnn fun c => ?_ }⟩
  rw [hview]
  exact blockDescInitMem_spec rfl (by have := hlast.lt; have := hlast.aligned; omega)
    (fun c hc => absurd hc (Nat.not_lt_zero _)) c

/-- The start of a run holds the empty heap. -/
theorem HeapStart.rep (h : HeapStart m) : ∃ A, HeapRep m A m A Heap.empty ∧
    (m.pool m.ownPool).lock = ⟨none,0⟩ := by
  obtain ⟨s,hs,hk,hlock,hrun⟩ := h
  obtain ⟨A,hinv,hp⟩ := hs.inv_apart
  obtain ⟨mem',hrun',hrep⟩ := hinv.blockDescInit_run hp hk
  rw [hrun'] at hrun
  obtain rfl := (Prod.mk.inj hrun).2
  exact ⟨A,hrep,hlock⟩

/-- A start with pages to hand out. -/
theorem PageSys.Inv.blockDescInit_roomy (h : PageSys.Inv s A) (hp : s.PcbApart)
    (hk : InImage s.m.kBlockDesc) {k : ℕ} (hroom : s.m.Roomy k)
    (hlock : (s.m.pool s.m.ownPool).lock = ⟨none,0⟩) :
    ∃ m, blockDescInit s.m.descs s.m = (.ok (),m) ∧ HeapRep m A m A Heap.empty ∧
      (m.pool m.ownPool).lock = ⟨none,0⟩ ∧ m.ownPool = s.m.ownPool ∧ m.pool = s.m.pool ∧
      m.Roomy k := by
  obtain ⟨mem',hrun,hrep⟩ := h.blockDescInit_run hp hk
  exact ⟨_,hrun,hrep,hlock,rfl,rfl,hroom⟩

end Start

section Small
open PageSys

theorem smallComputer_ownPool : smallComputer.m.ownPool = .kernel := by decide

theorem smallComputer_inImage : InImage smallComputer.m.kBlockDesc :=
  ⟨by decide,by decide,by decide⟩

theorem smallComputer_lock (pf : PoolFlags) : (smallComputer.m.pool pf).lock = ⟨none,0⟩ := by
  cases pf <;> rfl

/-- The small computer after block_desc_init. -/
theorem exists_heapStart : ∃ m A, HeapStart m ∧ HeapRep m A m A Heap.empty ∧
    (m.pool m.ownPool).lock = ⟨none,0⟩ ∧ m.ownPool = .kernel ∧
    2^24 ≤ (m.pool .kernel).poolSize ∧ m.Roomy 991 := by
  obtain ⟨A,hinv,hp⟩ := smallComputer_reachable.inv_apart
  have hroom : smallComputer.m.Roomy 991 := fun l hpos hsum =>
    smallComputer_room hpos (Nat.lt_succ_of_le hsum)
  have hsize : 2^24 ≤ (smallComputer.m.pool .kernel).poolSize := by decide
  obtain ⟨m,hrun,hrep,hlock,hown,hpool,hroom'⟩ := hinv.blockDescInit_roomy hp
    smallComputer_inImage hroom (smallComputer_lock _)
  exact ⟨m,A,⟨_,smallComputer_reachable,smallComputer_inImage,smallComputer_lock _,hrun⟩,hrep,
    hlock,hown.trans smallComputer_ownPool,hpool ▸ hsize,hroom'⟩

end Small
end OsKernel

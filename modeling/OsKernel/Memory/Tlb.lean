import OsKernel.Memory.PageAgreement

/-! The translation cache of the processor between two loads of cr3. Any present translation may
be cached at any time, also between the rounds of mfree_page, and accesses go through cached
translations. A round of mfree_page takes a page out of its page table and executes invlpg, whose
operand is the variable vaddr on the kernel stack and not the page. -/
namespace OsKernel
open Paging ByteMemory Exec KernelM

namespace Machine

/-- The frame that the page tables give to a page. -/
def pageFrame (m : Machine) (v : ℕ) : Option ℕ := lookup m.mem (m.cr3/pageSize) v

/-- The physical address of an access: by the cached translation, or else by the page tables. -/
def cachedTranslate (m : Machine) (va : ℕ) : Option ℕ :=
  match m.tlb (va/pageSize) with
  | some f => some (pageSize*f+va % pageSize)
  | none => m.translate va

def setTlb (m : Machine) (v : ℕ) (f : Option ℕ) : Machine :=
  { m with tlb := Function.update m.tlb v f }

/-- The pages that the bitmaps of the kernel and of the running process cover. -/
def HeapPage (m : Machine) (v : ℕ) : Prop :=
  m.InSpace none v ∨ m.InSpace (some m.runningThread) v

/-- No cached translation of a heap page disagrees with the page tables. -/
def Coherent (m : Machine) : Prop :=
  ∀ v f, m.HeapPage v → m.tlb v = some f → m.pageFrame v = some f

/-- No translation of the page is cached. -/
def Uncached (m : Machine) (v : ℕ) : Prop := m.tlb v = none

end Machine

section Coherence
variable {m m' : Machine} {A A' : FrameMap} {F F' : Set ℕ} {v f : ℕ} {s : Option TaskId}

/-- The frame of a heap page is the one of the map. -/
theorem PageRep.pageFrame_eq (h : PageRep m A F) (hs : m.Reaches s) (hv : m.InSpace s v) :
    m.pageFrame v = A (.page s v) := by
  obtain ⟨d,hd,hc⟩ := h.cr3_eq
  rw [Machine.pageFrame,hc]
  rcases hs with rfl | rfl
  · exact h.lookup_kernel hd hv.1 (hv.lt h.toLayout)
  · exact h.lookup_user hv.1 hd hv.2.2

theorem Machine.HeapPage.space (hv : m.HeapPage v) : ∃ s, m.Reaches s ∧ m.InSpace s v := by
  rcases hv with hv | hv
  · exact ⟨none,.inl rfl,hv⟩
  · exact ⟨_,.inr rfl,hv⟩

theorem Machine.InSpace.heapPage (hv : m.InSpace s v) (hs : m.Reaches s) : m.HeapPage v := by
  rcases hs with rfl | rfl
  · exact .inl hv
  · exact .inr hv

/-- The cache stays coherent when the pages with cached translations keep their frames. -/
theorem Machine.Coherent.of_le (h : m.Coherent) (hr : PageRep m A F) (hr' : PageRep m' A' F')
    (hset : m'.setup = m.setup) (htlb : ∀ v f, m'.tlb v = some f → m.tlb v = some f)
    (hle : ∀ s v f, m.tlb v = some f → A (.page s v) = some f → A' (.page s v) = some f) :
    m'.Coherent := by
  intro v f hv hf
  obtain ⟨s,hs,hin'⟩ := hv.space
  have hin := (Machine.inSpace_congr hset s v).mp hin'
  have hs₀ : m.Reaches s := by rwa [Machine.Reaches,Machine.runningThread_congr hset] at hs
  have hold := h v f (hin.heapPage hs₀) (htlb v f hf)
  rw [hr.pageFrame_eq hs₀ hin] at hold
  rw [hr'.pageFrame_eq hs hin']
  exact hle s v f (htlb v f hf) hold

/-- A coherent cache gives the addresses that the page tables give. -/
theorem Machine.Coherent.cachedTranslate_eq (h : m.Coherent) {va : ℕ}
    (hv : m.HeapPage (va/pageSize)) : m.cachedTranslate va = m.translate va := by
  unfold Machine.cachedTranslate
  cases ht : m.tlb (va/pageSize) with
  | none => rfl
  | some f =>
    have hf : lookup m.mem (m.cr3/pageSize) (va/4096) = some f := h _ f hv ht
    rw [Machine.translate,walk,hf]
    rfl

end Coherence

/-- A call of mfree_page that has finished i of its n rounds. -/
structure FreeCall where
  pf : PoolFlags
  v : ℕ
  n : ℕ
  i : ℕ

/-- The allocator, with the call of mfree_page in progress. -/
structure TlbSys where
  sys : PageSys
  freeing : Option FreeCall

namespace TlbSys

/-- The steps. A round of mfree_page is taken in states that satisfy Q, for the page of the
round. -/
inductive Step (Q : Machine → ℕ → Prop) : TlbSys → TlbSys → Prop
  /-- The processor caches a translation. -/
  | fill {s c v f} (h : s.m.pageFrame v = some f) :
    Step Q ⟨s,c⟩ ⟨{ s with m := s.m.setTlb v (some f) },c⟩
  | mallocPage {s pf n va m'} (h : mallocPage pf n s.m = (.ok va,m')) :
    Step Q ⟨s,none⟩ ⟨{ s with m := m', live := s.live ∪ s.pages pf (va/pageSize) n },none⟩
  | getAPage {s pf v va m'} (hc : PageSys.Covers s.m pf v)
      (h : getAPage pf (pageSize*v) s.m = (.ok va,m')) :
    Step Q ⟨s,none⟩ ⟨{ s with m := m', live := s.live ∪ s.pages pf v 1 },none⟩
  /-- A byte of a page in use is written through the cache. -/
  | store {s va b pa pf} (hl : (s.m.space pf,va/pageSize) ∈ s.live)
      (h : s.m.cachedTranslate va = some pa) :
    Step Q ⟨s,none⟩ ⟨{ s with m := s.m.setMem (store8 s.m.mem pa b) },none⟩
  /-- The assertions of mfree_page. -/
  | freeStart {s pf v n m'} (hl : s.pages pf v n ⊆ s.live)
      (h : mfreeAsserts (pageSize*v) n s.m = (.ok (),m')) :
    Step Q ⟨s,none⟩ ⟨{ s with m := m' },some ⟨pf,v,n,0⟩⟩
  | freeRound {s c m'} (hi : c.i < c.n) (hq : Q s.m (c.v+c.i))
      (h : unmapPage (pageSize*(c.v+c.i)) s.m = (.ok (),m')) :
    Step Q ⟨s,some c⟩ ⟨{ s with m := m' },some { c with i := c.i+1 }⟩
  | freeEnd {s c m'} (hi : c.i = c.n)
      (h : vaddrRemove c.pf (pageSize*c.v) c.n s.m = (.ok (),m')) :
    Step Q ⟨s,some c⟩ ⟨{ s with m := m', live := s.live \ s.pages c.pf c.v c.n },none⟩

/-- A state of a run from any state of the allocator in which cr3 has just been loaded. -/
def Reachable (Q : Machine → ℕ → Prop) (x : TlbSys) : Prop :=
  ∃ s, PageSys.Reachable s ∧ (∀ v, s.m.tlb v = none) ∧ Relation.ReflTransGen (Step Q) ⟨s,none⟩ x

/-- The state of the allocator while a call of mfree_page is in progress: it has taken i pages out
of the tables of a state that satisfied the invariant. -/
structure FreeInv (s : PageSys) (c : FreeCall) (m₀ : Machine) (A : FrameMap) : Prop where
  inv : PageSys.Inv { s with m := m₀ } A
  pos : 0 < c.n
  le : c.i ≤ c.n
  live : s.pages c.pf c.v c.n ⊆ s.live
  rep : PageRep s.m (A.drop (m₀.space c.pf) c.v c.i) ∅
  frees : Frees m₀ A s.m (A.drop (m₀.space c.pf) c.v c.i)

/-- What holds in every state. -/
inductive Inv : TlbSys → Prop
  | idle {s A} (h : PageSys.Inv s A) (hc : s.m.Coherent) : Inv ⟨s,none⟩
  | freeing {s c m₀ A} (h : FreeInv s c m₀ A) (hc : s.m.Coherent) : Inv ⟨s,some c⟩

section Steps
variable {x x' : TlbSys} {s : PageSys} {c : FreeCall} {m m₀ m' : Machine} {A A' : FrameMap}
  {F : Set ℕ} {pf : PoolFlags} {v f n : ℕ}

theorem coherent_setTlb (h : m.Coherent) (hf : m.pageFrame v = some f) :
    (m.setTlb v (some f)).Coherent := by
  intro w g hw hg
  change m.pageFrame w = some g
  change Function.update m.tlb v (some f) w = some g at hg
  by_cases hv : w = v
  · subst hv
    rwa [Function.update_self,← hf] at hg
  · rw [Function.update_of_ne hv] at hg
    exact h w g hw hg

theorem pageSys_setTlb (h : PageSys.Inv s A) :
    PageSys.Inv { s with m := s.m.setTlb v (some f) } A :=
  h.of_setup rfl (h.pageRep.congr rfl rfl fun _ _ => rfl)
    ⟨h.vaddrRep.bits,h.vaddrRep.userStart,h.vaddrRep.userLen,h.vaddrRep.kernelLen,
      h.vaddrRep.pending⟩ (fun _ _ _ hp => hp) fun x hx => ⟨(h.live x hx).1,.inl hx⟩

theorem freeInv_setTlb (h : FreeInv s c m₀ A) :
    FreeInv { s with m := s.m.setTlb v (some f) } c m₀ A :=
  ⟨h.inv,h.pos,h.le,h.live,h.rep.congr rfl rfl fun _ _ => rfl,
    h.frees.setup,h.frees.lock,h.frees.task,h.frees.kernelVaddr,h.frees.le,h.frees.data⟩

/-- Pages that have been handed out get no new frame. -/
theorem coherent_of_gains {N : Finset Use} (hc : m.Coherent) (hr : PageRep m A F)
    (hr' : PageRep m' A' F) (hg : Gains m A N m' A') : m'.Coherent :=
  hc.of_le hr hr' hg.setup (fun _ _ hf => hg.tlb ▸ hf) fun _ _ _ _ hp => hg.le hp

/-- The beginning of a call of mfree_page. -/
theorem freeStart_inv (h : PageSys.Inv s A) (hl : s.pages pf v n ⊆ s.live)
    (heq : mfreeAsserts (4096*v) n s.m = (.ok (),m')) :
    m' = s.m ∧ FreeInv s ⟨pf,v,n,0⟩ s.m A := by
  have hn : 0 < n := by
    by_contra hn
    obtain rfl : n = 0 := by omega
    have herr : mfreeAsserts (4096*v) 0 s.m = (.error (.assert "mfree_page"
      "pg_cnt > 0 && vaddr % PG_SIZE == 0"),s.m) := rfl
    rw [herr] at heq
    simp at heq
  have hx : (s.m.space pf,v) ∈ s.pages pf v n := ⟨rfl,Nat.le_refl v,by dsimp only; omega⟩
  obtain ⟨f,hf⟩ := Option.isSome_iff_exists.mp (h.live _ (hl hx)).1
  rw [h.pageRep.mfreeAsserts_eq hf (s.m.reaches_space pf) hn] at heq
  refine ⟨(Prod.mk.inj heq).2.symm,h,hn,Nat.zero_le n,hl,?_,?_⟩
  · rw [FrameMap.drop_zero]
    exact h.pageRep
  · rw [FrameMap.drop_zero]
    exact .refl

/-- One round. The cache stays coherent because the page is not cached. -/
theorem freeRound_inv (h : FreeInv s c m₀ A) (hc : s.m.Coherent) (hi : c.i < c.n)
    (hq : s.m.Uncached (c.v+c.i)) (heq : unmapPage (4096*(c.v+c.i)) s.m = (.ok (),m')) :
    FreeInv { s with m := m' } { c with i := c.i+1 } m₀ A ∧ m'.Coherent := by
  have hspace := Machine.space_congr h.frees.setup c.pf
  have hmem : (m₀.space c.pf,c.v+c.i) ∈ s.live := by
    apply h.live
    rw [← hspace]
    exact ⟨rfl,by dsimp only; omega,by dsimp only; omega⟩
  obtain ⟨hsome,hdir⟩ := h.inv.live _ hmem
  obtain ⟨f,hf⟩ := Option.isSome_iff_exists.mp hsome
  have hdrop : A.drop (m₀.space c.pf) c.v c.i (.page (m₀.space c.pf) (c.v+c.i)) = some f := by
    rw [FrameMap.drop_page,if_neg (by omega),hf]
  have hdir' : ¬ s.m.DirPage (m₀.space c.pf) (c.v+c.i) :=
    fun hd => hdir ((Machine.dirPage_iff_congr h.frees.setup _ _).mp hd)
  have hs : s.m.Reaches (m₀.space c.pf) := by
    rw [← hspace]
    exact s.m.reaches_space c.pf
  obtain ⟨m'',hrun,hrep,hfree,htlb⟩ := h.rep.unmapPage_eq hdrop hs hdir'
  rw [hrun] at heq
  obtain rfl := (Prod.mk.inj heq).2
  have hcoh : m''.Coherent := by
    refine hc.of_le h.rep hrep hfree.setup (fun w g hg => ?_) fun s' w g hg hp => ?_
    · rw [htlb] at hg
      by_cases hw : w = s.m.runningThread/pageSize
      · subst hw
        rw [Function.update_self] at hg
        contradiction
      · rwa [Function.update_of_ne hw] at hg
    · rw [Function.update_of_ne,hp]
      intro he
      obtain ⟨-,rfl⟩ := Use.page.inj he
      rw [hq] at hg
      contradiction
  rw [FrameMap.drop_succ_last] at hrep hfree
  refine ⟨⟨h.inv,h.pos,by dsimp only; omega,?_,hrep,h.frees.trans hfree⟩,hcoh⟩
  intro y hy
  apply h.live
  obtain ⟨h₁,h₂⟩ := hy
  exact ⟨by rw [h₁]; exact Machine.space_congr hfree.setup c.pf,h₂⟩

/-- The end of a call of mfree_page. -/
theorem freeEnd_inv (h : FreeInv s c m₀ A) (hc : s.m.Coherent) (hi : c.i = c.n)
    (heq : vaddrRemove c.pf (4096*c.v) c.n s.m = (.ok (),m')) :
    (∃ A', PageSys.Inv { s with m := m', live := s.live \ s.pages c.pf c.v c.n } A') ∧
      m'.Coherent := by
  have hspace := Machine.space_congr h.frees.setup c.pf
  have hpages : ({ s with m := m₀ } : PageSys).pages c.pf c.v c.n = s.pages c.pf c.v c.n := by
    simp only [PageSys.pages,hspace]
  have hmem : (s.m.space c.pf,c.v) ∈ s.live :=
    h.live ⟨rfl,Nat.le_refl _,by have := h.pos; dsimp only; omega⟩
  rw [hspace] at hmem
  obtain ⟨f,hf⟩ := Option.isSome_iff_exists.mp (h.inv.live _ hmem).1
  have hin : m₀.InSpace (m₀.space c.pf) c.v := h.inv.pageRep.inSpace hf
  have hlt := hin.lt h.inv.pageRep.toLayout
  unfold recursivePage at hlt
  obtain ⟨events,hremove⟩ := vaddrRemove_eq s.m c.pf c.v c.n
    (by rw [hspace,h.frees.vaddr,h.inv.pageRep.vaddrStart_eq h.inv.vaddrRep hin])
    (by rw [hspace]; exact hin.firstPage_le) (by omega)
  rw [h.frees.vbitmap,hspace] at hremove
  have hrep := h.rep
  have hfree := h.frees
  rw [hi] at hrep hfree
  have hinv := h.inv.of_frees h.pos (by rw [hpages]; exact h.live) hrep hfree events
  rw [hremove] at heq
  obtain rfl := (Prod.mk.inj heq).2
  refine ⟨⟨A.drop (m₀.space c.pf) c.v c.n,?_⟩,?_⟩
  · rw [← hpages]
    exact hinv
  · have hlen : ((m₀.vbitmap c.pf).setRange (c.v-firstPage (m₀.space c.pf)) false
        c.n).btmpBytesLen = (s.m.vbitmap c.pf).btmpBytesLen := by
      rw [Bitmap.setRange_btmpBytesLen,hfree.vbitmap]
    refine hc.of_le hrep hinv.pageRep (Machine.setVaddr_setup hlen) (fun w g hg => ?_)
      fun _ _ _ _ hp => hp
    rw [← s.m.setVaddr_tlb c.pf ((m₀.vbitmap c.pf).setRange (c.v-firstPage (m₀.space c.pf)) false
      c.n)]
    exact hg

/-- A write through a coherent cache is a write through the page tables. -/
theorem store_inv (h : PageSys.Inv s A) (hc : s.m.Coherent) {va pa : ℕ} {b : BitVec 8}
    (hl : (s.m.space pf,va/pageSize) ∈ s.live) (hp : s.m.cachedTranslate va = some pa) :
    (∃ A', PageSys.Inv { s with m := s.m.setMem (store8 s.m.mem pa b) } A') ∧
      (s.m.setMem (store8 s.m.mem pa b)).Coherent := by
  obtain ⟨hsome,hdir⟩ := h.live _ hl
  obtain ⟨f,hf⟩ := Option.isSome_iff_exists.mp hsome
  have hin := h.pageRep.inSpace hf
  have hs := s.m.reaches_space pf
  rw [hc.cachedTranslate_eq (hin.heapPage hs)] at hp
  have hdata := h.pageRep.dataPages_page hs hf hdir
  have hpa : pa = 4096*f+va % 4096 := by
    have hw : s.m.translate va = some (4096*f+va % 4096) := h.pageRep.window.walk hdata
    rw [hw] at hp
    exact (Option.some.inj hp).symm
  subst hpa
  refine ⟨PageSys.Step.inv (.store hl (storeByte_eq hp)) h,?_⟩
  have ho : Only (s.m.dataPages A) Set.univ s.m.mem (store8 s.m.mem (4096*f+va % 4096) b) :=
    only_store8 hdata (Set.mem_univ _)
  exact hc.of_le h.pageRep (h.pageRep.setData ho) rfl (fun _ _ hg => hg) fun _ _ _ _ hp => hp

/-- Every step keeps the invariant, when the rounds of mfree_page meet no cached page. -/
theorem Step.inv (hs : Step Machine.Uncached x x') (h : Inv x) : Inv x' := by
  cases hs with
  | fill hf =>
    cases h with
    | idle h hc => exact .idle (pageSys_setTlb h) (coherent_setTlb hc hf)
    | freeing h hc => exact .freeing (freeInv_setTlb h) (coherent_setTlb hc hf)
  | mallocPage heq =>
    obtain ⟨h,hc⟩ := h
    obtain ⟨k,A',-,hh,hrep'⟩ := (h.pageRep.mallocPage_runs h.vaddrRep).of_ok heq
    obtain ⟨A'',hi⟩ := PageSys.Step.inv (.mallocPage heq) h
    exact .idle hi (coherent_of_gains hc h.pageRep hrep' hh.gains)
  | getAPage hv heq =>
    obtain ⟨h,hc⟩ := h
    obtain ⟨A'',hi⟩ := PageSys.Step.inv (.getAPage hv heq) h
    obtain ⟨k,rfl,hk⟩ := hv
    have hin := h.vaddrRep.inSpace (Machine.reaches_space _ _) hk
    obtain ⟨A',-,hrep',-,hg⟩ := (h.pageRep.getAPage_runs h.vaddrRep hin).of_ok heq
    exact .idle hi (coherent_of_gains hc h.pageRep hrep' hg)
  | store hl hp =>
    obtain ⟨h,hc⟩ := h
    obtain ⟨⟨A',hi⟩,hc'⟩ := store_inv h hc hl hp
    exact .idle hi hc'
  | freeStart hl heq =>
    obtain ⟨h,hc⟩ := h
    obtain ⟨rfl,hi⟩ := freeStart_inv h hl heq
    exact .freeing hi hc
  | freeRound hi hq heq =>
    obtain ⟨⟩ | ⟨h,hc⟩ := h
    obtain ⟨h',hc'⟩ := freeRound_inv h hc hi hq heq
    exact .freeing h' hc'
  | freeEnd hi heq =>
    obtain ⟨⟩ | ⟨h,hc⟩ := h
    obtain ⟨⟨A',h'⟩,hc'⟩ := freeEnd_inv h hc hi heq
    exact .idle h' hc'

theorem Inv.pageSys (h : Inv ⟨s,none⟩) : ∃ A, PageSys.Inv s A := by
  cases h with
  | idle h _ => exact ⟨_,h⟩

theorem Reachable.inv (h : Reachable Machine.Uncached x) : Inv x := by
  obtain ⟨s,hs,htlb,hr⟩ := h
  induction hr with
  | refl =>
    obtain ⟨A,hi⟩ := hs.inv
    exact .idle hi fun v f _ hf => by
      rw [htlb] at hf
      contradiction
  | tail _ hs ih => exact hs.inv ih

/-- In every run in which mfree_page takes no page out of the tables while a translation of it is
cached, no cached translation of a heap page ever disagrees with the page tables. -/
theorem reachable_coherent (h : Reachable Machine.Uncached x) : x.sys.m.Coherent := by
  cases h.inv with
  | idle _ hc => exact hc
  | freeing _ hc => exact hc

/-- The state after a kernel page has been handed out and used. -/
def cachedPage : PageSys :=
  { PageSys.onePage with m := PageSys.onePage.m.setTlb 0xc0100 (some 0x200) }

theorem cachedPage_run (Q : Machine → ℕ → Prop) :
    Relation.ReflTransGen (Step Q) ⟨PageSys.smallComputer,none⟩ ⟨cachedPage,none⟩ := by
  have hf : PageSys.onePage.m.pageFrame 0xc0100 = some 0x200 := by decide +kernel
  have h₁ : Step Q ⟨PageSys.smallComputer,none⟩ ⟨PageSys.onePage,none⟩ :=
    .mallocPage PageSys.onePage_run
  have h₂ : Step Q ⟨PageSys.onePage,none⟩ ⟨cachedPage,none⟩ := .fill hf
  exact .tail (.single h₁) h₂

theorem cachedPage_reachable (Q : Machine → ℕ → Prop) : Reachable Q ⟨cachedPage,none⟩ :=
  ⟨_,PageSys.smallComputer_reachable,fun _ => rfl,cachedPage_run Q⟩

theorem reachable_coherent_cachedPage : cachedPage.m.Coherent :=
  reachable_coherent (x := ⟨cachedPage,none⟩) (cachedPage_reachable _)

/-- A page that is given back while a translation of it is cached stays cached. -/
theorem freed_incoherent (h : PageSys.Inv s A) (hl : (s.m.space pf,v) ∈ s.live)
    (ht : s.m.tlb v = some f) (hrun : v ≠ s.m.runningThread/pageSize) :
    ∃ x, Relation.ReflTransGen (Step fun _ _ => True) ⟨s,none⟩ x ∧ ¬ x.sys.m.Coherent := by
  have hpages : s.pages pf v 1 ⊆ s.live := by
    rintro ⟨x,w⟩ ⟨rfl,h₁,h₂⟩
    obtain rfl : w = v := by
      dsimp only at h₁ h₂
      omega
    exact hl
  obtain ⟨hsome,hdir⟩ := h.live _ hl
  obtain ⟨g,hg⟩ := Option.isSome_iff_exists.mp hsome
  have hs := s.m.reaches_space pf
  have hin := h.pageRep.inSpace hg
  have hlt := hin.lt h.pageRep.toLayout
  unfold recursivePage at hlt
  have hasserts := h.pageRep.mfreeAsserts_eq hg hs Nat.one_pos
  obtain ⟨m₁,hround,hrep,hfree,htlb⟩ := h.pageRep.unmapPage_eq hg hs hdir
  have hspace := Machine.space_congr hfree.setup pf
  obtain ⟨events,hremove⟩ := vaddrRemove_eq m₁ pf v 1
    (by rw [hspace,hfree.vaddr,h.pageRep.vaddrStart_eq h.vaddrRep hin])
    (by rw [hspace]; exact hin.firstPage_le) (by omega)
  refine ⟨_,.tail (.tail (.single (.freeStart hpages hasserts))
    (.freeRound (c := ⟨pf,v,1,0⟩) Nat.one_pos trivial hround))
    (.freeEnd (c := ⟨pf,v,1,1⟩) rfl hremove),fun hc => ?_⟩
  have hlen : ((m₁.vbitmap pf).setRange (v-firstPage (m₁.space pf)) false 1).btmpBytesLen =
      (m₁.vbitmap pf).btmpBytesLen := Bitmap.setRange_btmpBytesLen _ _ _ _
  have hset := (Machine.setVaddr_setup hlen).trans hfree.setup
  generalize hm₂ : ({ m₁.setVaddr pf ((m₁.vbitmap pf).setRange (v-firstPage (m₁.space pf)) false 1)
    with events := events } : Machine) = m₂ at hc
  have hset₂ : m₂.setup = s.m.setup := by rw [← hm₂]; exact hset
  have hrep₂ : PageRep m₂ (Function.update A (.page (s.m.space pf) v) none) ∅ := by
    rw [← hm₂]
    exact (hrep.setVaddr hlen).congr rfl rfl fun _ _ => rfl
  have hs₂ : m₂.Reaches (s.m.space pf) := by
    rwa [Machine.Reaches,Machine.runningThread_congr hset₂]
  have hin₂ : m₂.InSpace (s.m.space pf) v := (Machine.inSpace_congr hset₂ _ v).mpr hin
  have htlb₂ : m₂.tlb v = some f := by
    have he : m₂.tlb = m₁.tlb := by
      rw [← hm₂]
      exact m₁.setVaddr_tlb pf _
    rw [he,htlb,Function.update_of_ne hrun,ht]
  have hf := hc v f (hin₂.heapPage hs₂) htlb₂
  rw [hrep₂.pageFrame_eq hs₂ hin₂,Function.update_self] at hf
  contradiction

/-- A kernel page is handed out, used and given back, and its translation stays cached. -/
theorem cachedPage_incoherent :
    ∃ x, Reachable (fun _ _ => True) x ∧ ¬ x.sys.m.Coherent := by
  have hl : (cachedPage.m.space .kernel,0xc0100) ∈ cachedPage.live :=
    .inr ⟨rfl,by decide,by decide⟩
  have ht : cachedPage.m.tlb 0xc0100 = some 0x200 := by
    change Function.update PageSys.onePage.m.tlb 0xc0100 (some 0x200) 0xc0100 = some 0x200
    exact Function.update_self _ _ _
  have hrun : 0xc0100 ≠ cachedPage.m.runningThread/pageSize := by decide +kernel
  obtain ⟨A,hi⟩ := (cachedPage_reachable Machine.Uncached).inv.pageSys
  obtain ⟨x,hx,hc⟩ := freed_incoherent hi hl ht hrun
  exact ⟨x,⟨_,PageSys.smallComputer_reachable,fun _ => rfl,(cachedPage_run _).trans hx⟩,hc⟩

end Steps
end TlbSys
end OsKernel

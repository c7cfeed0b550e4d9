import OsKernel.Memory.PageCalls

/-! mfree_page: every page of the range loses its frame, which goes back to the pool of its
address, and then the range is cleared in the bitmap of virtual addresses. -/
namespace OsKernel
open Paging ByteMemory Exec KernelM

/-- The map without the n pages from v on. -/
def FrameMap.drop (A : FrameMap) (s : Option TaskId) (v n : ℕ) : FrameMap := fun x =>
  match x with
  | .page s' w => if s' = s ∧ v ≤ w ∧ w < v+n then none else A x
  | .table _ _ => A x

section Drop
variable {A : FrameMap} {s s' : Option TaskId} {v w n : ℕ} {t : TaskId} {i : ℕ}

theorem FrameMap.drop_page : A.drop s v n (.page s' w) =
    if s' = s ∧ v ≤ w ∧ w < v+n then none else A (.page s' w) := rfl

@[simp] theorem FrameMap.drop_table : A.drop s v n (.table t i) = A (.table t i) := rfl

theorem FrameMap.drop_zero : A.drop s v 0 = A := by
  funext x
  cases x with
  | page s' w => exact if_neg (by omega)
  | table t i => rfl

/-- One more page at the end. -/
theorem FrameMap.drop_succ_last :
    Function.update (A.drop s v n) (.page s (v+n)) none = A.drop s v (n+1) := by
  funext x
  by_cases hx : x = .page s (v+n)
  · subst hx
    rw [Function.update_self,FrameMap.drop_page,if_pos ⟨rfl,by omega,by omega⟩]
  · rw [Function.update_of_ne hx]
    cases x with
    | page s' w =>
      rw [FrameMap.drop_page,FrameMap.drop_page]
      by_cases hr : s' = s ∧ v ≤ w ∧ w < v+n
      · rw [if_pos hr,if_pos ⟨hr.1,hr.2.1,by omega⟩]
      · refine (if_neg hr).trans (if_neg ?_).symm
        rintro ⟨rfl,h₁,h₂⟩
        obtain rfl : w = v+n := by
          by_contra hne
          exact hr ⟨rfl,h₁,by omega⟩
        exact hx rfl
    | table t i => rfl

theorem FrameMap.drop_succ :
    FrameMap.drop (Function.update A (.page s v) none) s (v+1) n = A.drop s v (n+1) := by
  funext x
  cases x with
  | page s' w =>
    simp only [FrameMap.drop_page]
    by_cases hw : s' = s ∧ w = v
    · obtain ⟨rfl,rfl⟩ := hw
      rw [Function.update_self,if_pos (show s' = s' ∧ w ≤ w ∧ w < w+(n+1) from ⟨rfl,by omega,by omega⟩)]
      simp
    · have hne : Use.page s' w ≠ .page s v := by
        intro he
        obtain ⟨rfl,rfl⟩ := Use.page.inj he
        exact hw ⟨rfl,rfl⟩
      rw [Function.update_of_ne hne]
      by_cases hs : s' = s
      · subst hs
        have hwv : w ≠ v := fun e => hw ⟨rfl,e⟩
        by_cases hr : v+1 ≤ w ∧ w < v+1+n
        · rw [if_pos ⟨rfl,hr⟩,if_pos ⟨rfl,by omega⟩]
        · rw [if_neg fun h => hr h.2,if_neg fun h => hr (by omega)]
      · rw [if_neg fun h => hs h.1,if_neg fun h => hs h.1]
  | table t i => simp [Function.update_of_ne]

end Drop

/-- The map has shrunk from A to A'. The layout, the locks and the bitmaps of virtual addresses
are as before, and so is the data. -/
structure Frees (m : Machine) (A : FrameMap) (m' : Machine) (A' : FrameMap) : Prop where
  setup : m'.setup = m.setup
  lock : ∀ pf, (m'.pool pf).lock = (m.pool pf).lock
  task : m'.task = m.task
  kernelVaddr : m'.kernelVaddr = m.kernelVaddr
  le : ∀ x f, A' x = some f → A x = some f
  data : ∀ g, m'.DataFrame A' g → SameFrame m.mem m'.mem g

section Unmap
variable {m m' : Machine} {A : FrameMap} {F : Set ℕ} {P : Set (Option TaskId × ℕ)}
  {pf : PoolFlags} {s : Option TaskId} {v f n tab : ℕ}

/-- The entry of a mapped page. -/
theorem PageRep.pte_word (h : PageRep m A F) (hp : A (.page s v) = some f)
    (htab : A.tableOf s v = some tab) :
    load32 m.mem (4096*tab+4*(v % 1024)) % 2 = 1 ∧
      load32 m.mem (4096*tab+4*(v % 1024))/4096 = f := by
  have ht := h.target_pte (h.inSpace hp) htab
  rw [hp] at ht
  exact target_eq_some_iff.mp ht

theorem PageRep.addrV2p_eq (h : PageRep m A F) (hp : A (.page s v) = some f)
    (hs : m.Reaches s) : addrV2p (4096*v) m = (.ok (4096*f),m) := by
  obtain ⟨tab,htab⟩ := h.tableOf_of_page hp
  have hw := (h.pte_word hp htab).2
  have hmod : load32 m.mem (4096*tab+4*(v % 1024))/pageSize*pageSize+4096*v % pageSize =
      4096*f := by
    unfold pageSize
    omega
  rw [addrV2p,Exec.bind_of_ok (load_eq (h.translate_pte (h.inSpace hp) hs htab))]
  exact congrArg (fun a => (Except.ok a,m)) hmod

/-- pfree finds the pool and the position of a frame from its address. -/
theorem PageRep.pfree_eq (h : PageRep m A F) (hin : m.InPool pf f) :
    pfree (4096*f) m = (.ok (),(m.note .pfree pf).setBit pf (f-m.start pf) false) := by
  have hpf : (if (m.pool .user).phyAddrStart ≤ 4096*f then PoolFlags.user else .kernel) = pf := by
    have hu := h.userAligned
    have hd := h.disjoint
    have hs := h.start_kernel
    unfold pageSize at hu
    cases pf with
    | kernel =>
      have hlt := hin.2
      exact if_neg (by omega)
    | user =>
      have hle := hin.1
      exact if_pos (by omega)
  have hidx : pageOffset (4096*f) (m.pool pf).phyAddrStart = f-m.start pf := by
    have hst : (m.pool pf).phyAddrStart = 4096*m.start pf := by
      cases pf with
      | kernel => rw [h.kernelStart,h.start_kernel,pageSize]
      | user => exact h.userAligned
    have hlt := h.lt_of_inPool hin
    have hle := hin.1
    rw [hst]
    unfold pageOffset pageSize
    omega
  have he : pfree (4096*f) m =
      (.ok (),(m.note .pfree (if (m.pool .user).phyAddrStart ≤ 4096*f then PoolFlags.user
        else .kernel)).setBit (if (m.pool .user).phyAddrStart ≤ 4096*f then PoolFlags.user
        else .kernel) (pageOffset (4096*f) (m.pool (if (m.pool .user).phyAddrStart ≤ 4096*f
        then PoolFlags.user else .kernel)).phyAddrStart) false) := rfl
  rw [he,hpf,hidx]

/-- One round of the loop of mfree_page. -/
theorem PageRep.unmapPage_eq (h : PageRep m A F) (hp : A (.page s v) = some f)
    (hs : m.Reaches s) (hdir : ¬ m.DirPage s v) :
    ∃ m', unmapPage (4096*v) m = (.ok (),m') ∧
      PageRep m' (Function.update A (.page s v) none) F ∧
      Frees m A m' (Function.update A (.page s v) none) ∧
      m'.tlb = Function.update m.tlb (m.runningThread/pageSize) none := by
  obtain ⟨tab,htab⟩ := h.tableOf_of_page hp
  have hin := h.inPool _ _ hp
  have hlt := load32_lt m.mem (4096*tab+4*(v % 1024))
  have hodd := (h.pte_word hp htab).1
  generalize hpf : (Use.page s v).pool = pf at hin
  generalize he : load32 m.mem (4096*tab+4*(v % 1024)) = e at hlt hodd
  generalize hm₁ : (m.note .pfree pf).setBit pf (f-m.start pf) false = m₁
  have hset₁ : m₁.setup = m.setup := hm₁ ▸ Machine.setBit_setup _ _ _ _
  have hrest₁ : m₁.rest = m.rest := hm₁ ▸ Machine.setBit_rest _ _ _ _
  have hmem₁ : m₁.mem = m.mem := by
    rw [← hm₁]
    rfl
  have htlb : m₁.tlb = m.tlb := Machine.tlb_of_rest hrest₁
  have hthread : m₁.runningThread = m.runningThread := Machine.runningThread_congr hset₁
  have htr : m₁.translate (ptePtr (4096*v)) = some (4096*tab+4*(v % 1024)) := by
    rw [Machine.translate,hmem₁,Machine.cr3_congr hset₁]
    exact h.translate_pte (h.inSpace hp) hs htab
  generalize hmem' : store32 m.mem (4096*tab+4*(v % 1024)) (e-e % 2) = mem'
  generalize hm' : ({ m₁ with
    mem := mem'
    tlb := Function.update m.tlb (m.runningThread/pageSize) none } : Machine) = m'
  have hset : m'.setup = m.setup := by
    rw [← hm']
    exact hset₁
  have hrun : unmapPage (4096*v) m = (.ok (),m') := by
    have hload := load_eq htr
    rw [hmem₁,he] at hload
    have hstore := store_eq (v := e-e % 2) htr
    rw [hmem₁,hmem'] at hstore
    rw [unmapPage,Exec.bind_of_ok (h.addrV2p_eq hp hs),Exec.bind_of_ok (h.pfree_eq hin),hm₁,
      pageTablePteRemove,Exec.bind_of_ok hload,Exec.bind_of_ok hstore,← hm',← htlb,← hthread]
    rfl
  have hrep : PageRep m' (Function.update A (.page s v) none) F := by
    have hrem := h.removePage hp htab hdir (e := e-e % 2) (by omega) (by omega)
    have h₁ := hin.1
    have h₂ := hin.2
    have hstart : m.start pf+(f-m.start pf) = f := Nat.add_sub_cancel' h₁
    have hrel := hrem.release (i := f-m.start pf) (show _ < 8*m.len pf by omega)
      (show m.start pf+(f-m.start pf) ∈ insert f F by
        rw [hstart]
        exact Set.mem_insert f F)
    change PageRep _ _ (insert f F \ {m.start pf+(f-m.start pf)}) at hrel
    rw [hstart,insert_diff_self (h.reserved _ _ hp),hmem'] at hrel
    refine hrel.congr (hset.trans (Machine.setBit_setup _ _ _ _).symm) ?_ fun pf' i => ?_
    · rw [← hm']
      rfl
    · have hbit : m'.bit pf' i = m₁.bit pf' i := by
        rw [← hm']
        rfl
      rw [hbit,← hm₁,Machine.setBit_bit,Machine.setBit_bit]
      rfl
  have hle : ∀ x g, Function.update A (.page s v) none x = some g → A x = some g := by
    intro x g hx
    by_cases hxe : x = .page s v
    · subst hxe
      simp at hx
    · rwa [Function.update_of_ne hxe] at hx
  refine ⟨m',hrun,hrep,⟨hset,fun pf' => ?_,?_,?_,hle,fun g hg => ?_⟩,?_⟩
  · rw [← hm']
    exact Machine.lock_of_rest hrest₁ pf'
  · have htask : m₁.task = m.task := Machine.task_of_rest hrest₁
    rw [← hm',← htask]
  · have hvaddr : m₁.kernelVaddr = m.kernelVaddr := Machine.kernelVaddr_of_rest hrest₁
    rw [← hm',← hvaddr]
  · have hg' : m.DataFrame A g := hg.mono hset.symm fun s' w => hle (.page s' w) g
    have hsame : SameFrame m.mem mem' g := by
      rw [← hmem']
      apply sameFrame_store32_word (Nat.mod_lt _ (by decide))
      rintro rfl
      exact h.dataFrame_ne_table hg' (h.tableFrame (h.inSpace hp) htab)
    rw [← hm']
    exact hsame
  · rw [← hm']

theorem Frees.refl : Frees m A m A := ⟨rfl,fun _ => rfl,rfl,rfl,fun _ _ => id,fun g _ => .refl _ g⟩

theorem Frees.trans {A' A'' : FrameMap} {m'' : Machine} (h : Frees m A m' A')
    (h' : Frees m' A' m'' A'') : Frees m A m'' A'' := by
  refine ⟨h'.setup.trans h.setup,fun pf => (h'.lock pf).trans (h.lock pf),h'.task.trans h.task,
    h'.kernelVaddr.trans h.kernelVaddr,fun x f hx => h.le x f (h'.le x f hx),fun g hg => ?_⟩
  have hg' : m'.DataFrame A' g := hg.mono h'.setup.symm fun s' w => h'.le (.page s' w) g
  exact (h.data g hg').trans (h'.data g hg)

/-- The pages behind the first one are still mapped when that one is not any more. -/
theorem Frees.pages_behind (h : Frees m A m' (Function.update A (.page s v) none))
    (hp : ∀ i, i < n+1 → (A (.page s (v+i))).isSome ∧ ¬ m.DirPage s (v+i)) (i : ℕ) (hi : i < n) :
    (Function.update A (.page s v) none (.page s (v+1+i))).isSome ∧ ¬ m'.DirPage s (v+1+i) := by
  have hpi := hp (i+1) (by omega)
  have hne : Use.page s (v+(i+1)) ≠ .page s v := by
    rw [Ne,Use.page.injEq]
    omega
  rw [show v+1+i = v+(i+1) by omega,Machine.dirPage_iff_congr h.setup]
  exact ⟨by rw [Function.update_of_ne hne]; exact hpi.1,hpi.2⟩

/-- The loop of mfree_page. -/
theorem PageRep.unmapPages_eq (h : PageRep m A F)
    (hp : ∀ i, i < n → (A (.page s (v+i))).isSome ∧ ¬ m.DirPage s (v+i)) (hs : m.Reaches s) :
    ∃ m', unmapPages (4096*v) n m = (.ok (),m') ∧ PageRep m' (A.drop s v n) F ∧
      Frees m A m' (A.drop s v n) ∧
      m'.tlb = if n = 0 then m.tlb else Function.update m.tlb (m.runningThread/pageSize) none := by
  induction n generalizing m A v with
  | zero =>
    rw [FrameMap.drop_zero]
    exact ⟨m,rfl,h,.refl,rfl⟩
  | succ n ih =>
    obtain ⟨f,hf⟩ := Option.isSome_iff_exists.mp (hp 0 (by omega)).1
    obtain ⟨m₁,hrun₁,hrep₁,hfree₁,htlb₁⟩ := h.unmapPage_eq hf hs (hp 0 (by omega)).2
    have hthread : m₁.runningThread = m.runningThread :=
      Machine.runningThread_congr hfree₁.setup
    rw [Nat.add_zero] at hrun₁ hrep₁ hfree₁
    obtain ⟨m₂,hrun₂,hrep₂,hfree₂,htlb₂⟩ := ih hrep₁ (hfree₁.pages_behind hp)
      (by simpa only [Machine.Reaches,hthread] using hs)
    rw [FrameMap.drop_succ] at hrep₂ hfree₂
    refine ⟨m₂,?_,hrep₂,hfree₁.trans hfree₂,?_⟩
    · have hnext : 4096*v+pageSize = 4096*(v+1) := by
        unfold pageSize
        omega
      rw [unmapPages,Exec.bind_of_ok hrun₁,hnext,hrun₂]
    · rw [htlb₂,htlb₁,hthread]
      split <;> simp

/-- The position of a page in the bitmap of its address space. -/
theorem pageOffset_page {start : ℕ} (hstart : start = 4096*firstPage s) (hv : firstPage s ≤ v)
    (hlt : v < 2^20) : pageOffset (4096*v) start = v-firstPage s := by
  subst hstart
  unfold pageOffset pageSize
  omega

theorem PageRep.vaddrStart_eq (h : PageRep m A F) (hv : VaddrRep m A P) (hs : m.InSpace s v) :
    (m.vaddr s).vaddrStart = 4096*firstPage s := by
  cases s with
  | none => exact h.vaddrStart
  | some t => exact hv.userStart t hs.1

theorem Machine.InSpace.firstPage_le (hs : m.InSpace s v) : firstPage s ≤ v := by
  cases s with
  | none => exact hs.1
  | some t => exact hs.2.1

/-- vaddr_remove clears the range. -/
theorem vaddrRemove_eq (m : Machine) (pf : PoolFlags) (v n : ℕ)
    (hstart : (m.vaddr (m.space pf)).vaddrStart = 4096*firstPage (m.space pf)) (hle : firstPage (m.space pf) ≤ v) (hlt : v < 2^20) :
    ∃ events, vaddrRemove pf (4096*v) n m = (.ok (),
      { m.setVaddr pf ((m.vbitmap pf).setRange (v-firstPage (m.space pf)) false n) with
        events := events }) := by
  rw [← pageOffset_page hstart hle hlt]
  cases pf with
  | kernel => exact ⟨_,rfl⟩
  | user => exact ⟨m.events,rfl⟩

theorem Frees.vaddr {A' : FrameMap} (h : Frees m A m' A') (s : Option TaskId) :
    m'.vaddr s = m.vaddr s := by
  cases s with
  | none => exact h.kernelVaddr
  | some t => exact congrArg (fun g => (g t).userprogVaddr) h.task

theorem Frees.vbitmap {A' : FrameMap} (h : Frees m A m' A') (pf : PoolFlags) :
    m'.vbitmap pf = m.vbitmap pf := by
  rw [Machine.vbitmap,Machine.space_congr h.setup,h.vaddr]
  rfl

theorem PageRep.mfreeAsserts_eq (h : PageRep m A F) (hp : A (.page s v) = some f)
    (hs : m.Reaches s) (hn : 0 < n) : mfreeAsserts (4096*v) n m = (.ok (),m) := by
  have hle := h.le_of_use hp
  unfold firstPoolFrame at hle
  rw [mfreeAsserts,Exec.bind_of_ok (kassert_eq ⟨hn,by unfold pageSize; omega⟩),
    Exec.bind_of_ok (h.addrV2p_eq hp hs),kassert_eq ⟨by unfold pageSize; omega,by omega⟩]

/-- What mfree_page does to a range of mapped pages that hold no directory. -/
theorem PageRep.mfreePage_eq (h : PageRep m A F) (hv : VaddrRep m A P) (hn : 0 < n)
    (hp : ∀ i, i < n → (A (.page (m.space pf) (v+i))).isSome ∧ ¬ m.DirPage (m.space pf) (v+i)) :
    ∃ m₁ events, mfreePage pf (4096*v) n m = (.ok (),
        { m₁.setVaddr pf ((m.vbitmap pf).setRange (v-firstPage (m.space pf)) false n) with
          events := events }) ∧
      PageRep m₁ (A.drop (m.space pf) v n) F ∧ Frees m A m₁ (A.drop (m.space pf) v n) ∧
      m₁.tlb = Function.update m.tlb (m.runningThread/pageSize) none := by
  obtain ⟨f,hf⟩ := Option.isSome_iff_exists.mp (hp 0 hn).1
  rw [Nat.add_zero] at hf
  obtain ⟨m₁,hrun,hrep,hfree,htlb⟩ := h.unmapPages_eq hp (m.reaches_space pf)
  rw [if_neg hn.ne'] at htlb
  have hasserts := h.mfreeAsserts_eq hf (m.reaches_space pf) hn
  have hspace := Machine.space_congr hfree.setup pf
  have hin : m.InSpace (m.space pf) v := h.inSpace hf
  have hlt := hin.lt h.toLayout
  unfold recursivePage at hlt
  obtain ⟨events,hremove⟩ := vaddrRemove_eq m₁ pf v n
    (by rw [hspace,hfree.vaddr,h.vaddrStart_eq hv hin]) (by rw [hspace]; exact hin.firstPage_le)
    (by omega)
  rw [hfree.vbitmap,hspace] at hremove
  refine ⟨m₁,events,?_,hrep,hfree,htlb⟩
  rw [mfreePage,Exec.bind_of_ok hasserts,Exec.bind_of_ok hrun,hremove]

/-- After mfree_page the bitmaps agree with the map again. -/
theorem VaddrRep.free (hv : VaddrRep m A P) {m₁ : Machine}
    (hfree : Frees m A m₁ (A.drop (m.space pf) v n))
    (hp : ∀ i, i < n → (A (.page (m.space pf) (v+i))).isSome)
    (hle : firstPage (m.space pf) ≤ v) :
    VaddrRep (m₁.setVaddr pf ((m.vbitmap pf).setRange (v-firstPage (m.space pf)) false n))
      (A.drop (m.space pf) v n) P := by
  have hspace := Machine.space_congr hfree.setup pf
  have hrange : ∀ w, (m.space pf,w) ∈ pageRange (m.space pf) (v-firstPage (m.space pf)) n ↔
      v ≤ w ∧ w < v+n := by
    intro w
    simp only [pageRange,Set.mem_ofPred_eq,true_and]
    omega
  have hold : ∀ w, v ≤ w → w < v+n → (A (.page (m.space pf) w)).isSome := by
    intro w h₁ h₂
    have hpw := hp (w-v) (by omega)
    rwa [show v+(w-v) = w by omega] at hpw
  -- between the loop and vaddr_remove the freed pages are marked though not mapped
  have hmid : VaddrRep m₁ (A.drop (m.space pf) v n)
      (P ∪ pageRange (m.space pf) (v-firstPage (m.space pf)) n) := by
    refine hv.congr hfree.vaddr (Machine.isProc_congr hfree.setup)
      (Machine.runningThread_congr hfree.setup) (fun s w => ?_) fun s w hw => ?_
    · by_cases hw : s = m.space pf ∧ v ≤ w ∧ w < v+n
      · obtain ⟨rfl,hw⟩ := hw
        simp [FrameMap.drop_page,hw,(hrange w).mpr hw,hold w hw.1 hw.2]
      · have hnot : (s,w) ∉ pageRange (m.space pf) (v-firstPage (m.space pf)) n := by
          rintro hx
          obtain rfl : s = m.space pf := hx.1
          exact hw ⟨rfl,(hrange w).mp hx⟩
        simp [FrameMap.drop_page,hw,hnot]
    · rw [FrameMap.drop_page]
      split
      · rfl
      · rename_i hnot
        obtain hw | hx := hw
        · exact hv.pending s w hw
        · obtain rfl : s = m.space pf := hx.1
          exact absurd ⟨rfl,(hrange w).mp hx⟩ hnot
  rw [← hfree.vbitmap]
  refine hmid.setRange false (fun s w hx => ?_) fun w hx => ?_
  · rw [hspace] at hx
    simp [hx]
  · rw [hspace] at hx ⊢
    have hw := (hrange w).mp hx
    refine ⟨?_,?_⟩
    · simp only [Bool.false_eq_true,false_iff]
      intro hP
      have hnone := hv.pending _ _ hP
      have hsome := hold w hw.1 hw.2
      rw [hnone] at hsome
      contradiction
    · rw [FrameMap.drop_page,if_pos ⟨rfl,hw⟩]

end Unmap
end OsKernel

import OsKernel.Memory.DataWindow

/-! The calls that hand out pages under the lock of a pool: get_kernel_pages, get_user_pages and
get_a_page. -/
namespace OsKernel
open Paging ByteMemory Exec KernelM

section Locks
variable {m : Machine} {A : FrameMap} {F : Set ℕ} {P : Set (Option TaskId × ℕ)}
  {pf : PoolFlags} {l : PoolLock}

theorem Machine.setLock_pool (m : Machine) (pf : PoolFlags) (l : PoolLock) (pf' : PoolFlags) :
    (m.setLock pf l).pool pf' = if pf' = pf then { m.pool pf' with lock := l } else m.pool pf' := by
  by_cases hpf : pf' = pf
  · subst hpf
    simp [setLock,setPool]
  · simp [setLock,setPool,hpf]

theorem Machine.setLock_setup (m : Machine) (pf : PoolFlags) (l : PoolLock) :
    (m.setLock pf l).setup = m.setup := by
  have hp : (m.setLock pf l).setup.pool = m.setup.pool := by
    funext pf'
    simp only [setup,setLock_pool]
    split <;> rfl
  exact congrArg (fun p => { m.setup with pool := p }) hp

theorem Machine.setLock_bitmap (m : Machine) (pf : PoolFlags) (l : PoolLock) (pf' : PoolFlags) :
    ((m.setLock pf l).pool pf').poolBitmap = (m.pool pf').poolBitmap := by
  rw [setLock_pool]
  split <;> rfl

theorem Machine.setLock_free (m : Machine) (pf : PoolFlags) (l : PoolLock) (pf' : PoolFlags) :
    (m.setLock pf l).free pf' = m.free pf' := by
  rw [Machine.free,m.setLock_bitmap]
  rfl

theorem Machine.Roomy.setLock {k : ℕ} (h : m.Roomy k) : (m.setLock pf l).Roomy k := by
  intro ns hpos hsum
  have hroom := h ns hpos hsum
  rw [Machine.RoomFor] at hroom ⊢
  rwa [Machine.setLock_free]

theorem PageRep.setLock (h : PageRep m A F) : PageRep (m.setLock pf l) A F :=
  h.congr (m.setLock_setup pf l) rfl fun pf' i => by
    rw [Machine.bit,m.setLock_bitmap]
    rfl

theorem VaddrRep.setLock (hv : VaddrRep m A P) : VaddrRep (m.setLock pf l) A P :=
  ⟨hv.bits,hv.userStart,hv.userLen,hv.kernelLen,hv.pending⟩

lemma lockAcquire_eq : lockAcquire pf m = (if (m.pool pf).lock.holder = some m.runningThread then
    modify fun m' => m'.setLock pf
      ⟨(m.pool pf).lock.holder,((m.pool pf).lock.holderRepeatNr+1) % 2^32⟩
  else if (m.pool pf).lock.holder = none then do
    kassert ((m.pool pf).lock.holderRepeatNr = 0) "lock_acquire" "!plock->holder_repeat_nr"
    modify fun m => m.setLock pf ⟨some m.runningThread,1⟩
  else throw (.blocked "lock_acquire") : KernelM Unit) m := rfl

lemma lockRelease_eq : lockRelease pf m = (do
    kassert ((m.pool pf).lock.holder = some m.runningThread) "lock_release"
      "plock->holder == running_thread()"
    if 1 < (m.pool pf).lock.holderRepeatNr then
      modify fun m' => m'.setLock pf ⟨(m.pool pf).lock.holder,(m.pool pf).lock.holderRepeatNr-1⟩
    else do
      kassert ((m.pool pf).lock.holderRepeatNr = 1) "lock_release" "plock->holder_repeat_nr == 1"
      modify fun m => m.setLock pf ⟨none,0⟩ : KernelM Unit) m := rfl

lemma kassert_error {c : Prop} [Decidable c] {func text : String} (h : ¬ c) :
    kassert c func text m = (.error (.assert func text),m) := by
  rw [kassert,OsKernel.assert,if_neg h]
  rfl

/-- lock_acquire changes the lock only, or does not return. -/
theorem lockAcquire_runs (m : Machine) (pf : PoolFlags) :
    Runs (lockAcquire pf) m (fun _ m' => ∃ l, m' = m.setLock pf l) (fun _ m' => m' = m) := by
  rw [Runs,lockAcquire_eq]
  split_ifs with h₁ h₂
  · exact ⟨_,rfl⟩
  · by_cases h₃ : (m.pool pf).lock.holderRepeatNr = 0
    · rw [Exec.bind_of_ok (kassert_eq h₃)]
      exact ⟨_,rfl⟩
    · rw [Exec.bind_of_error (kassert_error h₃)]
  · rfl

theorem lockRelease_runs (m : Machine) (pf : PoolFlags) :
    Runs (lockRelease pf) m (fun _ m' => ∃ l, m' = m.setLock pf l) (fun _ m' => m' = m) := by
  rw [Runs,lockRelease_eq]
  by_cases h₁ : (m.pool pf).lock.holder = some m.runningThread
  · rw [Exec.bind_of_ok (kassert_eq h₁)]
    split_ifs with h₂
    · exact ⟨_,rfl⟩
    · by_cases h₃ : (m.pool pf).lock.holderRepeatNr = 1
      · rw [Exec.bind_of_ok (kassert_eq h₃)]
        exact ⟨_,rfl⟩
      · rw [Exec.bind_of_error (kassert_error h₃)]
  · rw [Exec.bind_of_error (kassert_error h₁)]

theorem lockAcquire_free (h : (m.pool pf).lock = ⟨none,0⟩) :
    lockAcquire pf m = (.ok (),m.setLock pf ⟨some m.runningThread,1⟩) := by
  rw [lockAcquire_eq,h]
  rfl

theorem lockRelease_once (h : (m.pool pf).lock = ⟨some m.runningThread,1⟩) :
    lockRelease pf m = (.ok (),m.setLock pf ⟨none,0⟩) := by
  rw [lockRelease_eq,h,Exec.bind_of_ok (kassert_eq rfl)]
  rfl

end Locks

/-- The map has grown by the uses in N. The layout, the translation cache and the data are as
before. -/
structure Gains (m : Machine) (A : FrameMap) (N : Finset Use) (m' : Machine) (A' : FrameMap) :
    Prop where
  setup : m'.setup = m.setup
  tlb : m'.tlb = m.tlb
  new : ∀ x, x ∈ N → A x = none ∧ (A' x).isSome
  old : ∀ x, x ∉ N → A' x = A x
  data : ∀ g, m.DataFrame A g → SameFrame m.mem m'.mem g

section Gains
variable {m m' m'' : Machine} {A A' A'' : FrameMap} {F : Set ℕ} {P : Set (Option TaskId × ℕ)}
  {N N' : Finset Use} {pf : PoolFlags} {k n v : ℕ}

theorem Gains.le (h : Gains m A N m' A') {x : Use} {f : ℕ} (hx : A x = some f) :
    A' x = some f := by
  rw [h.old x fun hn => by simp [(h.new x hn).1] at hx,hx]

theorem Gains.dataFrame (h : Gains m A N m' A') {g : ℕ} (hg : m.DataFrame A g) :
    m'.DataFrame A' g :=
  hg.mono h.setup fun _ _ => h.le

theorem Gains.trans (h : Gains m A N m' A') (h' : Gains m' A' N' m'' A'') :
    Gains m A (N ∪ N') m'' A'' := by
  refine ⟨h'.setup.trans h.setup,h'.tlb.trans h.tlb,fun x hx => ?_,fun x hx => ?_,
    fun g hg => (h.data g hg).trans (h'.data g (h.dataFrame hg))⟩
  · by_cases hx' : x ∈ N
    · obtain ⟨f,hf⟩ := Option.isSome_iff_exists.mp (h.new x hx').2
      exact ⟨(h.new x hx').1,Option.isSome_of_eq_some (h'.le hf)⟩
    · have hn := h'.new x ((Finset.mem_union.mp hx).resolve_left hx')
      rw [h.old x hx'] at hn
      exact hn
  · rw [Finset.mem_union,not_or] at hx
    rw [h'.old x hx.2,h.old x hx.1]

/-- Writes to the data of new pages. -/
theorem Gains.setMem {mem' : ByteMemory} (h : Gains m A N m' A')
    (hd : ∀ g, m.DataFrame A g → SameFrame m'.mem mem' g) : Gains m A N (m'.setMem mem') A' :=
  ⟨h.setup,h.tlb,h.new,h.old,fun g hg => (h.data g hg).trans (hd g hg)⟩

theorem Gains.setLock {l : PoolLock} (h : Gains m A N m' A') : Gains m A N (m'.setLock pf l) A' :=
  ⟨(m'.setLock_setup pf l).trans h.setup,h.tlb,h.new,h.old,h.data⟩

theorem Gains.of_setLock {l : PoolLock} (h : Gains (m.setLock pf l) A N m' A') :
    Gains m A N m' A' := by
  refine ⟨h.setup.trans (m.setLock_setup pf l),h.tlb,h.new,h.old,fun g hg => h.data g ?_⟩
  exact hg.mono (m.setLock_setup pf l) fun _ _ hp => hp

/-- A step with the bitmap of virtual addresses changed first. -/
theorem Gains.of_grow {btmp : Bitmap} (hl : btmp.btmpBytesLen = (m.vbitmap pf).btmpBytesLen)
    (h : Grow (m.setVaddr pf btmp) A N m' A') : Gains m A N m' A' := by
  refine ⟨(Machine.setup_of_rest h.rest).trans (Machine.setVaddr_setup hl),
    (Machine.tlb_of_rest h.rest).trans (m.setVaddr_tlb pf btmp),h.new,h.old,fun g hg => ?_⟩
  have hd := h.data g (hg.mono (Machine.setVaddr_setup hl) fun _ _ hp => hp)
  rwa [m.setVaddr_mem] at hd

theorem Handed.gains (h : Handed m A pf k n m' A') :
    Gains m A (newUses A (m.space pf) (firstPage (m.space pf)+k) n) m' A' :=
  .of_grow (Bitmap.setRange_btmpBytesLen _ _ _ _) h.grow

/-- The new pages hold data. -/
theorem Handed.dataPages (h : Handed m A pf k n m' A') (hrep : PageRep m A F)
    (hrep' : PageRep m' A' F) {i : ℕ} (hi : i < n) :
    (m'.dataPages A' (firstPage (m.space pf)+k+i)).isSome := by
  have hmem : Use.page (m.space pf) (firstPage (m.space pf)+k+i) ∈
      newUses A (m.space pf) (firstPage (m.space pf)+k) n :=
    mem_newUses_page.mpr ⟨rfl,by omega,by omega⟩
  obtain ⟨hnone,hsome⟩ := h.gains.new _ hmem
  obtain ⟨f,hf⟩ := Option.isSome_iff_exists.mp hsome
  have hset := h.gains.setup
  have hdir : ¬ m'.DirPage (m.space pf) (firstPage (m.space pf)+k+i) := by
    rw [Machine.dirPage_iff_congr hset]
    rintro ⟨hs,t,ht,hp⟩
    have hdir := (hrep.dir t ht).2
    rw [hp,← hs,hnone] at hdir
    contradiction
  have hs : m'.Reaches (m.space pf) := by
    rw [Machine.Reaches,Machine.runningThread_congr hset]
    exact m.reaches_space pf
  rw [hrep'.dataPages_page hs hf hdir]
  rfl

/-- Writes to new pages do not reach the old data. -/
theorem Gains.sameFrame (h : Gains m A N m' A') (hrep : PageRep m A F) (hrep' : PageRep m' A' F)
    {W : Set ℕ} {mem' : ByteMemory} (hW : ∀ v, v ∈ W → ∃ s, Use.page s v ∈ N ∧ m'.Reaches s)
    (ho : Only (m'.dataPages A') W m'.mem mem') {g : ℕ} (hg : m.DataFrame A g) :
    SameFrame m'.mem mem' g := by
  refine ho g fun v hv hvg => ?_
  obtain ⟨s,hs,hr⟩ := hW v hv
  obtain ⟨hnone,hsome⟩ := h.new _ hs
  obtain ⟨f,hf⟩ := Option.isSome_iff_exists.mp hsome
  have hdir : ¬ m'.DirPage s v := by
    rw [Machine.dirPage_iff_congr h.setup]
    rintro ⟨rfl,t,ht,rfl⟩
    have hd := (hrep.dir t ht).2
    rw [hnone] at hd
    contradiction
  have hvf := hrep'.dataPages_page hr hf hdir
  obtain rfl := Option.some.inj (hvf.symm.trans hvg)
  obtain hlow | ⟨s',w,hp,-⟩ := hg
  · have hle := hrep'.le_of_use hf
    unfold bootDir at hlow
    unfold firstPoolFrame at hle
    omega
  · have he := hrep'.inj _ _ _ (h.le hp) hf
    rw [he,hnone] at hp
    contradiction

/-- get_kernel_pages and get_user_pages: the new pages are filled with zeros. -/
theorem PageRep.getPages_runs (h : PageRep m A F) (hv : VaddrRep m A P) {func : String} :
    Runs (getPages pf func n) m
      (fun va m' => ∃ k A', va = 4096*(firstPage (m.space pf)+k) ∧ 0 < n ∧ PageRep m' A' F ∧
        VaddrRep m' A' P ∧ Gains m A (newUses A (m.space pf) (firstPage (m.space pf)+k) n) m' A' ∧
        ∀ i, i < n*pageSize → m'.data A' (va+i) = 0)
      (fun _ _ => True) := by
  refine Runs.bind ((lockAcquire_runs m pf).mono (fun _ _ hx => hx) fun _ _ _ => trivial) ?_
  rintro - _ ⟨l,rfl⟩
  have hrep₁ : PageRep (m.setLock pf l) A F := h.setLock
  refine Runs.bind ((hrep₁.mallocPage_runs hv.setLock).mono (fun _ _ hx => hx)
    fun _ _ _ => trivial) ?_
  rintro _ m₂ ⟨k,A',rfl,hh,hrep₂⟩
  have hspace : (m.setLock pf l).space pf = m.space pf := by cases pf <;> rfl
  have hvad₂ := hh.vaddrRep hv.setLock
  have hgain := hh.gains
  have hdata : ∀ {i}, i < n → _ := fun {i} hi => hh.dataPages hrep₁ hrep₂ hi
  have hn := hh.pos
  rw [hspace] at hgain hdata ⊢
  generalize hva : firstPage (m.space pf)+k = p at hgain hdata ⊢
  have hp : userStartPage ≤ p := by
    have hle : userStartPage ≤ firstPage (m.space pf) := by cases pf <;> simp [Machine.space,firstPage,userStartPage,kernelHeapPage]
    omega
  unfold userStartPage at hp
  have hne : 4096*p ≠ 0 := by omega
  rw [Runs,Exec.bind_of_ok (kassert_eq hne)]
  change Runs _ m₂ _ _
  generalize hW : ({ v | p ≤ v ∧ v < p+n } : Set ℕ) = W
  have hset : Acts m₂ (m₂.dataPages A') W (memset (4096*p) 0 (n*pageSize)) (m₂.data A') ()
      (fill (m₂.data A') (4096*p) (n*pageSize) 0) := by
    refine Acts.memset (hrep₂.window.mono (Set.subset_univ _)) hne fun i hi => ?_
    unfold pageSize at hi
    have hdiv : (4096*p+i)/4096 = p+i/4096 := by omega
    rw [hdiv,← hW]
    exact ⟨hdata (by omega),by omega,by omega⟩
  obtain ⟨mem',hrun,hrep₃,hview,ho⟩ := hrep₂.run_acts hset
  rw [Runs,Exec.bind_of_ok hrun]
  change Runs _ (m₂.setMem mem') _ _
  have hgain₃ : Gains m A (newUses A (m.space pf) p n) (m₂.setMem mem') A' := by
    refine hgain.of_setLock.setMem fun g hg => ?_
    refine hgain.sameFrame hrep₁ hrep₂ (W := W) (fun v hvW => ?_) ho ?_
    · rw [← hW] at hvW
      refine ⟨m.space pf,mem_newUses_page.mpr ⟨rfl,hvW.1,hvW.2⟩,?_⟩
      rw [Machine.Reaches,Machine.runningThread_congr hgain.setup]
      exact m.reaches_space pf
    · exact hg.mono (m.setLock_setup pf l) fun _ _ hp => hp
  refine Runs.bind ((lockRelease_runs _ pf).mono (fun _ _ hx => hx) fun _ _ _ => trivial) ?_
  rintro - _ ⟨l',rfl⟩
  refine ⟨k,A',by rw [hva],hn,hrep₃.setLock,?_,hva ▸ hgain₃.setLock,fun i hi => ?_⟩
  · exact ⟨hvad₂.bits,hvad₂.userStart,hvad₂.userLen,hvad₂.kernelLen,hvad₂.pending⟩
  · change (m₂.setMem mem').data A' (4096*p+i) = 0
    rw [hview]
    exact fill_of_mem (by omega) (by omega)

/-- The bit that get_a_page sets. -/
theorem markPage_runs (h : PageRep m A F) (hv : VaddrRep m A P)
    (hin : m.InSpace (m.space pf) v) :
    Runs (markPage pf (4096*v)) m
      (fun _ m' => ∃ events, m' = { m.setVaddr pf ((m.vbitmap pf).setRange
        (v-firstPage (m.space pf)) true 1) with events := events })
      (fun _ _ => True) := by
  have hlt := hin.lt h.toLayout
  unfold recursivePage at hlt
  have hoff := pageOffset_page (h.vaddrStart_eq hv hin) hin.firstPage_le (by omega)
  generalize v-firstPage (m.space pf) = k at hoff ⊢
  have he : markPage pf (4096*v) m = (if (m.task m.runningThread).pgdir ≠ 0 ∧ pf = .user then do
      kassert (0 < pageOffset (4096*v) (m.task m.runningThread).userprogVaddr.vaddrStart)
        "get_a_page" "bit_idx > 0"
      modify fun m' => m'.setUserprogVaddr ((m.task m.runningThread).userprogVaddr.vaddrBitmap.bitmapSet
        (pageOffset (4096*v) (m.task m.runningThread).userprogVaddr.vaddrStart) true)
    else if (m.task m.runningThread).pgdir = 0 ∧ pf = .kernel then do
      kassert (0 < pageOffset (4096*v) m.kernelVaddr.vaddrStart) "get_a_page" "bit_idx > 0"
      note .vaddrSet .kernel
      modify fun m' => m'.setKernelVaddr (m'.kernelVaddr.vaddrBitmap.bitmapSet
        (pageOffset (4096*v) m.kernelVaddr.vaddrStart) true)
    else throw (.panic "get_a_page"
      "get_a_page:not allow kernel alloc userspace or user alloc kernelspace by get_a_page") :
      KernelM Unit) m := by
    rfl
  have hassert : ∀ {c : Prop} [Decidable c] {func text : String},
      Runs (kassert c func text) m (fun _ m' => m' = m) (fun _ _ => True) := by
    intro c _ func text
    unfold kassert OsKernel.assert
    split
    · exact rfl
    · trivial
  rw [Runs,he]
  change Runs _ m _ _
  split_ifs with h₁ h₂
  · obtain ⟨-,rfl⟩ := h₁
    change pageOffset (4096*v) (m.task m.runningThread).userprogVaddr.vaddrStart = _ at hoff
    rw [hoff]
    apply Runs.bind hassert
    rintro - m' rfl
    exact ⟨m'.events,rfl⟩
  · obtain ⟨-,rfl⟩ := h₂
    change pageOffset (4096*v) m.kernelVaddr.vaddrStart = _ at hoff
    rw [hoff]
    refine Runs.bind hassert ?_
    rintro - _ rfl
    exact ⟨_,rfl⟩
  · trivial

/-- get_a_page gives one page a frame. -/
theorem PageRep.getAPage_runs (h : PageRep m A F) (hv : VaddrRep m A P)
    (hin : m.InSpace (m.space pf) v) :
    Runs (getAPage pf (4096*v)) m
      (fun va m' => ∃ A', va = 4096*v ∧ PageRep m' A' F ∧ VaddrRep m' A' (P \ {(m.space pf,v)}) ∧
        Gains m A (newUses A (m.space pf) v 1) m' A')
      (fun _ _ => True) := by
  refine Runs.bind ((lockAcquire_runs m pf).mono (fun _ _ hx => hx) fun _ _ _ => trivial) ?_
  rintro - _ ⟨l,rfl⟩
  have hrep₁ : PageRep (m.setLock pf l) A F := h.setLock
  have hspace : (m.setLock pf l).space pf = m.space pf := by cases pf <;> rfl
  have hin₁ : (m.setLock pf l).InSpace ((m.setLock pf l).space pf) v := by
    rw [hspace,Machine.inSpace_congr (m.setLock_setup pf l)]
    exact hin
  generalize hm₁ : m.setLock pf l = m₁ at hrep₁ hspace hin₁
  have hv₁ : VaddrRep m₁ A P := hm₁ ▸ hv.setLock
  refine Runs.bind ((markPage_runs hrep₁ hv₁ hin₁).mono (fun _ _ hx => hx) fun _ _ _ => trivial) ?_
  rintro - _ ⟨events,rfl⟩
  have hlen : ((m₁.vbitmap pf).setRange (v-firstPage (m₁.space pf)) true 1).btmpBytesLen =
      (m₁.vbitmap pf).btmpBytesLen := Bitmap.setRange_btmpBytesLen _ _ _ _
  generalize hb : (m₁.vbitmap pf).setRange (v-firstPage (m₁.space pf)) true 1 = btmp at hlen
  have hrep₂ : PageRep { m₁.setVaddr pf btmp with events := events } A F :=
    (hrep₁.setVaddr hlen).congr rfl rfl fun _ _ => rfl
  have hset₂ : ({ m₁.setVaddr pf btmp with events := events } : Machine).setup = m₁.setup :=
    Machine.setVaddr_setup hlen
  have hspace₂ : ({ m₁.setVaddr pf btmp with events := events } : Machine).space pf = m.space pf := by
    rw [Machine.space_congr hset₂,hspace]
  refine Runs.bind (hrep₂.palloc_runs.mono (fun _ _ hx => hx) fun _ _ _ => trivial) ?_
  rintro _ m₃ ⟨f,rfl,hf,hp,hrep₃,hrest,hmem,hfree⟩
  have hset₃ := (Machine.setup_of_rest hrest).trans hset₂
  have hf0 : 4096*f ≠ 0 := by
    have hle := hrep₂.le_of_inPool hp
    unfold firstPoolFrame at hle
    omega
  rw [if_neg hf0]
  have hpool : (Use.page (m.space pf) v).pool = pf := m.pool_space pf v
  refine Runs.bind ((hrep₃.pageTableAdd_runs hf (s := m.space pf) (v := v) ?_ ?_ ?_).mono
    (fun _ _ hx => hx) fun _ _ _ => trivial) ?_
  · rw [Machine.inSpace_congr hset₃,← hspace]
    exact hin₁
  · rw [← hspace,← Machine.space_congr hset₃]
    exact m₃.reaches_space pf
  · rw [hpool]
    exact (Machine.inPool_congr (Machine.setup_of_rest hrest) pf f).mpr hp
  rintro - m₄ ⟨A',hrep₄,hadd⟩
  have hgrow : Grow (m₁.setVaddr pf btmp) A (newUses A (m.space pf) v 1) m₄ A' := by
    have hg := hadd.grow hrest hmem (by rw [hpool]; exact hfree)
    exact ⟨hg.rest,hg.new,hg.old,hg.free,hg.data⟩
  have hgain : Gains m A (newUses A (m.space pf) v 1) m₄ A' := by
    rw [← hm₁] at hgrow hlen
    exact (Gains.of_grow hlen hgrow).of_setLock
  have hrange : ∀ w, (m.space pf,w) ∈ pageRange (m.space pf) (v-firstPage (m.space pf)) 1 ↔
      w = v := by
    intro w
    have hle := hin.firstPage_le
    simp only [pageRange,Set.mem_ofPred_eq,true_and]
    omega
  have hmid : VaddrRep (m₁.setVaddr pf btmp) A (P ∪ {(m.space pf,v)}) := by
    rw [← hb,hspace]
    refine hv₁.setRange true (fun s' w hx => ?_) fun w hx => ?_
    · have hne : (s',w) ≠ (m.space pf,v) := by
        rintro he
        obtain ⟨rfl,rfl⟩ := Prod.mk.inj he
        rw [hspace] at hx
        exact hx ((hrange w).mpr rfl)
      simp only [Set.mem_union,Set.mem_singleton_iff,hne,or_false]
    · rw [hspace] at hx ⊢
      obtain rfl := (hrange w).mp hx
      simp [hadd.absent]
  have hv₄ : VaddrRep m₄ A' (P \ {(m.space pf,v)}) := by
    have hset := Machine.setup_of_rest hgrow.rest
    refine hmid.congr (fun s => ?_) (Machine.isProc_congr hset)
      (Machine.runningThread_congr hset) (fun s w => ?_) fun s w hx => ?_
    · cases s with
      | none => exact Machine.kernelVaddr_of_rest hgrow.rest
      | some t => exact congrArg (fun g => (g t).userprogVaddr) (Machine.task_of_rest hgrow.rest)
    · by_cases hx : (s,w) = (m.space pf,v)
      · obtain ⟨rfl,rfl⟩ := Prod.mk.inj hx
        simp [hadd.page]
      · have hold := hgrow.old (.page s w) fun hc => by
          obtain ⟨rfl,h₁,h₂⟩ := mem_newUses_page.mp hc
          exact hx (by rw [show w = v by omega])
        simp [hold,hx]
    · have hold := hgrow.old (.page s w) fun hc => by
        obtain ⟨rfl,h₁,h₂⟩ := mem_newUses_page.mp hc
        exact hx.2 (by rw [show w = v by omega]; rfl)
      rw [hold]
      exact hv.pending s w hx.1
  refine Runs.bind ((lockRelease_runs m₄ pf).mono (fun _ _ hx => hx) fun _ _ _ => trivial) ?_
  rintro - _ ⟨l',rfl⟩
  exact ⟨A',rfl,hrep₄.setLock,hv₄.setLock,hgain.setLock⟩

end Gains
end OsKernel

import OsKernel.Memory.PageGrow

/-! The bitmaps of virtual addresses, and malloc_page as a whole. The call succeeds exactly when
the scan finds a range and each pool has a frame for every new page and page table. -/
namespace OsKernel
open Paging ByteMemory Exec KernelM

/-- The bitmap that vaddr_get uses for a pool gets a new value. -/
def Machine.setVaddr (m : Machine) (pf : PoolFlags) (btmp : Bitmap) : Machine :=
  match pf with
  | .kernel => m.setKernelVaddr btmp
  | .user => m.setUserprogVaddr btmp

/-- The bitmap that vaddr_get scans for a pool. -/
def Machine.vbitmap (m : Machine) (pf : PoolFlags) : Bitmap := (m.vaddr (m.space pf)).vaddrBitmap

section SetVaddr
variable {m m' : Machine} {A A' : FrameMap} {F : Set ℕ} {P P' : Set (Option TaskId × ℕ)}
  {pf : PoolFlags} {btmp : Bitmap} {s : Option TaskId} {v k n : ℕ}

theorem Machine.setVaddr_vaddr (m : Machine) (pf : PoolFlags) (btmp : Bitmap)
    (s : Option TaskId) : (m.setVaddr pf btmp).vaddr s =
      if s = m.space pf then { m.vaddr s with vaddrBitmap := btmp } else m.vaddr s := by
  cases pf <;> cases s
  · rfl
  · rfl
  · rfl
  · rename_i t
    by_cases ht : t = m.runningThread
    · subst ht
      simp [setVaddr,setUserprogVaddr,vaddr,space]
    · simp [setVaddr,setUserprogVaddr,vaddr,space,ht]

theorem Machine.setVaddr_isProc (t : TaskId) : (m.setVaddr pf btmp).IsProc t ↔ m.IsProc t := by
  cases pf
  · rfl
  · by_cases ht : t = m.runningThread
    · subst ht
      simp [setVaddr,setUserprogVaddr,IsProc]
    · simp [setVaddr,setUserprogVaddr,IsProc,ht]

theorem Machine.setVaddr_setup (h : btmp.btmpBytesLen = (m.vbitmap pf).btmpBytesLen) :
    (m.setVaddr pf btmp).setup = m.setup := by
  cases pf with
  | kernel =>
    change btmp.btmpBytesLen = m.kernelVaddr.vaddrBitmap.btmpBytesLen at h
    simp only [setVaddr,setKernelVaddr,setup,h]
  | user =>
    have htask : (m.setUserprogVaddr btmp).setup.task = m.setup.task := by
      funext t
      by_cases ht : t = m.runningThread
      · subst ht
        change btmp.btmpBytesLen =
          (m.task m.runningThread).userprogVaddr.vaddrBitmap.btmpBytesLen at h
        simp [setup,setUserprogVaddr,h]
      · simp [setup,setUserprogVaddr,ht]
    exact congrArg (fun f => { m.setup with task := f }) htask

theorem Machine.setVaddr_pool (m : Machine) (pf : PoolFlags) (btmp : Bitmap) :
    (m.setVaddr pf btmp).pool = m.pool := by cases pf <;> rfl

theorem Machine.setVaddr_mem (m : Machine) (pf : PoolFlags) (btmp : Bitmap) :
    (m.setVaddr pf btmp).mem = m.mem := by cases pf <;> rfl

theorem Machine.setVaddr_runningThread (m : Machine) (pf : PoolFlags) (btmp : Bitmap) :
    (m.setVaddr pf btmp).runningThread = m.runningThread := by cases pf <;> rfl

theorem Machine.setVaddr_tlb (m : Machine) (pf : PoolFlags) (btmp : Bitmap) :
    (m.setVaddr pf btmp).tlb = m.tlb := by cases pf <;> rfl

theorem PageRep.setVaddr (h : PageRep m A F)
    (hl : btmp.btmpBytesLen = (m.vbitmap pf).btmpBytesLen) :
    PageRep (m.setVaddr pf btmp) A F :=
  h.congr (Machine.setVaddr_setup hl) (m.setVaddr_mem pf btmp) fun pf' i => by
    rw [Machine.bit,Machine.bit,m.setVaddr_pool]

/-- The length of the bitmap of a process. -/
theorem VaddrRep.isProc_of_lt (hv : VaddrRep m A P)
    (hk : k < 8*(m.task m.runningThread).userprogVaddr.vaddrBitmap.btmpBytesLen) :
    m.IsProc m.runningThread := by
  by_contra hp
  have hlen := hv.kernelLen hp
  omega

/-- The pages that a bitmap covers. -/
theorem VaddrRep.inSpace (hv : VaddrRep m A P) (hs : m.Reaches s)
    (hk : k < 8*(m.vaddr s).vaddrBitmap.btmpBytesLen) : m.InSpace s (firstPage s+k) := by
  obtain rfl | rfl := hs
  · exact ⟨Nat.le_add_right _ _,by unfold firstPage; exact Nat.add_lt_add_left hk _⟩
  · have ht := hv.isProc_of_lt hk
    have hlen := hv.userLen _ ht
    change k < 8*(m.task m.runningThread).userprogVaddr.vaddrBitmap.btmpBytesLen at hk
    refine ⟨ht,Nat.le_add_right _ _,?_⟩
    simp only [firstPage,userStartPage,kernelHalf]
    omega

/-- The same bitmaps, while pages move between the map and the marked ones. -/
theorem VaddrRep.congr (hv : VaddrRep m A P) (hvad : ∀ s, m'.vaddr s = m.vaddr s)
    (hproc : ∀ t, m'.IsProc t ↔ m.IsProc t) (hrun : m'.runningThread = m.runningThread)
    (hpages : ∀ s v, (A' (.page s v)).isSome ∨ (s,v) ∈ P' ↔ (A (.page s v)).isSome ∨ (s,v) ∈ P)
    (hpend : ∀ s v, (s,v) ∈ P' → A' (.page s v) = none) : VaddrRep m' A' P' := by
  refine ⟨fun s k hk => ?_,fun t ht => ?_,fun t ht => ?_,fun ht => ?_,hpend⟩
  · rw [hvad] at hk ⊢
    rw [hpages]
    exact hv.bits s k hk
  · have he := hvad (some t)
    simp only [Machine.vaddr] at he
    rw [he]
    exact hv.userStart t ((hproc t).mp ht)
  · have he := hvad (some t)
    simp only [Machine.vaddr] at he
    rw [he]
    exact hv.userLen t ((hproc t).mp ht)
  · have he := hvad (some m.runningThread)
    simp only [Machine.vaddr] at he
    rw [hrun] at ht ⊢
    rw [he]
    exact hv.kernelLen fun hc => ht ((hproc _).mpr hc)

/-- The n pages from position k of an address space on. -/
def pageRange (s : Option TaskId) (k n : ℕ) : Set (Option TaskId × ℕ) :=
  { x | x.1 = s ∧ firstPage s+k ≤ x.2 ∧ x.2 < firstPage s+k+n }

/-- The positions of a range get a new value. -/
theorem VaddrRep.setRange (hv : VaddrRep m A P) (value : Bool)
    (hP : ∀ s' v, (s',v) ∉ pageRange (m.space pf) k n → ((s',v) ∈ P' ↔ (s',v) ∈ P))
    (hin : ∀ v, (m.space pf,v) ∈ pageRange (m.space pf) k n →
      (value = true ↔ (m.space pf,v) ∈ P') ∧ A (.page (m.space pf) v) = none) :
    VaddrRep (m.setVaddr pf ((m.vbitmap pf).setRange k value n)) A P' := by
  have hlen : ∀ t, ((m.setVaddr pf ((m.vbitmap pf).setRange k value n)).task
      t).userprogVaddr.vaddrBitmap.btmpBytesLen =
        (m.task t).userprogVaddr.vaddrBitmap.btmpBytesLen := by
    intro t
    have he := m.setVaddr_vaddr pf ((m.vbitmap pf).setRange k value n) (some t)
    change ((m.setVaddr pf _).vaddr (some t)).vaddrBitmap.btmpBytesLen = _
    rw [he]
    split
    · rename_i hs
      rw [Bitmap.setRange_btmpBytesLen,Machine.vbitmap,← hs]
      rfl
    · rfl
  refine ⟨fun s i hi => ?_,fun t ht => ?_,fun t ht => ?_,fun ht => ?_,fun s v hsv => ?_⟩
  · rw [Machine.setVaddr_vaddr] at hi ⊢
    split at hi
    · rename_i hs
      subst hs
      rw [if_pos rfl]
      rw [show ({ m.vaddr (m.space pf) with
        vaddrBitmap := (m.vbitmap pf).setRange k value n } : VirtualAddr).vaddrBitmap =
        (m.vbitmap pf).setRange k value n from rfl] at hi ⊢
      rw [Bitmap.setRange_btmpBytesLen] at hi
      rw [Bitmap.bitmapScanTest_setRange]
      by_cases hr : k ≤ i ∧ i < k+n
      · obtain ⟨hval,hnone⟩ := hin (firstPage (m.space pf)+i) ⟨rfl,by omega,by omega⟩
        rw [if_pos hr,hval,hnone]
        simp
      · have hnot : (m.space pf,firstPage (m.space pf)+i) ∉ pageRange (m.space pf) k n := by
          rintro ⟨-,h₁,h₂⟩
          dsimp only at h₁ h₂
          omega
        rw [if_neg hr,hP _ _ hnot]
        exact hv.bits _ i hi
    · rename_i hs
      rw [if_neg hs,hP _ _ fun hx => hs hx.1]
      exact hv.bits s i hi
  · have ht' := Machine.setVaddr_isProc t |>.mp ht
    have he := m.setVaddr_vaddr pf ((m.vbitmap pf).setRange k value n) (some t)
    rw [← hv.userStart t ht']
    change ((m.setVaddr pf _).vaddr (some t)).vaddrStart = _
    rw [he]
    split <;> rfl
  · rw [hlen]
    exact hv.userLen t ((Machine.setVaddr_isProc t).mp ht)
  · rw [m.setVaddr_runningThread] at ht ⊢
    rw [hlen]
    exact hv.kernelLen fun hc => ht ((Machine.setVaddr_isProc _).mpr hc)
  · by_cases hx : (s,v) ∈ pageRange (m.space pf) k n
    · obtain rfl : s = m.space pf := hx.1
      exact (hin v hx).2
    · exact hv.pending s v ((hP s v hx).mp hsv)

end SetVaddr

/-- malloc_page finds a range of pages and enough frames. -/
def Machine.Fits (m : Machine) (A : FrameMap) (pf : PoolFlags) (n : ℕ) : Prop :=
  0 < n ∧ n < 3840 ∧ ∃ k, (m.vbitmap pf).bitmapScan n = some k ∧
    ∀ pf', ((newUses A (m.space pf) (firstPage (m.space pf)+k) n).filter
      fun x => x.pool = pf').card ≤ m.free pf'

/-- malloc_page has handed out the n pages from position k on. -/
structure Handed (m : Machine) (A : FrameMap) (pf : PoolFlags) (k n : ℕ) (m' : Machine)
    (A' : FrameMap) : Prop where
  pos : 0 < n
  lt : n < 3840
  scan : (m.vbitmap pf).bitmapScan n = some k
  grow : Grow (m.setVaddr pf ((m.vbitmap pf).setRange k true n)) A
    (newUses A (m.space pf) (firstPage (m.space pf)+k) n) m' A'

/-- bitmap_scan finds the ranges one after the other, where each is marked before the next scan. -/
def Bitmap.Serves (btmp : Bitmap) : List ℕ → Prop
  | [] => True
  | n::ns => ∃ k, btmp.bitmapScan n = some k ∧ (btmp.setRange k true n).Serves ns

/-- The kernel has the addresses and the frames for the ranges of pages. -/
def Machine.RoomFor (m : Machine) (ns : List ℕ) : Prop :=
  m.kernelVaddr.vaddrBitmap.Serves ns ∧ ns.sum ≤ m.free .kernel

/-- First fit packs the ranges one behind the other. -/
theorem Bitmap.serves_of_filled {btmp : Bitmap} {a : ℕ} {l : List ℕ}
    (hset : ∀ i < a, btmp.bitmapScanTest i = true)
    (hclear : ∀ i, a ≤ i → btmp.bitmapScanTest i = false) (hpos : ∀ n ∈ l, 0 < n)
    (hlen : a+l.sum < btmp.btmpBytesLen) : btmp.Serves l := by
  induction l generalizing btmp a with
  | nil => trivial
  | cons n l ih =>
    have hn := hpos n List.mem_cons_self
    rw [List.sum_cons] at hlen
    refine ⟨a,(btmp.bitmapScan_eq_some_iff n hn a).mpr ⟨by omega,fun i _ => hclear _ (by omega),
      fun j hj hc => ?_⟩,ih (a := a+n) (fun i hi => ?_) (fun i hi => ?_)
        (fun k hk => hpos k (List.mem_cons_of_mem n hk)) ?_⟩
    · have hbit := hc 0 hn
      rw [Nat.add_zero,hset j hj] at hbit
      contradiction
    · rw [Bitmap.bitmapScanTest_setRange]
      split_ifs with hr
      · rfl
      · exact hset i (by omega)
    · rw [Bitmap.bitmapScanTest_setRange,if_neg (by omega)]
      exact hclear i (by omega)
    · rw [Bitmap.setRange_btmpBytesLen]
      omega

/-- The kernel has room for any ranges of k pages in all. -/
def Machine.Roomy (m : Machine) (k : ℕ) : Prop :=
  ∀ l : List ℕ, (∀ n ∈ l, 0 < n) → l.sum ≤ k → m.RoomFor l

/-- A call that takes at most n pages of the kernel, if it takes them from the kernel. -/
def Machine.LeavesRoom (m : Machine) (pf : PoolFlags) (n : ℕ) (m' : Machine) : Prop :=
  pf = .kernel → ∀ k, m.Roomy (n+k) → m'.Roomy k

section MallocPage
variable {m m' : Machine} {A A' : FrameMap} {F : Set ℕ} {P : Set (Option TaskId × ℕ)}
  {pf : PoolFlags} {k n : ℕ}

theorem Machine.setVaddr_free (m : Machine) (pf : PoolFlags) (btmp : Bitmap) (pf' : PoolFlags) :
    (m.setVaddr pf btmp).free pf' = m.free pf' := by
  rw [Machine.free,m.setVaddr_pool]
  rfl

theorem Handed.fits (h : Handed m A pf k n m' A') : m.Fits A pf n := by
  refine ⟨h.pos,h.lt,k,h.scan,fun pf' => ?_⟩
  have hf := h.grow.free pf'
  rw [Machine.setVaddr_free] at hf
  omega

/-- Where a scan of a bitmap of virtual addresses can end. -/
theorem VaddrRep.scan (hv : VaddrRep m A P) (hn : 0 < n)
    (hs : (m.vbitmap pf).bitmapScan n = some k) :
    k+n < (m.vbitmap pf).btmpBytesLen ∧ ∀ i, i < n →
      m.InSpace (m.space pf) (firstPage (m.space pf)+k+i) ∧
      A (.page (m.space pf) (firstPage (m.space pf)+k+i)) = none ∧
      (m.space pf,firstPage (m.space pf)+k+i) ∉ P := by
  obtain ⟨hlt,hclear,-⟩ := ((m.vbitmap pf).bitmapScan_eq_some_iff n hn k).mp hs
  refine ⟨hlt,fun i hi => ?_⟩
  have hlen : k+i < 8*(m.vaddr (m.space pf)).vaddrBitmap.btmpBytesLen := by
    change k+i < 8*(m.vbitmap pf).btmpBytesLen
    omega
  have hbit : (m.vaddr (m.space pf)).vaddrBitmap.bitmapScanTest (k+i) = false := hclear i hi
  have hb := hv.bits (m.space pf) (k+i) hlen
  rw [hbit,← Nat.add_assoc] at hb
  have hin := hv.inSpace (m.reaches_space pf) hlen
  rw [← Nat.add_assoc] at hin
  simp only [Bool.false_eq_true,false_iff,not_or,Bool.not_eq_true,Option.isSome_eq_false_iff,
    Option.isNone_iff_eq_none] at hb
  exact ⟨hin,hb⟩

/-- What vaddr_get does for the kernel: it notes the scan, and marks the range that it finds. -/
theorem vaddrGet_kernel_eq : vaddrGet .kernel n m =
    (match (m.vbitmap .kernel).bitmapScan n with
      | none => throw (.assert "vaddr_get" "bits_idx_start!=-1")
      | some k => do
        note .vaddrSet .kernel
        modify fun m => m.setKernelVaddr (m.kernelVaddr.vaddrBitmap.setRange k true n)
        return m.kernelVaddr.vaddrStart+k*pageSize : KernelM ℕ) (m.note .vaddrScan .kernel) := rfl

theorem vaddrGet_user_eq : vaddrGet .user n m = (match (m.vbitmap .user).bitmapScan n with
    | none => return 0
    | some k => do
      modify fun m' => m'.setUserprogVaddr ((m.vbitmap .user).setRange k true n)
      kassert ((m.task m.runningThread).userprogVaddr.vaddrStart+k*pageSize <
        0xc0000000-pageSize) "vaddr_get" "(uint32_t)vaddr_start<(0xc0000000-PG_SIZE)"
      return (m.task m.runningThread).userprogVaddr.vaddrStart+k*pageSize : KernelM ℕ) m := rfl

/-- vaddr_get marks the range that it has found. -/
theorem vaddrGet_runs (h : PageRep m A F) (hv : VaddrRep m A P) (hn : 0 < n) :
    Runs (vaddrGet pf n) m
      (fun va m' => va = 0 ∧ (m.vbitmap pf).bitmapScan n = none ∨
        ∃ k events, (m.vbitmap pf).bitmapScan n = some k ∧
          va = 4096*(firstPage (m.space pf)+k) ∧
          m' = { m.setVaddr pf ((m.vbitmap pf).setRange k true n) with events := events })
      (fun _ _ => (m.vbitmap pf).bitmapScan n = none) := by
  cases hs : (m.vbitmap pf).bitmapScan n with
  | none =>
    cases pf with
    | kernel =>
      have he : vaddrGet .kernel n m =
          (.error (.assert "vaddr_get" "bits_idx_start!=-1"),m.note .vaddrScan .kernel) := by
        rw [vaddrGet_kernel_eq,hs]
        rfl
      rw [Runs,he]
    | user =>
      have he : vaddrGet .user n m = (.ok 0,m) := by
        rw [vaddrGet_user_eq,hs]
        rfl
      rw [Runs,he]
      exact .inl ⟨rfl,rfl⟩
  | some k =>
    obtain ⟨hlt,-⟩ := hv.scan hn hs
    cases pf with
    | kernel =>
      have he : vaddrGet .kernel n m = (.ok (m.kernelVaddr.vaddrStart+k*pageSize),
          ((m.note .vaddrScan .kernel).note .vaddrSet .kernel).setKernelVaddr
            ((m.vbitmap .kernel).setRange k true n)) := by
        rw [vaddrGet_kernel_eq,hs]
        rfl
      rw [Runs,he]
      refine .inr ⟨k,_,rfl,?_,rfl⟩
      rw [h.vaddrStart]
      simp only [kHeapStart,pageSize,Machine.space,firstPage,kernelHeapPage]
      omega
    | user =>
      change k+n < (m.task m.runningThread).userprogVaddr.vaddrBitmap.btmpBytesLen at hlt
      have hproc : m.IsProc m.runningThread := hv.isProc_of_lt (k := k) (by omega)
      have hlen := hv.userLen _ hproc
      have hstart := hv.userStart _ hproc
      have hva : (m.task m.runningThread).userprogVaddr.vaddrStart+k*pageSize =
          4096*(userStartPage+k) := by
        rw [hstart]
        simp only [userVaddrStart,pageSize,userStartPage]
        omega
      have hbound : 4096*(userStartPage+k) < 0xc0000000-pageSize := by
        simp only [userStartPage,pageSize]
        omega
      have he : vaddrGet .user n m = (.ok (4096*(userStartPage+k)),
          m.setUserprogVaddr ((m.vbitmap .user).setRange k true n)) := by
        rw [vaddrGet_user_eq,hs]
        dsimp only
        rw [hva,Exec.bind_of_ok (show Exec.modify _ m = (.ok (),m.setUserprogVaddr _) from rfl),
          Exec.bind_of_ok (kassert_eq hbound)]
        rfl
      rw [Runs,he]
      exact .inr ⟨k,_,rfl,rfl,rfl⟩

theorem mem_newUses_page {s s' : Option TaskId} {v w : ℕ} :
    Use.page s' w ∈ newUses A s v n ↔ s' = s ∧ v ≤ w ∧ w < v+n := by
  rw [mem_newUses,mem_newPages]
  constructor
  · rintro (⟨u,h₁,h₂,h₃⟩ | hx)
    · obtain ⟨rfl,rfl⟩ := Use.page.inj h₃
      exact ⟨rfl,h₁,h₂⟩
    · obtain ⟨t,u,-,-,-,hx,-⟩ := mem_newTables.mp hx
      simp at hx
  · rintro ⟨rfl,h₁,h₂⟩
    exact .inl ⟨w,h₁,h₂,rfl⟩

/-- The new pages are the marked ones. -/
theorem Handed.vaddrRep (hh : Handed m A pf k n m' A') (hv : VaddrRep m A P) :
    VaddrRep m' A' P := by
  obtain ⟨-,hscan⟩ := hv.scan hh.pos hh.scan
  have hrange : ∀ v, (m.space pf,v) ∈ pageRange (m.space pf) k n →
      A (.page (m.space pf) v) = none ∧ (m.space pf,v) ∉ P := by
    rintro v ⟨-,h₁,h₂⟩
    dsimp only at h₁ h₂
    have hs := (hscan (v-(firstPage (m.space pf)+k)) (by omega)).2
    rwa [show firstPage (m.space pf)+k+(v-(firstPage (m.space pf)+k)) = v by omega] at hs
  have hmid : VaddrRep (m.setVaddr pf ((m.vbitmap pf).setRange k true n)) A
      (P ∪ pageRange (m.space pf) k n) := by
    refine hv.setRange true (fun s' v hx => ?_) fun v hx => ⟨?_,(hrange v hx).1⟩
    · simp [hx]
    · simp [hx]
  have hset := Machine.setup_of_rest hh.grow.rest
  refine hmid.congr (fun s => ?_) (Machine.isProc_congr hset)
    (Machine.runningThread_congr hset) (fun s v => ?_) fun s v hx => ?_
  · cases s with
    | none => exact Machine.kernelVaddr_of_rest hh.grow.rest
    | some t => exact congrArg (fun f => (f t).userprogVaddr) (Machine.task_of_rest hh.grow.rest)
  · have hmem : Use.page s v ∈ newUses A (m.space pf) (firstPage (m.space pf)+k) n ↔
        (s,v) ∈ pageRange (m.space pf) k n := mem_newUses_page
    by_cases hx : (s,v) ∈ pageRange (m.space pf) k n
    · simp [hx,(hh.grow.new _ (hmem.mpr hx)).2]
    · rw [hh.grow.old _ fun hc => hx (hmem.mp hc)]
      simp [hx]
  · have hnot : Use.page s v ∉ newUses A (m.space pf) (firstPage (m.space pf)+k) n := by
      intro hc
      obtain ⟨rfl,h₁,h₂⟩ := mem_newUses_page.mp hc
      exact (hrange v ⟨rfl,h₁,h₂⟩).2 hx
    rw [hh.grow.old _ hnot]
    exact hv.pending s v hx

/-- The specification of malloc_page. -/
theorem PageRep.mallocPage_runs (h : PageRep m A F) (hv : VaddrRep m A P) :
    Runs (mallocPage pf n) m
      (fun va m' => ∃ k A', va = 4096*(firstPage (m.space pf)+k) ∧ Handed m A pf k n m' A' ∧
        PageRep m' A' F)
      (fun _ _ => ¬ m.Fits A pf n) := by
  by_cases hn : 0 < n ∧ n < 3840
  swap
  · have he : mallocPage pf n m = (.error (.assert "malloc_page" "pg_cnt>0&&pg_cnt<3840"),m) := by
      rw [mallocPage,kassert,OsKernel.assert,if_neg hn]
      rfl
    rw [Runs,he]
    exact fun hf => hn ⟨hf.1,hf.2.1⟩
  rw [mallocPage,Runs,Exec.bind_of_ok (kassert_eq hn)]
  change Runs _ m _ _
  apply Runs.bind ((vaddrGet_runs h hv hn.1).mono (fun _ _ hx => hx) ?_)
  · rintro _ m₁ (⟨rfl,hs⟩ | ⟨k,events,hs,rfl,rfl⟩)
    · change ¬ m.Fits A pf n
      rintro ⟨-,-,k,hk,-⟩
      simp [hs] at hk
    · obtain ⟨-,hscan⟩ := hv.scan hn.1 hs
      have hne : 4096*(firstPage (m.space pf)+k) ≠ 0 := by
        cases pf <;> simp only [Machine.space,firstPage,kernelHeapPage,userStartPage] <;> omega
      have hlen : ((m.vbitmap pf).setRange k true n).btmpBytesLen =
          (m.vbitmap pf).btmpBytesLen := Bitmap.setRange_btmpBytesLen _ _ _ _
      have hrep : PageRep { m.setVaddr pf ((m.vbitmap pf).setRange k true n) with
          events := events } A F := (h.setVaddr hlen).congr rfl rfl fun _ _ => rfl
      have hsp : ({ m.setVaddr pf ((m.vbitmap pf).setRange k true n) with
          events := events } : Machine).space pf = m.space pf := by
        cases pf <;> rfl
      rw [Runs,Exec.bind_of_ok (kassert_eq hne)]
      change Runs _ _ _ _
      apply Runs.bind ((hrep.mapPages_runs (n := n) (v := firstPage (m.space pf)+k) fun i hi => by
        rw [hsp,Machine.inSpace_congr (show ({ m.setVaddr pf _ with events := events } :
          Machine).setup = m.setup from Machine.setVaddr_setup hlen)]
        exact (hscan i hi).1).mono (fun _ _ hx => hx) ?_)
      · rintro _ m₂ ⟨A',hrep',hgrow⟩
        rw [hsp] at hgrow
        exact ⟨k,A',rfl,⟨hn.1,hn.2,hs,hgrow.rest,hgrow.new,hgrow.old,hgrow.free,hgrow.data⟩,hrep'⟩
      · rintro _ m₂ ⟨-,hfail⟩
        rintro ⟨-,-,k',hk',hfits⟩
        obtain rfl := Option.some.inj (hs.symm.trans hk')
        rw [hsp] at hfail
        obtain ⟨i,hi,hsome⟩ | ⟨pf',hlt⟩ := hfail
        · simp [(hscan i hi).2.1] at hsome
        · have hle := hfits pf'
          change (m.setVaddr pf _).free pf' < _ at hlt
          rw [Machine.setVaddr_free] at hlt
          omega
  · rintro _ m₁ hs ⟨-,-,k,hk,-⟩
    simp [hs] at hk

/-- Kernel pages need no page tables. -/
theorem card_newUses_kernel (A : FrameMap) (v n : ℕ) (pf : PoolFlags) :
    ((newUses A none v n).filter fun x => x.pool = pf).card = if pf = .kernel then n else 0 := by
  have htables : newTables A none v n = ∅ := by
    apply Finset.eq_empty_of_forall_notMem
    intro x hx
    obtain ⟨t,-,ht,-⟩ := mem_newTables.mp hx
    exact Option.some_ne_none t ht.symm
  have hpool : ∀ x ∈ newPages none v n, x.pool = .kernel := by
    intro x hx
    obtain ⟨w,-,-,rfl⟩ := mem_newPages.mp hx
    rfl
  rw [newUses,htables,Finset.union_empty]
  split_ifs with hpf
  · rw [Finset.filter_true_of_mem fun x hx => (hpool x hx).trans hpf.symm,newPages,
      Finset.card_image_of_injective _ fun a b h => (Use.page.inj h).2,Nat.card_Ico]
    omega
  · rw [Finset.filter_false_of_mem fun x hx he => hpf (he.symm.trans (hpool x hx)),
      Finset.card_empty]

/-- malloc_page for the kernel. -/
theorem Machine.fits_kernel (h₁ : 0 < n) (h₂ : n < 3840) : m.Fits A .kernel n ↔
    (∃ k, m.kernelVaddr.vaddrBitmap.bitmapScan n = some k) ∧ n ≤ m.free .kernel := by
  unfold Machine.Fits
  simp only [h₁,h₂,true_and,show m.space .kernel = none from rfl,card_newUses_kernel]
  constructor
  · rintro ⟨k,hk,hfree⟩
    exact ⟨⟨k,hk⟩,by simpa using hfree .kernel⟩
  · rintro ⟨⟨k,hk⟩,hfree⟩
    refine ⟨k,hk,fun pf => ?_⟩
    split_ifs with hpf
    · rwa [hpf]
    · exact Nat.zero_le _

/-- A range that malloc_page hands out for the kernel uses up its room. -/
theorem Handed.roomFor (h : Handed m A .kernel k n m' A') (ns : List ℕ) :
    m.RoomFor (n::ns) ↔ m'.RoomFor ns := by
  have hfree := h.grow.free .kernel
  rw [show m.space .kernel = none from rfl,card_newUses_kernel,if_pos rfl,
    Machine.setVaddr_free] at hfree
  have hbtmp : m'.kernelVaddr.vaddrBitmap = m.kernelVaddr.vaddrBitmap.setRange k true n :=
    congrArg VirtualAddr.vaddrBitmap (Machine.kernelVaddr_of_rest h.grow.rest)
  have hscan : m.kernelVaddr.vaddrBitmap.bitmapScan n = some k := h.scan
  unfold Machine.RoomFor
  rw [hbtmp,List.sum_cons]
  constructor
  · rintro ⟨⟨k',hk',hserves⟩,hsum⟩
    obtain rfl := Option.some.inj (hscan.symm.trans hk')
    exact ⟨hserves,by omega⟩
  · rintro ⟨hserves,hsum⟩
    exact ⟨⟨k,hscan,hserves⟩,by omega⟩

theorem Handed.leavesRoom (h : Handed m A pf k n m' A') : m.LeavesRoom pf n m' := by
  rintro rfl j hroom l hpos hsum
  refine (h.roomFor l).mp (hroom (n::l) (List.forall_mem_cons.mpr ⟨h.pos,hpos⟩) ?_)
  rw [List.sum_cons]
  omega

theorem Machine.Roomy.mono {j : ℕ} (h : m.Roomy k) (hle : j ≤ k) : m.Roomy j :=
  fun l hpos hsum => h l hpos (hsum.trans hle)

theorem Machine.Roomy.fits {A : FrameMap} (h : m.Roomy k) (hn : 0 < n) (hlt : n < 3840)
    (hle : n ≤ k) : m.Fits A .kernel n := by
  obtain ⟨⟨i,hi,-⟩,hsum⟩ := h [n] (by simpa using hn) (by simpa using hle)
  exact (Machine.fits_kernel hn hlt).mpr ⟨⟨i,hi⟩,by simpa using hsum⟩

end MallocPage
end OsKernel

import OsKernel.Memory.PageThreads

/-! The state that the loader and mem_pool_init leave represents the empty map, provided that no
page of the kernel heap is mapped. -/
namespace OsKernel
open Paging ByteMemory Exec KernelM

section Loops
variable {mem : ByteMemory} {n f j : ℕ}

theorem createPte_word (hn : n ≤ 1024) (hj : j < 1024) : word (createPte mem n) f j =
    if f = 0x101 ∧ j < n then 4096*j+7 else word mem f j := by
  induction n with
  | zero => rw [if_neg (by omega)]; rfl
  | succ n ih =>
    have ha : pageDirTablePos+0x1000+4*n = 4096*0x101+4*n := rfl
    rw [createPte,ha,tableEntry_frame]
    by_cases he : f = 0x101 ∧ j = n
    · obtain ⟨rfl,rfl⟩ := he
      rw [word_store32_self (by omega),if_pos ⟨rfl,by omega⟩]
    · rw [word_store32_of_ne (by omega) hj he,ih (by omega)]
      by_cases hc : f = 0x101 ∧ j < n
      · rw [if_pos hc,if_pos ⟨hc.1,by omega⟩]
      · rw [if_neg hc,if_neg (by omega)]

theorem createKernelPde_word (hn : n ≤ 254) (hj : j < 1024) : word (createKernelPde mem n) f j =
    if f = bootDir ∧ 769 ≤ j ∧ j < 769+n then 4096*(0x102+(j-769))+7 else word mem f j := by
  induction n with
  | zero => rw [if_neg (by omega)]; rfl
  | succ n ih =>
    have ha : pageDirTablePos+4*(769+n) = 4096*bootDir+4*(769+n) := rfl
    have he : pageDirTablePos+0x2000+0x1000*n = 4096*(0x102+n) := by
      unfold pageDirTablePos
      omega
    rw [createKernelPde,ha,he,tableEntry_frame]
    by_cases he : f = bootDir ∧ j = 769+n
    · obtain ⟨rfl,rfl⟩ := he
      rw [word_store32_self (by omega),if_pos ⟨rfl,by omega⟩]
      omega
    · rw [word_store32_of_ne (by omega) hj he,ih (by omega)]
      by_cases hc : f = bootDir ∧ 769 ≤ j ∧ j < 769+n
      · rw [if_pos hc,if_pos ⟨hc.1,by omega⟩]
      · rw [if_neg hc,if_neg (by omega)]

end Loops

section SetupPage
variable {mem : ByteMemory} {i j : ℕ}

/-- The entries of the kernel half. -/
theorem setupPage_kernel (h₁ : 768 ≤ i) (h₂ : i < 1023) :
    word (setupPage mem) bootDir i = 4096*(0x101+(i-768))+7 := by
  rw [setupPage,createKernelPde_word (by decide) (by omega)]
  split_ifs with hc
  · omega
  · obtain rfl : i = 768 := by omega
    have ha : pageDirTablePos+4092 = 4096*bootDir+4*1023 := rfl
    have hb : pageDirTablePos+0xc00 = 4096*bootDir+4*768 := rfl
    have he : pageDirTablePos+0x1000 = 4096*0x101 := rfl
    rw [createPte_word (by decide) (by decide),if_neg (by unfold bootDir; omega),ha,
      word_store32_of_ne (by decide) (by decide) (by omega),hb,he,tableEntry_frame,
      word_store32_self (by decide)]

/-- The first entry is that of the kernel. -/
theorem setupPage_first : word (setupPage mem) bootDir 0 = 4096*0x101+7 := by
  have ha : pageDirTablePos+4092 = 4096*bootDir+4*1023 := rfl
  have hb : pageDirTablePos+0xc00 = 4096*bootDir+4*768 := rfl
  have hc : pageDirTablePos+0x1000 = 4096*0x101 := rfl
  rw [setupPage,createKernelPde_word (by decide) (by decide),if_neg (by omega),
    createPte_word (by decide) (by decide),if_neg (by unfold bootDir; omega),ha,
    word_store32_of_ne (by decide) (by decide) (by omega),hb,
    word_store32_of_ne (by decide) (by decide) (by omega),hc,tableEntry_frame]
  change word (store32 _ (4096*bootDir+4*0) _) bootDir 0 = _
  rw [word_store32_self (by decide)]

/-- The others below the kernel half are cleared. -/
theorem setupPage_user (h₁ : 1 ≤ i) (h₂ : i < 768) : word (setupPage mem) bootDir i = 0 := by
  have ha : pageDirTablePos+4092 = 4096*bootDir+4*1023 := rfl
  have hb : pageDirTablePos+0xc00 = 4096*bootDir+4*768 := rfl
  rw [setupPage,createKernelPde_word (by decide) (by omega),if_neg (by omega),
    createPte_word (by decide) (by omega),if_neg (by unfold bootDir; omega),ha,
    word_store32_of_ne (by decide) (by omega) (by omega),hb,
    word_store32_of_ne (by decide) (by omega) (by omega)]
  change word (store32 (fill mem (4096*bootDir) 4096 0) (4096*bootDir+4*0) _) bootDir i = 0
  rw [word_store32_of_ne (by decide) (by omega) (by omega),word_fill_self (by omega)]

/-- The directory points to itself. -/
theorem setupPage_self : word (setupPage mem) bootDir 1023 = 4096*bootDir+7 := by
  have ha : pageDirTablePos+4092 = 4096*bootDir+4*1023 := rfl
  have he : pageDirTablePos = 4096*bootDir := rfl
  rw [setupPage,createKernelPde_word (by decide) (by decide),if_neg (by omega),
    createPte_word (by decide) (by decide),if_neg (by unfold bootDir; omega),ha]
  change word (store32 _ (4096*bootDir+4*1023) (tableEntry pageDirTablePos)) bootDir 1023 = _
  rw [he,tableEntry_frame,word_store32_self (by decide)]

/-- The first megabyte is mapped to itself. -/
theorem setupPage_low (hj : j < 256) : word (setupPage mem) 0x101 j = 4096*j+7 := by
  rw [setupPage,createKernelPde_word (by decide) (by omega),if_neg (by unfold bootDir; omega),
    createPte_word (by decide) (by omega),if_pos ⟨rfl,hj⟩]

/-- The page tables keep what was in memory. -/
theorem setupPage_other {f : ℕ} (hf : 0x102 ≤ f ∨ f = 0x101 ∧ 256 ≤ j) (hj : j < 1024) :
    word (setupPage mem) f j = word mem f j := by
  have ha : pageDirTablePos+4092 = 4096*bootDir+4*1023 := rfl
  have hb : pageDirTablePos+0xc00 = 4096*bootDir+4*768 := rfl
  have hc : pageDirTablePos = 4096*bootDir+4*0 := rfl
  rw [setupPage,createKernelPde_word (by decide) hj,if_neg (by unfold bootDir; omega),
    createPte_word (by decide) hj,if_neg (by omega),ha,
    word_store32_of_ne (by decide) hj (by unfold bootDir; omega),hb,
    word_store32_of_ne (by decide) hj (by unfold bootDir; omega)]
  change word (store32 (fill mem pageDirTablePos 4096 0) (4096*bootDir+4*0) _) f j = _
  rw [word_store32_of_ne (by decide) hj (by unfold bootDir; omega)]
  exact load32_fill_of_disjoint (by unfold pageDirTablePos; omega)

end SetupPage

/-- The state that mem_pool_init leaves. -/
def bootedMachine (allMem : ℕ) (mem : ByteMemory) (kBlockDesc : ℕ) : Machine :=
  (memPoolInit allMem (bootMachine mem kBlockDesc)).2

/-- No page of the kernel heap is mapped. -/
def HeapUnmapped (m : Machine) : Prop :=
  ∀ v, kernelHeapPage ≤ v → v < recursivePage → lookup m.mem (m.cr3/pageSize) v = none

section Boot
variable {allMem : ℕ} {mem : ByteMemory} {kBlockDesc : ℕ}

theorem bootedMachine_isProc (t : TaskId) :
    ¬ (bootedMachine allMem mem kBlockDesc).IsProc t := not_not.mpr rfl

theorem bitmapScanTest_zero (len k : ℕ) : (⟨len,fun _ => 0⟩ : Bitmap).bitmapScanTest k = false := by
  simp [Bitmap.bitmapScanTest]

/-- The ranges of the pools and of the bitmaps. -/
theorem bootedMachine_layout : Layout (bootedMachine allMem mem kBlockDesc) := by
  generalize hpages : (allMem+2^32-(pageSize*256+0x100000)) % 2^32/pageSize % 2^16 = pages
  have hlt : pages < 2^16 := by
    rw [← hpages]
    exact Nat.mod_lt _ (by decide)
  have hkernel : (bootedMachine allMem mem kBlockDesc).pool .kernel =
      ⟨⟨pages/2/8,fun _ => 0⟩,0x200000,pages/2*pageSize,⟨none,0⟩⟩ := by
    rw [← hpages]
    rfl
  have huser : (bootedMachine allMem mem kBlockDesc).pool .user =
      ⟨⟨(pages-pages/2)/8,fun _ => 0⟩,0x200000+pages/2*pageSize,(pages-pages/2)*pageSize,
        ⟨none,0⟩⟩ := by
    rw [← hpages]
    rfl
  have hkv : (bootedMachine allMem mem kBlockDesc).kernelVaddr =
      ⟨⟨pages/2/8,fun _ => 0⟩,kHeapStart⟩ := by
    rw [← hpages]
    rfl
  have hstart : (bootedMachine allMem mem kBlockDesc).start .user = 0x200+pages/2 := by
    rw [Machine.start,huser]
    change (0x200000+pages/2*pageSize)/pageSize = _
    unfold pageSize
    omega
  refine ⟨?_,?_,?_,?_,?_,?_⟩
  · rw [hkernel]
    rfl
  · rw [hstart,huser]
    change 0x200000+pages/2*pageSize = _
    unfold pageSize
    omega
  · rw [hstart,Machine.len,hkernel]
    change firstPoolFrame+8*(pages/2/8) ≤ _
    unfold firstPoolFrame
    omega
  · rw [hstart,Machine.len,huser]
    change 0x200+pages/2+8*((pages-pages/2)/8) ≤ _
    omega
  · rw [hkv]
  · rw [hkv]
    change 8*(pages/2/8) ≤ _
    omega

/-- The empty map. -/
def FrameMap.empty : FrameMap := fun _ => none

theorem bootedMachine_bit (pf : PoolFlags) (i : ℕ) :
    (bootedMachine allMem mem kBlockDesc).bit pf i = false := by
  cases pf <;> exact bitmapScanTest_zero _ i

theorem bootedMachine_pageRep (hu : HeapUnmapped (bootedMachine allMem mem kBlockDesc)) :
    PageRep (bootedMachine allMem mem kBlockDesc) FrameMap.empty ∅ := by
  have hdir : ∀ {t d}, (bootedMachine allMem mem kBlockDesc).dirOf FrameMap.empty t = some d →
      d = bootDir := by
    intro t d hd
    rw [Machine.dirOf_of_not_proc (bootedMachine_isProc t)] at hd
    exact (Option.some.inj hd).symm
  have hkernel : ∀ i, 768 ≤ i → i < 1023 →
      target (word (setupPage mem) bootDir i) = some (0x101+(i-768)) := by
    intro i h₁ h₂
    rw [setupPage_kernel h₁ h₂,target_entry]
  refine .mk' bootedMachine_layout
    ⟨by simp [FrameMap.empty],by simp,by simp [FrameMap.empty],by simp,fun pf i _ => ?_⟩
    ⟨by simp [FrameMap.empty],by simp [FrameMap.empty],by simp [FrameMap.empty],
      fun t ht => absurd ht (bootedMachine_isProc t),
      fun t _ ht => absurd ht (bootedMachine_isProc t)⟩
    ⟨fun g i o hs => ?_,fun d i hd h₁ h₂ => ?_,bootDir,
      Machine.dirOf_of_not_proc (bootedMachine_isProc _),rfl⟩
  · rw [bootedMachine_bit]
    simp [FrameMap.empty]
  · change target (word (setupPage mem) g i) = o
    cases hs with
    | low hj => rw [setupPage_low hj,target_entry]
    | @kernelPte v h₁ h₂ =>
      have hl := hu v h₁ h₂
      have hc : (bootedMachine allMem mem kBlockDesc).cr3/pageSize = bootDir := by
        change pageDirTablePos/pageSize = bootDir
        decide
      have hm : (bootedMachine allMem mem kBlockDesc).mem = setupPage mem := rfl
      rw [hc,hm] at hl
      unfold kernelHeapPage at h₁
      unfold recursivePage at h₂
      rw [lookup,hkernel _ (by omega) (by omega),Option.bind_some] at hl
      rw [kernelTable_eq]
      exact hl
    | kernelPde hd h₁ h₂ =>
      rw [hdir hd]
      exact hkernel _ h₁ h₂
    | self hd => rw [hdir hd,setupPage_self,target_entry]
    | pde ht hd hi => exact absurd ht (bootedMachine_isProc _)
    | pte hf hj => simp [FrameMap.empty] at hf
  · obtain rfl | ⟨t,ht,-⟩ := hd
    · exact setupPage_kernel h₁ h₂
    · exact absurd ht (bootedMachine_isProc t)

theorem bootedMachine_vaddrRep :
    VaddrRep (bootedMachine allMem mem kBlockDesc) FrameMap.empty ∅ := by
  refine ⟨fun s k _ => ?_,fun t ht => absurd ht (bootedMachine_isProc t),
    fun t ht => absurd ht (bootedMachine_isProc t),fun _ => rfl,by simp⟩
  have hb : ((bootedMachine allMem mem kBlockDesc).vaddr s).vaddrBitmap.bitmapScanTest k =
      false := by
    cases s <;> exact bitmapScanTest_zero _ k
  rw [hb]
  simp [FrameMap.empty]

end Boot
end OsKernel

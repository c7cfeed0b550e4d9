import OsKernel.Memory.PageAlloc
import OsKernel.Memory.Process
import Mathlib.Order.Interval.Finset.Nat

/-! The addresses and lengths that mem_pool_init computes, with its 16-bit page counts and 32-bit
addresses: what they keep apart for every size of the memory, and how much of the memory the
pools leave out. -/
namespace OsKernel
open Exec KernelM

@[irreducible] def memBitmapBase : ℕ := 0xc009a000

theorem memBitmapBase_eq : memBitmapBase = 0xc009a000 := by
  unfold memBitmapBase
  rfl

/-- The physical addresses and the bitmaps that mem_pool_init fills in. -/
structure PoolLayout where
  phyAddrStart : PoolFlags → ℕ
  poolSize : PoolFlags → ℕ
  btmpBytesLen : PoolFlags → ℕ
  bits : PoolFlags → ℕ
  vaddrBtmpBytesLen : ℕ
  vaddrBits : ℕ

def memPoolLayout (allMem : ℕ) : PoolLayout :=
  let pageTableSize := pageSize*256
  let usedMem := pageTableSize+0x100000
  let freeMem := (allMem+2^32-usedMem) % 2^32
  let allFreePages := freeMem/pageSize % 2^16
  let kernelFreePages := allFreePages/2 % 2^16
  let userFreePages := (allFreePages-kernelFreePages) % 2^16
  let kernelBitmapLength := kernelFreePages/8
  let userBitmapLength := userFreePages/8
  let kernelPoolStart := usedMem
  let userPoolStart := (usedMem+kernelFreePages*pageSize) % 2^32
  { phyAddrStart := fun
      | .kernel => kernelPoolStart
      | .user => userPoolStart
    poolSize := fun
      | .kernel => kernelFreePages*pageSize % 2^32
      | .user => userFreePages*pageSize % 2^32
    btmpBytesLen := fun
      | .kernel => kernelBitmapLength
      | .user => userBitmapLength
    bits := fun
      | .kernel => memBitmapBase
      | .user => (memBitmapBase+kernelBitmapLength) % 2^32
    vaddrBtmpBytesLen := kernelBitmapLength
    vaddrBits := (memBitmapBase+kernelBitmapLength+userBitmapLength) % 2^32 }

/-- The layout for a number of free pages, as plain arithmetic. -/
def pagesLayout (pages : ℕ) : PoolLayout where
  phyAddrStart
    | .kernel => 0x200000
    | .user => 0x200000+pages/2*pageSize
  poolSize
    | .kernel => pages/2*pageSize
    | .user => (pages-pages/2)*pageSize
  btmpBytesLen
    | .kernel => pages/2/8
    | .user => (pages-pages/2)/8
  bits
    | .kernel => memBitmapBase
    | .user => memBitmapBase+pages/2/8
  vaddrBtmpBytesLen := pages/2/8
  vaddrBits := memBitmapBase+pages/2/8+(pages-pages/2)/8

/-- The whole pages from 0x200000 on. -/
def freePages (allMem : ℕ) : ℕ := (allMem-0x200000)/pageSize

section Arithmetic
variable {allMem pages : ℕ}

/-- The three bitmaps end below the PCB of the main thread. -/
theorem memBitmapBase_add_lt (hp : pages < 2^16) :
    memBitmapBase+pages/2/8+(pages-pages/2)/8+pages/2/8 ≤ 0xc009e000 := by
  have hbase := memBitmapBase_eq
  omega

/-- The only narrowing that loses anything is that of the page count. -/
theorem memPoolLayout_eq (hlo : 0x200000 ≤ allMem) (hhi : allMem < 2^32) :
    memPoolLayout allMem = pagesLayout (freePages allMem % 2^16) := by
  have hfree : (allMem+2^32-(pageSize*256+0x100000)) % 2^32/pageSize = freePages allMem := by
    unfold freePages pageSize
    omega
  simp only [memPoolLayout,hfree]
  generalize hp : freePages allMem % 2^16 = pages
  have hlt : pages < 2^16 := by
    rw [← hp]
    exact Nat.mod_lt _ (by decide)
  have hk : pages/2 % 2^16 = pages/2 := Nat.mod_eq_of_lt (by omega)
  have hu : (pages-pages/2) % 2^16 = pages-pages/2 := Nat.mod_eq_of_lt (by omega)
  simp only [hk,hu,pagesLayout]
  have hks : pages/2*pageSize % 2^32 = pages/2*pageSize := by unfold pageSize; omega
  have hus : (pages-pages/2)*pageSize % 2^32 = (pages-pages/2)*pageSize := by
    unfold pageSize
    omega
  have hstart : (pageSize*256+0x100000+pages/2*pageSize) % 2^32 = 0x200000+pages/2*pageSize := by
    unfold pageSize
    omega
  have hend := memBitmapBase_add_lt hlt
  have hub : (memBitmapBase+pages/2/8) % 2^32 = memBitmapBase+pages/2/8 :=
    Nat.mod_eq_of_lt (by omega)
  have hvb : (memBitmapBase+pages/2/8+(pages-pages/2)/8) % 2^32 =
      memBitmapBase+pages/2/8+(pages-pages/2)/8 := Nat.mod_eq_of_lt (by omega)
  rw [hks,hus,hstart,hub,hvb]
  rfl

end Arithmetic

/-- The state has the pools of a layout. -/
structure Machine.HasLayout (m : Machine) (L : PoolLayout) : Prop where
  phyAddrStart : ∀ pf, (m.pool pf).phyAddrStart = L.phyAddrStart pf
  btmpBytesLen : ∀ pf, (m.pool pf).poolBitmap.btmpBytesLen = L.btmpBytesLen pf

namespace PoolLayout
variable (L : PoolLayout)

/-- The end of the addresses that the bits of a pool cover. -/
def phyAddrEnd (pf : PoolFlags) : ℕ := L.phyAddrStart pf+8*L.btmpBytesLen pf*pageSize

/-- The address lies in a frame that a bit of the pool stands for. -/
def Covers (pf : PoolFlags) (pa : ℕ) : Prop := L.phyAddrStart pf ≤ pa ∧ pa < L.phyAddrEnd pf

instance (pf : PoolFlags) (pa : ℕ) : Decidable (L.Covers pf pa) :=
  inferInstanceAs (Decidable (_ ∧ _))

/-- What the layout has to keep apart. -/
structure Safe (allMem : ℕ) : Prop where
  aligned : ∀ pf, L.phyAddrStart pf % pageSize = 0
  first : ∀ pf, 0x200000 ≤ L.phyAddrStart pf
  last : ∀ pf, L.phyAddrEnd pf ≤ allMem
  disjoint : ∀ pa, ¬ (L.Covers .kernel pa ∧ L.Covers .user pa)
  kernelBits : memBitmapBase ≤ L.bits .kernel
  userBits : L.bits .kernel+L.btmpBytesLen .kernel ≤ L.bits .user
  vaddrBits : L.bits .user+L.btmpBytesLen .user ≤ L.vaddrBits
  mainThread : L.vaddrBits+L.vaddrBtmpBytesLen ≤ 0xc009e000

/-- What pfree makes of the addresses in the ranges of the pools. -/
def PfreeExact : Prop := ∀ m : Machine, m.HasLayout L → ∀ pf idx, idx < 8*L.btmpBytesLen pf →
  pfree (L.phyAddrStart pf+idx*pageSize) m = (.ok (),
    (m.note .pfree pf).setBitmap pf ((m.pool pf).poolBitmap.bitmapSet idx false))

/-- palloc returns the address that stands for the bit it sets. -/
def PallocExact : Prop := ∀ m : Machine, m.HasLayout L → ∀ pf pa, (palloc pf m).1 = .ok pa →
  ∃ idx, idx < 8*L.btmpBytesLen pf ∧ pa = L.phyAddrStart pf+idx*pageSize ∧
    (palloc pf m).2 = (m.note .palloc pf).setBitmap pf
      ((m.pool pf).poolBitmap.bitmapSet idx true)

end PoolLayout

section Safe
variable {allMem pages : ℕ} {L : PoolLayout}

theorem pagesLayout_safe (hp : pages < 2^16) (hm : 0x200000+pages*pageSize ≤ allMem) :
    (pagesLayout pages).Safe allMem := by
  unfold pageSize at hm
  refine ⟨fun pf => ?_,fun pf => ?_,fun pf => ?_,fun pa => ?_,?_,?_,?_,?_⟩
  · cases pf
    · simp only [pagesLayout,pageSize]
    · simp only [pagesLayout,pageSize]
      omega
  · cases pf
    · exact Nat.le_refl _
    · exact Nat.le_add_right _ _
  · cases pf with
    | kernel =>
      have hle : 8*(pages/2/8) ≤ pages := by omega
      simp only [PoolLayout.phyAddrEnd,pagesLayout,pageSize]
      exact le_trans (Nat.add_le_add_left (Nat.mul_le_mul_right _ hle) _) hm
    | user =>
      simp only [PoolLayout.phyAddrEnd,pagesLayout,pageSize]
      omega
  · simp only [PoolLayout.Covers,PoolLayout.phyAddrEnd,pagesLayout,pageSize]
    omega
  · simp only [pagesLayout,le_refl]
  · simp only [pagesLayout,le_refl]
  · simp only [pagesLayout,le_refl]
  · exact memBitmapBase_add_lt hp

/-- The pool that pfree takes an address to belong to. -/
def Machine.poolOf (m : Machine) (pgPhyAddr : ℕ) : PoolFlags :=
  if (m.pool .user).phyAddrStart ≤ pgPhyAddr then .user else .kernel

theorem pfree_eq (m : Machine) (pa : ℕ) : pfree pa m = (.ok (),
    (m.note .pfree (m.poolOf pa)).setBitmap (m.poolOf pa) ((m.pool (m.poolOf pa)).poolBitmap.bitmapSet
      (pageOffset pa (m.pool (m.poolOf pa)).phyAddrStart) false)) := rfl

/-- pfree tells the pools apart by the start of the user pool. -/
theorem PoolLayout.Safe.pfreeExact (h : L.Safe allMem) (hm : allMem < 2^32)
    (hle : L.phyAddrEnd .kernel ≤ L.phyAddrStart .user) : L.PfreeExact := by
  intro m hl pf idx hidx
  have hend := h.last pf
  have hpool : m.poolOf (L.phyAddrStart pf+idx*pageSize) = pf := by
    rw [Machine.poolOf,hl.phyAddrStart]
    cases pf with
    | kernel =>
      unfold PoolLayout.phyAddrEnd pageSize at hle
      exact if_neg (by unfold pageSize; omega)
    | user => exact if_pos (Nat.le_add_right _ _)
  have hoff : pageOffset (L.phyAddrStart pf+idx*pageSize) (m.pool pf).phyAddrStart = idx := by
    rw [hl.phyAddrStart]
    unfold PoolLayout.phyAddrEnd at hend
    unfold pageOffset
    unfold pageSize at hend ⊢
    omega
  rw [pfree_eq,hpool,hoff]

theorem PoolLayout.pallocExact (L : PoolLayout) : L.PallocExact := by
  intro m hl pf pa h
  rw [palloc_eq] at h ⊢
  cases hs : (m.pool pf).poolBitmap.bitmapScan 1 with
  | none =>
    rw [hs] at h
    cases h
  | some idx =>
    rw [hs] at h
    obtain ⟨hlt,-⟩ := (Bitmap.bitmapScan_eq_some_iff _ 1 Nat.one_pos idx).mp hs
    rw [hl.btmpBytesLen] at hlt
    refine ⟨idx,by omega,?_,rfl⟩
    rw [← hl.phyAddrStart]
    exact (Except.ok.inj h).symm

theorem pagesLayout_phyAddrEnd :
    (pagesLayout pages).phyAddrEnd .kernel ≤ (pagesLayout pages).phyAddrStart .user := by
  simp only [PoolLayout.phyAddrEnd,pagesLayout,pageSize]
  omega

theorem memPoolInit_hasLayout (hlo : 0x200000 ≤ allMem) (hhi : allMem < 2^32) (m : Machine) :
    (memPoolInit allMem m).2.HasLayout (memPoolLayout allMem) := by
  have hfree : (allMem+2^32-(pageSize*256+0x100000)) % 2^32/pageSize = freePages allMem := by
    unfold freePages pageSize
    omega
  rw [memPoolLayout_eq hlo hhi]
  refine ⟨fun pf => ?_,fun pf => ?_⟩
  · rw [← hfree]
    cases pf <;> rfl
  · rw [← hfree]
    cases pf <;> rfl

theorem freePages_le (hlo : 0x200000 ≤ allMem) : 0x200000+freePages allMem*pageSize ≤ allMem := by
  unfold freePages pageSize
  omega

/-- The layout of the pools is safe for every size of the memory. -/
theorem memPoolInit_safe (hlo : 0x200000 ≤ allMem) (hhi : allMem < 2^32) (m : Machine) :
    ((memPoolInit allMem m).2.HasLayout (memPoolLayout allMem) ∧
      (memPoolInit allMem m).2.kernelVaddr.vaddrBitmap.btmpBytesLen =
        (memPoolLayout allMem).vaddrBtmpBytesLen) ∧
    (memPoolLayout allMem).Safe allMem ∧ (memPoolLayout allMem).PallocExact ∧
    (memPoolLayout allMem).PfreeExact := by
  have hlt : freePages allMem % 2^16 < 2^16 := Nat.mod_lt _ (by decide)
  have hsafe : (memPoolLayout allMem).Safe allMem := by
    rw [memPoolLayout_eq hlo hhi]
    refine pagesLayout_safe hlt (le_trans ?_ (freePages_le hlo))
    exact Nat.add_le_add_left (Nat.mul_le_mul_right _ (Nat.mod_le _ _)) _
  have hend : (memPoolLayout allMem).phyAddrEnd .kernel ≤
      (memPoolLayout allMem).phyAddrStart .user := by
    rw [memPoolLayout_eq hlo hhi]
    exact pagesLayout_phyAddrEnd
  refine ⟨⟨memPoolInit_hasLayout hlo hhi m,?_⟩,hsafe,PoolLayout.pallocExact _,
    hsafe.pfreeExact hhi hend⟩
  exact (memPoolInit_hasLayout hlo hhi m).btmpBytesLen .kernel

theorem memPoolInit_safe_small : 0x200000 ≤ 0x2000000 ∧ 0x2000000 < 2^32 ∧
    (memPoolLayout 0x2000000).Safe 0x2000000 :=
  ⟨by decide,by decide,(memPoolInit_safe (by decide) (by decide)
    (bootMachine (fun _ => 0) 0)).2.1⟩

end Safe

/-- The whole pages of the memory from 0x200000 on. -/
def wholePages (allMem : ℕ) : Finset ℕ := Finset.Ico 0x200 (allMem/pageSize)

namespace PoolLayout
variable (L : PoolLayout)

/-- The pages that no bit stands for. -/
def lostPages (allMem : ℕ) : Finset ℕ := (wholePages allMem).filter fun p =>
  ¬ L.Covers .kernel (p*pageSize) ∧ ¬ L.Covers .user (p*pageSize)

/-- The sizes of the pools differ by at most one page. -/
def Balanced : Prop :=
  L.poolSize .kernel ≤ L.poolSize .user+pageSize ∧ L.poolSize .user ≤ L.poolSize .kernel+pageSize

end PoolLayout

section Lost
variable {allMem pages : ℕ}

theorem pagesLayout_balanced : (pagesLayout pages).Balanced := by
  simp only [PoolLayout.Balanced,pagesLayout,pageSize]
  omega

theorem pagesLayout_covers_kernel {p : ℕ} : (pagesLayout pages).Covers .kernel (p*pageSize) ↔
    p ∈ Finset.Ico 0x200 (0x200+8*(pages/2/8)) := by
  simp only [PoolLayout.Covers,PoolLayout.phyAddrEnd,pagesLayout,pageSize,Finset.mem_Ico]
  omega

theorem pagesLayout_covers_user {p : ℕ} : (pagesLayout pages).Covers .user (p*pageSize) ↔
    p ∈ Finset.Ico (0x200+pages/2) (0x200+pages/2+8*((pages-pages/2)/8)) := by
  simp only [PoolLayout.Covers,PoolLayout.phyAddrEnd,pagesLayout,pageSize,Finset.mem_Ico]
  omega

/-- The pages that the pools leave out, counted. -/
theorem pagesLayout_lostPages (hp : pages ≤ freePages allMem) (hlo : 0x200000 ≤ allMem) :
    ((pagesLayout pages).lostPages allMem).card+8*(pages/2/8)+8*((pages-pages/2)/8) =
      freePages allMem := by
  have hfree : freePages allMem = allMem/pageSize-0x200 := by
    unfold freePages pageSize
    omega
  have hset : (pagesLayout pages).lostPages allMem = wholePages allMem \
      (Finset.Ico 0x200 (0x200+8*(pages/2/8)) ∪
        Finset.Ico (0x200+pages/2) (0x200+pages/2+8*((pages-pages/2)/8))) := by
    ext p
    simp only [PoolLayout.lostPages,Finset.mem_filter,Finset.mem_sdiff,Finset.mem_union,not_or,
      pagesLayout_covers_kernel,pagesLayout_covers_user]
  have hdis : Disjoint (Finset.Ico 0x200 (0x200+8*(pages/2/8)))
      (Finset.Ico (0x200+pages/2) (0x200+pages/2+8*((pages-pages/2)/8))) := by
    rw [Finset.disjoint_left]
    intro p h₁ h₂
    rw [Finset.mem_Ico] at h₁ h₂
    omega
  have hsub : Finset.Ico 0x200 (0x200+8*(pages/2/8)) ∪
      Finset.Ico (0x200+pages/2) (0x200+pages/2+8*((pages-pages/2)/8)) ⊆ wholePages allMem := by
    intro p h
    rw [Finset.mem_union,Finset.mem_Ico,Finset.mem_Ico] at h
    rw [wholePages,Finset.mem_Ico]
    omega
  have hcard := Finset.card_le_card hsub
  rw [hset,Finset.card_sdiff_of_subset hsub]
  rw [Finset.card_union_of_disjoint hdis] at hcard ⊢
  simp only [wholePages,Nat.card_Ico] at hcard ⊢
  omega

/-- No memory is lost exactly when the page count fits into its 16 bits. -/
theorem memPoolInit_lost_iff (hlo : 0x200000 ≤ allMem) (hhi : allMem ≤ 0x20000000) :
    ((memPoolLayout allMem).lostPages allMem).card < 16 ∧ (memPoolLayout allMem).Balanced ↔
      allMem < 0x10200000 := by
  rw [memPoolLayout_eq hlo (by omega)]
  have hlost := pagesLayout_lostPages (Nat.mod_le (freePages allMem) (2^16)) hlo
  have hiff : freePages allMem < 2^16 ↔ allMem < 0x10200000 := by
    unfold freePages pageSize
    omega
  rw [← hiff]
  constructor
  · rintro ⟨hlt,-⟩
    omega
  · intro hlt
    exact ⟨by omega,pagesLayout_balanced⟩

theorem memPoolInit_lost_iff_small : 0x200000 ≤ 0x2000000 ∧ 0x2000000 ≤ 0x20000000 ∧
    (((memPoolLayout 0x2000000).lostPages 0x2000000).card < 16 ∧
      (memPoolLayout 0x2000000).Balanced ↔ 0x2000000 < 0x10200000) :=
  ⟨by decide,by decide,memPoolInit_lost_iff (by decide) (by decide)⟩

/-- With 258 MB the page count is zero. -/
theorem memPoolInit_loses : ¬ ∀ allMem, 0x200000 ≤ allMem → allMem ≤ 0x20000000 →
    ((memPoolLayout allMem).lostPages allMem).card < 16 ∧ (memPoolLayout allMem).Balanced := by
  intro h
  obtain ⟨hlt,-⟩ := h 0x10200000 (by decide) (by decide)
  rw [memPoolLayout_eq (by decide) (by decide)] at hlt
  have hfree : freePages 0x10200000 = 2^16 := by
    unfold freePages pageSize
    norm_num
  have hlost := pagesLayout_lostPages (Nat.mod_le (freePages 0x10200000) (2^16)) (by decide)
  rw [hfree] at hlost hlt
  omega

end Lost
end OsKernel

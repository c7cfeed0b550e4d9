import OsKernel.Memory.PageCalls

/-! What malloc_page needs, read off the bitmaps and the active page directory. -/
namespace OsKernel
open Paging ByteMemory Exec KernelM

/-- The entries of the active page directory that are missing for the n pages from v on. -/
def Machine.lackingTables (m : Machine) (v n : ℕ) : Finset ℕ :=
  ((Finset.Ico v (v+n)).image fun w => w/1024).filter fun i =>
    target (word m.mem (m.cr3/pageSize) i) = none

/-- bitmap_scan finds n pages in a row, and the pools have a frame for each of them and for each
page table that is missing. -/
def Machine.HasPages (m : Machine) (pf : PoolFlags) (n : ℕ) : Prop :=
  0 < n ∧ n < 3840 ∧ ∃ k, (m.vbitmap pf).bitmapScan n = some k ∧ n ≤ m.free pf ∧
    (if pf = .kernel then n else 0)+(m.lackingTables (firstPage (m.space pf)+k) n).card ≤
      m.free .kernel

section HasPages
variable {m : Machine} {A : FrameMap} {F : Set ℕ} {P : Set (Option TaskId × ℕ)} {pf : PoolFlags}
  {t : TaskId} {v n : ℕ}

theorem mem_lackingTables {i : ℕ} : i ∈ m.lackingTables v n ↔
    ∃ w, v ≤ w ∧ w < v+n ∧ w/1024 = i ∧ target (word m.mem (m.cr3/pageSize) i) = none := by
  simp only [Machine.lackingTables,Finset.mem_filter,Finset.mem_image,Finset.mem_Ico]
  constructor
  · rintro ⟨⟨w,⟨h₁,h₂⟩,rfl⟩,hnone⟩
    exact ⟨w,h₁,h₂,rfl,hnone⟩
  · rintro ⟨w,h₁,h₂,rfl,hnone⟩
    exact ⟨⟨w,⟨h₁,h₂⟩,rfl⟩,hnone⟩

/-- No page table of the kernel is missing. -/
theorem PageRep.lackingTables_kernel (h : PageRep m A F)
    (hin : ∀ w, v ≤ w → w < v+n → m.InSpace none w) : m.lackingTables v n = ∅ := by
  refine Finset.eq_empty_of_forall_notMem fun i hi => ?_
  obtain ⟨w,h₁,h₂,rfl,hnone⟩ := mem_lackingTables.mp hi
  have hspace := hin w h₁ h₂
  have hle := hspace.1
  have hlt := hspace.lt h.toLayout
  unfold kernelHeapPage at hle
  unfold recursivePage at hlt
  obtain ⟨d,hd,hc⟩ := h.cr3_eq
  rw [hc,h.spec _ _ _ (.kernelPde hd (i := w/1024) (by omega) (by omega))] at hnone
  cases hnone

/-- The page tables of a process that are missing are those that malloc_page makes. -/
theorem PageRep.lackingTables_image (h : PageRep m A F) (ht : m.IsProc m.runningThread)
    (hlt : v+n ≤ kernelHalf) : newTables A (some m.runningThread) v n =
      (m.lackingTables v n).image (Use.table m.runningThread) := by
  obtain ⟨d,hd,hc⟩ := h.cr3_eq
  have hword {i : ℕ} (hi : i < 768) : target (word m.mem (m.cr3/pageSize) i) =
      A (.table m.runningThread i) := by rw [hc,h.spec _ _ _ (.pde ht hd hi)]
  unfold kernelHalf at hlt
  ext x
  rw [mem_newTables,Finset.mem_image]
  constructor
  · rintro ⟨t,w,ht,h₁,h₂,rfl,hnone⟩
    obtain rfl := Option.some.inj ht
    exact ⟨w/1024,mem_lackingTables.mpr ⟨w,h₁,h₂,rfl,(hword (by omega)).trans hnone⟩,rfl⟩
  · rintro ⟨i,hi,rfl⟩
    obtain ⟨w,h₁,h₂,rfl,hnone⟩ := mem_lackingTables.mp hi
    exact ⟨_,w,rfl,h₁,h₂,rfl,(hword (by omega)).symm.trans hnone⟩

/-- The frames that the pages of a process and their page tables take from each pool. -/
theorem card_newUses_user (A : FrameMap) (t : TaskId) (v n : ℕ) (pf : PoolFlags) :
    ((newUses A (some t) v n).filter fun x => x.pool = pf).card =
      if pf = .user then n else (newTables A (some t) v n).card := by
  have hpages : ∀ x ∈ newPages (some t) v n, x.pool = .user := by
    intro x hx
    obtain ⟨w,-,-,rfl⟩ := mem_newPages.mp hx
    rfl
  have htables : ∀ x ∈ newTables A (some t) v n, x.pool = .kernel := by
    intro x hx
    obtain ⟨u,w,-,-,-,rfl,-⟩ := mem_newTables.mp hx
    rfl
  rw [newUses,Finset.filter_union]
  cases pf with
  | kernel =>
    rw [Finset.filter_false_of_mem fun x hx => by simp [hpages x hx],
      Finset.filter_true_of_mem htables,Finset.empty_union]
    rfl
  | user =>
    rw [Finset.filter_true_of_mem hpages,
      Finset.filter_false_of_mem fun x hx => by simp [htables x hx],Finset.union_empty,newPages,
      Finset.card_image_of_injective _ fun a b h => (Use.page.inj h).2,Nat.card_Ico]
    simp

theorem PageRep.fits_iff (h : PageRep m A F) (hv : VaddrRep m A P) :
    m.Fits A pf n ↔ m.HasPages pf n := by
  refine and_congr_right fun hn => and_congr_right fun _ => exists_congr fun k =>
    and_congr_right fun hscan => ?_
  have hin {w : ℕ} (h₁ : firstPage (m.space pf)+k ≤ w) (h₂ : w < firstPage (m.space pf)+k+n) :
      m.InSpace (m.space pf) w := by
    have hw := ((hv.scan hn hscan).2 (w-(firstPage (m.space pf)+k)) (by omega)).1
    rwa [Nat.add_sub_cancel' h₁] at hw
  cases pf with
  | kernel =>
    simp only [show m.space .kernel = none from rfl,card_newUses_kernel] at hin ⊢
    rw [h.lackingTables_kernel fun w => hin,Finset.card_empty]
    constructor
    · intro hfree
      have hk : n ≤ m.free .kernel := hfree .kernel
      exact ⟨hk,hk⟩
    · rintro ⟨hk,-⟩ pf
      cases pf with
      | kernel => exact hk
      | user => exact Nat.zero_le _
  | user =>
    have hlast := hin (w := firstPage (m.space .user)+k+n-1) (by omega) (by omega)
    simp only [show m.space .user = some m.runningThread from rfl,card_newUses_user] at hin hlast ⊢
    rw [h.lackingTables_image hlast.1 (by have := hlast.2.2; omega),
      Finset.card_image_of_injective _ fun a b he => (Use.table.inj he).2]
    simp only [reduceCtorEq,if_false,Nat.zero_add]
    constructor
    · intro hfree
      exact ⟨hfree .user,hfree .kernel⟩
    · rintro ⟨hu,hk⟩ pf
      cases pf with
      | kernel => exact hk
      | user => exact hu

end HasPages
end OsKernel

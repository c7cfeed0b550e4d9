import OsKernel.Memory.PageSys

/-! What every run of the page allocator keeps: the bitmaps of virtual addresses, the page
directories and tables in memory and the bitmaps of the pools agree, and the kernel half of the
address space is common to all tasks. -/
namespace OsKernel
open Paging ByteMemory Exec KernelM

section Directories
variable {m : Machine} {A : FrameMap} {F : Set ℕ} {d v : ℕ}

theorem Tables.target_kernel (h : Tables m A) (hd : m.Dir A d) {i : ℕ} (h₁ : 768 ≤ i)
    (h₂ : i < 1023) : target (word m.mem d i) = some (0x101+(i-768)) := by
  rw [h.kernelWord d i hd h₁ h₂,target_entry]

/-- The kernel half is the same under every directory. -/
theorem Tables.lookup_dir (h : Tables m A) (hd : m.Dir A d) (h₁ : kernelHalf ≤ v)
    (h₂ : v < recursivePage) :
    lookup m.mem d v = target (word m.mem (kernelTable v) (v % 1024)) := by
  unfold kernelHalf at h₁
  unfold recursivePage at h₂
  rw [lookup,h.target_kernel hd (by omega) (by omega),Option.bind_some,kernelTable_eq]

end Directories

namespace PageSys

/-- The frame of the page directory of a thread. -/
def dir (s : PageSys) (t : TaskId) : ℕ := s.home t/pageSize

/-- The kernel half of the address space is common to all tasks, and page_dir_activate loads the
directory of the thread that it is called for. -/
structure KernelShared (s : PageSys) : Prop where
  pde : ∀ t, t ∈ s.threads → ∀ va, 0xc0000000 ≤ va → va < 0xffc00000 →
    word s.m.mem (s.dir t) (pdeIdx va) = word s.m.mem bootDir (pdeIdx va) ∧
      (target (word s.m.mem bootDir (pdeIdx va))).isSome
  mapped : ∀ t, t ∈ s.threads → ∀ va, 0xc0000000 ≤ va → va < 0xffc00000 →
    walk s.m.mem (s.dir t) va = walk s.m.mem bootDir va
  activate : ∀ t, t ∈ s.threads → pageDirActivate t s.m =
    (.ok (),{ s.m with cr3 := s.home t, tlb := fun _ => none })
  kernelHome : ∀ t, t ∈ s.threads → ¬ s.m.IsProc t → s.home t = 0x100000
  processHome : ∀ t, t ∈ s.threads → s.m.IsProc t →
    s.m.translate (s.m.task t).pgdir = some (s.home t)
  active : s.m.cr3 = s.home s.m.runningThread

section Meaning
variable {s : PageSys} {A : FrameMap} {space : Option TaskId} {t : TaskId} {v f i : ℕ}

theorem Inv.dir_eq (h : Inv s A) (ht : t ∈ s.threads) : s.m.dirOf A t = some (s.dir t) := by
  obtain ⟨d,hd,hh⟩ := h.home t ht
  rw [hd,dir,hh,Nat.mul_div_cancel_left _ (by decide)]

theorem Inv.home_eq (h : Inv s A) (ht : t ∈ s.threads) : s.home t = pageSize*s.dir t := by
  obtain ⟨d,-,hh⟩ := h.home t ht
  rw [dir,hh,Nat.mul_div_cancel_left _ (by decide)]

theorem Inv.kernelShared (h : Inv s A) : KernelShared s := by
  have hrep := h.pageRep
  have hdir : ∀ {t}, t ∈ s.threads → s.m.Dir A (s.dir t) :=
    fun ht => Machine.dir_of_dirOf (h.dir_eq ht)
  refine ⟨fun t ht va h₁ h₂ => ?_,fun t ht va h₁ h₂ => ?_,fun t ht => ?_,fun t ht hp => ?_,
    fun t ht hp => ?_,?_⟩
  · unfold pdeIdx
    rw [hrep.kernelWord _ _ (hdir ht) (by omega) (by omega),
      hrep.kernelWord _ _ (.inl rfl) (by omega) (by omega),target_entry]
    exact ⟨rfl,rfl⟩
  · rw [walk,walk,hrep.lookup_dir (hdir ht) (by unfold kernelHalf; omega)
      (by unfold recursivePage; omega),hrep.lookup_dir (.inl rfl) (by unfold kernelHalf; omega)
      (by unfold recursivePage; omega)]
  · rw [h.home_eq ht]
    exact hrep.pageDirActivate_eq (h.dir_eq ht)
  · have hd := h.dir_eq ht
    rw [Machine.dirOf_of_not_proc hp] at hd
    rw [h.home_eq ht,← Option.some.inj hd]
    rfl
  · have hd := h.dir_eq ht
    rw [Machine.dirOf_of_proc hp] at hd
    obtain ⟨d,hd',hc⟩ := hrep.cr3_eq
    have hin := hrep.inSpace hd
    have hpage : (s.m.task t).pgdir/4096 = s.m.dirPage t := rfl
    have hmod : (s.m.task t).pgdir % 4096 = 0 := by
      have hpg := (hrep.dir t hp).1
      unfold pageSize at hpg
      omega
    rw [h.home_eq ht,Machine.translate,hc,walk,hpage,
      hrep.lookup_kernel hd' hin.1 (hin.lt hrep.toLayout),hd,hmod]
    rfl
  · obtain ⟨d,hd,hc⟩ := hrep.cr3
    rw [h.dir_eq h.running] at hd
    rw [hc,h.home_eq h.running,Option.some.inj hd]

/-- A computer with 64 megabytes of memory, which is all zero when the loader starts. -/
def smallMachine : Machine := bootedMachine 0x4000000 (fun _ => 0) 0xc0002000

def smallComputer : PageSys := init 0x4000000 (fun _ => 0) 0xc0002000

/-- The tables that setup_page leaves unwritten are empty in a memory of zeros. -/
theorem heapUnmapped_zero : HeapUnmapped smallMachine := by
  intro v h₁ h₂
  unfold kernelHeapPage at h₁
  unfold recursivePage at h₂
  have hc : smallMachine.cr3/pageSize = bootDir := by decide
  have hm : smallMachine.mem = setupPage fun _ => 0 := rfl
  rw [hc,hm,lookup,setupPage_kernel (by omega) (by omega),target_entry,Option.bind_some,
    setupPage_other (by omega) (by omega)]
  rfl

theorem smallComputer_reachable : Reachable smallComputer :=
  ⟨_,_,_,heapUnmapped_zero,.refl⟩

/-- What the small computer has room for. -/
theorem smallComputer_room {l : List ℕ} (hpos : ∀ n ∈ l, 0 < n) (hsum : l.sum < 992) :
    smallComputer.m.RoomFor l := by
  have hbtmp : smallComputer.m.kernelVaddr.vaddrBitmap = ⟨992,fun _ => 0⟩ := rfl
  have hpool : (smallComputer.m.pool .kernel).poolBitmap = ⟨992,fun _ => 0⟩ := rfl
  constructor
  · rw [hbtmp]
    exact Bitmap.serves_of_filled (fun i hi => absurd hi (Nat.not_lt_zero i))
      (fun i _ => bitmapScanTest_zero 992 i) hpos (by rwa [Nat.zero_add])
  · have hfree : (⟨992,fun _ => 0⟩ : Bitmap).clearCount 0 991 = 991 :=
      (Bitmap.clearCount_eq_iff _ 0 991).mpr fun i _ => bitmapScanTest_zero 992 (0+i)
    rw [Machine.free,hpool]
    exact (Nat.le_of_lt_succ hsum).trans hfree.ge

/-- The state after a kernel page has been handed out. -/
def onePage : PageSys :=
  { smallComputer with
    m := (mallocPage .kernel 1 smallMachine).2
    live := smallComputer.live ∪ smallComputer.pages .kernel (0xc0100000/pageSize) 1 }

theorem onePage_mallocPage : (mallocPage .kernel 1 smallMachine).1 = .ok 0xc0100000 := by
  decide +kernel

theorem onePage_run : mallocPage .kernel 1 smallComputer.m =
    (.ok 0xc0100000,(mallocPage .kernel 1 smallMachine).2) := by
  have hm : smallComputer.m = smallMachine := rfl
  rw [hm]
  exact Exec.run_eq onePage_mallocPage

theorem onePage_step : Step smallComputer onePage := .mallocPage onePage_run

theorem onePage_reachable : Reachable onePage :=
  ⟨0x4000000,fun _ => 0,0xc0002000,heapUnmapped_zero,.single onePage_step⟩

end Meaning
end PageSys
end OsKernel

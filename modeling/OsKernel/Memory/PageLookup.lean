import OsKernel.Memory.Access
import OsKernel.Memory.PageEdits

/-! How the running thread reaches page directory entries, page table entries and data through
its own page tables. -/
namespace OsKernel
open Paging ByteMemory

/-- The running thread sees the pages of the space. -/
def Machine.Reaches (m : Machine) (s : Option TaskId) : Prop := s = none ∨ s = some m.runningThread

/-- A frame that holds data: of the first megabyte, or of a page that is no directory. -/
def Machine.DataFrame (m : Machine) (A : FrameMap) (g : ℕ) : Prop :=
  g < bootDir ∨ ∃ s v, A (.page s v) = some g ∧ ¬ m.DirPage s v

section Reach
variable {m : Machine} {A : FrameMap} {F : Set ℕ} {s : Option TaskId} {v d tab g : ℕ}

theorem Machine.InSpace.lt (hl : Layout m) (hv : m.InSpace s v) : v < recursivePage := by
  have hlen := hl.vaddrLen
  cases s with
  | none =>
    have h₂ := hv.2
    unfold kernelHeapPage at h₂
    unfold recursivePage
    omega
  | some t =>
    have h₂ := hv.2.2
    unfold kernelHalf at h₂
    unfold recursivePage
    omega

theorem ptePtr_page : ptePtr (4096*v) = 0xffc00000+4096*(v/1024)+4*(v % 1024) := by
  unfold ptePtr pdeIdx pteIdx
  omega

theorem pdePtr_page : pdePtr (4096*v) = 0xfffff000+4*(v/1024) := by
  unfold pdePtr pdeIdx
  omega

theorem PageRep.cr3_eq (h : PageRep m A F) :
    ∃ d, m.dirOf A m.runningThread = some d ∧ m.cr3/pageSize = d := by
  obtain ⟨d,hd,hc⟩ := h.cr3
  exact ⟨d,hd,by rw [hc,Nat.mul_div_cancel_left _ (by decide)]⟩

theorem PageRep.target_pde (h : PageRep m A F) (hd : m.dirOf A m.runningThread = some d)
    (hv : m.InSpace s v) (hs : m.Reaches s) :
    target (word m.mem d (v/1024)) = A.tableOf s v := by
  rcases hs with rfl | rfl
  · have h₁ := hv.1
    have h₂ := hv.lt h.toLayout
    have hl : 768 ≤ v/1024 := by
      unfold kernelHeapPage at h₁
      omega
    have hr : v/1024 < 1023 := by
      unfold recursivePage at h₂
      omega
    rw [h.spec _ _ _ (.kernelPde hd hl hr),FrameMap.tableOf,kernelTable_eq]
  · have h₂ := hv.2.2
    unfold kernelHalf at h₂
    exact h.spec _ _ _ (.pde hv.1 hd (by omega))

theorem PageRep.target_pte (h : PageRep m A F) (hv : m.InSpace s v)
    (htab : A.tableOf s v = some tab) : target (word m.mem tab (v % 1024)) = A (.page s v) := by
  cases s with
  | none =>
    rw [FrameMap.tableOf_kernel htab]
    exact h.spec _ _ _ (.kernelPte hv.1 (hv.lt h.toLayout))
  | some t =>
    have hspec := h.spec _ _ _ (.pte htab (Nat.mod_lt v (by decide)))
    rwa [Nat.div_add_mod] at hspec

theorem PageRep.translate_pde (h : PageRep m A F) (hd : m.dirOf A m.runningThread = some d)
    (hv : v < recursivePage) : m.translate (pdePtr (4096*v)) = some (4096*d+4*(v/1024)) := by
  obtain ⟨d',hd',hc⟩ := h.cr3_eq
  obtain rfl := Option.some.inj (hd.symm.trans hd')
  rw [Machine.translate,hc,pdePtr_page]
  unfold recursivePage at hv
  exact (h.selfMapped hd).walk_pde (by omega)

theorem PageRep.translate_pte (h : PageRep m A F) (hv : m.InSpace s v) (hs : m.Reaches s)
    (htab : A.tableOf s v = some tab) :
    m.translate (ptePtr (4096*v)) = some (4096*tab+4*(v % 1024)) := by
  obtain ⟨d,hd,hc⟩ := h.cr3_eq
  have hlt := hv.lt h.toLayout
  have htarget := h.target_pde hd hv hs
  rw [Machine.translate,hc,ptePtr_page]
  unfold recursivePage at hlt
  rw [(h.selfMapped hd).walk_pte (by omega) (Nat.mod_lt _ (by decide)),htarget,htab,
    Option.map_some]

/-- Data frames are no tables. -/
theorem PageRep.dataFrame_ne_table (h : PageRep m A F) (hg : m.DataFrame A g) :
    ¬ m.TableFrame A g := by
  have hlow : ∀ x, A x = some g → ¬ g < bootDir := by
    intro x hx
    have hle := h.le_of_use hx
    unfold firstPoolFrame at hle
    unfold bootDir
    omega
  have hdir : m.Dir A g → False := by
    intro hd
    rcases hg with hg | ⟨s,v,hp,hn⟩
    · have hc := h.dir_cases hd
      unfold firstPoolFrame at hc
      unfold bootDir at hc hg
      omega
    · obtain hb | ⟨t,ht,hd⟩ := hd
      · have hle := h.le_of_use hp
        unfold firstPoolFrame at hle
        unfold bootDir at hb
        omega
      · exact Machine.not_dirPage hn t ht (h.inj _ _ _ hd hp)
  have hboot : bootDir < g → g < firstPoolFrame → False := by
    intro h₁ h₂
    rcases hg with hg | ⟨s,v,hp,-⟩
    · omega
    · have hle := h.le_of_use hp
      omega
  rintro (⟨i,o,hi,hs⟩ | hd)
  · cases hs with
    | low hj => exact hboot (by decide) (by decide)
    | kernelPte h₁ h₂ =>
      refine hboot ?_ (kernelTable_lt h₂)
      unfold bootDir kernelTable
      omega
    | kernelPde hd h₁ h₂ => exact hdir (Machine.dir_of_dirOf hd)
    | self hd => exact hdir (Machine.dir_of_dirOf hd)
    | pde ht hd hi => exact hdir (Machine.dir_of_dirOf hd)
    | pte hf hj =>
      rcases hg with hg | ⟨s,v,hp,-⟩
      · exact hlow _ hf hg
      · have := h.inj _ _ _ hf hp
        contradiction
  · exact hdir hd

end Reach
end OsKernel

import OsKernel.Memory.PageFree

/-! The data that the running thread sees: the first megabyte, the pages of the kernel heap that
hold no directory, and the pages of its own process. No write to data changes a
translation, so that the data is a memory of its own. -/
namespace OsKernel
open Paging ByteMemory Exec KernelM

/-- The frames of the pages that hold data. -/
noncomputable def Machine.dataPages (m : Machine) (A : FrameMap) (v : ℕ) : Option ℕ :=
  open Classical in
  if kernelHalf ≤ v ∧ v < kernelHalf+256 then some (v-kernelHalf)
  else if kernelHeapPage ≤ v then if m.DirPage none v then none else A (.page none v)
  else A (.page (some m.runningThread) v)

section DataPages
variable {m m' : Machine} {A A' : FrameMap} {F : Set ℕ} {s : Option TaskId} {v w f n : ℕ}
  {mem' : ByteMemory}

/-- A page of data is one of the first megabyte, or a mapped page of the kernel heap or of the
running process. -/
theorem Machine.dataPages_cases (hv : m.dataPages A v = some f) :
    (v = kernelHalf+f ∧ f < 256) ∨
      ∃ s, m.Reaches s ∧ A (.page s v) = some f ∧ ¬ m.DirPage s v := by
  unfold Machine.dataPages at hv
  split at hv
  · have hf := Option.some.inj hv
    exact .inl ⟨by omega,by omega⟩
  · right
    split at hv
    · split at hv
      · contradiction
      · exact ⟨none,.inl rfl,hv,‹_›⟩
    · exact ⟨_,.inr rfl,hv,fun hd => by simpa using hd.1⟩

theorem PageRep.dataPages_page (h : PageRep m A F) (hs : m.Reaches s)
    (hp : A (.page s v) = some f) (hdir : ¬ m.DirPage s v) : m.dataPages A v = some f := by
  have hin := h.inSpace hp
  obtain rfl | rfl := hs
  · have h₁ := hin.1
    have hlow : ¬ (kernelHalf ≤ v ∧ v < kernelHalf+256) := by
      unfold kernelHeapPage at h₁
      unfold kernelHalf
      omega
    rw [Machine.dataPages,if_neg hlow,if_pos h₁,if_neg hdir,hp]
  · have h₂ := hin.2.2
    have hheap : ¬ kernelHeapPage ≤ v := by
      unfold kernelHalf at h₂
      unfold kernelHeapPage
      omega
    rw [Machine.dataPages,if_neg fun hc => by omega,if_neg hheap,hp]

theorem Machine.dataPages_dataFrame (hv : m.dataPages A v = some f) :
    m.DataFrame A f := by
  obtain ⟨-,hf⟩ | ⟨s,-,hp,hdir⟩ := Machine.dataPages_cases hv
  · exact .inl (by unfold bootDir; omega)
  · exact .inr ⟨s,v,hp,hdir⟩

theorem PageRep.dataPages_inj (h : PageRep m A F) (hv : m.dataPages A v = some f)
    (hw : m.dataPages A w = some f) : v = w := by
  obtain ⟨hv,hf⟩ | ⟨s,-,hv,-⟩ := Machine.dataPages_cases hv <;>
    obtain ⟨hw,hf'⟩ | ⟨s',-,hw,-⟩ := Machine.dataPages_cases hw
  · omega
  · have hle := h.le_of_use hw
    unfold firstPoolFrame at hle
    omega
  · have hle := h.le_of_use hv
    unfold firstPoolFrame at hle
    omega
  · exact (Use.page.inj (h.inj _ _ _ hv hw)).2

/-- Writes to data keep the representation. -/
theorem PageRep.setData (h : PageRep m A F) {W : Set ℕ}
    (ho : Only (m.dataPages A) W m.mem mem') : PageRep (m.setMem mem') A F :=
  h.setMem fun g hg => ho g fun _ _ hv => h.dataFrame_ne_table (Machine.dataPages_dataFrame hv) hg

theorem PageRep.lookup_data (h : PageRep m A F) (hv : m.dataPages A v = some f) :
    lookup m.mem (m.cr3/pageSize) v = some f := by
  obtain ⟨d,hd,hc⟩ := h.cr3_eq
  rw [hc]
  obtain ⟨rfl,hf⟩ | ⟨s,rfl | rfl,hp,-⟩ := Machine.dataPages_cases hv
  · exact h.lookup_low hd hf
  · have hin := h.inSpace hp
    rw [h.lookup_kernel hd hin.1 (hin.lt h.toLayout),hp]
  · obtain ⟨ht,-,hv⟩ := h.inSpace hp
    rw [h.lookup_user ht hd hv,hp]

theorem PageRep.window (h : PageRep m A F) :
    Window (m.cr3/pageSize) m.mem (m.dataPages A) Set.univ :=
  ⟨fun _ _ _ => h.dataPages_inj,fun _ ho _ _ hv => (h.setData ho).lookup_data hv⟩

/-- The data that the running thread sees. -/
noncomputable def Machine.data (m : Machine) (A : FrameMap) : ByteMemory :=
  view (m.dataPages A) m.mem

/-- A computation on data, from the data that the thread sees. -/
theorem PageRep.run_acts {α : Type} {x : KernelM α} {r : α} {V' : ByteMemory} {W : Set ℕ}
    (h : PageRep m A F) (hx : Acts m (m.dataPages A) W x (m.data A) r V') :
    ∃ mem', x m = (.ok r,m.setMem mem') ∧ PageRep (m.setMem mem') A F ∧
      (m.setMem mem').data A = V' ∧ Only (m.dataPages A) W m.mem mem' := by
  obtain ⟨mem',hrun,ho,hview⟩ := hx m.mem .refl rfl
  exact ⟨mem',hrun,h.setData ho,hview,ho⟩

end DataPages
end OsKernel

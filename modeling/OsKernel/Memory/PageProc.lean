import OsKernel.Memory.HeapAccess
import OsKernel.Memory.PageDir

/-! Threads and processes come into being, and the processor goes from one to another. -/
namespace OsKernel
open Paging ByteMemory Exec KernelM

section SetTask
variable {m m' : Machine} {A : FrameMap} {F : Set ℕ} {P : Set (Option TaskId × ℕ)}
  {t u : TaskId} {task : TaskVm} {p g d i v : ℕ}

@[simp] theorem Machine.setTask_self : (m.setTask t task).task t = task := Function.update_self _ _ _

theorem Machine.setTask_of_ne (h : u ≠ t) : (m.setTask t task).task u = m.task u :=
  Function.update_of_ne h _ _

theorem Machine.setTask_isProc_of_ne (h : u ≠ t) :
    (m.setTask t task).IsProc u ↔ m.IsProc u := by
  rw [IsProc,IsProc,setTask_of_ne h]

theorem Machine.setTask_dirPage_of_ne (h : u ≠ t) :
    (m.setTask t task).dirPage u = m.dirPage u := by
  rw [dirPage,dirPage,setTask_of_ne h]

theorem Machine.setTask_dirOf_of_ne (h : u ≠ t) (A : FrameMap) :
    (m.setTask t task).dirOf A u = m.dirOf A u := by
  rw [dirOf,dirOf,setTask_dirPage_of_ne h]
  simp only [setTask_isProc_of_ne h]

/-- What the PCB of a thread that is no process may become: it stays without a directory, or it
gets a new one. -/
def Machine.NewTask (m : Machine) (A : FrameMap) (task : TaskVm) : Prop :=
  task.pgdir ≠ 0 → ∃ p g, task.pgdir = pageSize*p ∧ A (.page none p) = some g ∧
    NewDir m.mem g ∧ ¬ m.DirPage none p

/-- The directory of the changed thread. -/
theorem Machine.NewTask.dirOf_self (hn : m.NewTask A task)
    (hd : (m.setTask t task).dirOf A t = some d) :
    (task.pgdir = 0 ∧ d = bootDir) ∨ (task.pgdir ≠ 0 ∧ NewDir m.mem d) := by
  by_cases h0 : task.pgdir = 0
  · rw [Machine.dirOf_of_not_proc (by simp [IsProc,h0])] at hd
    exact .inl ⟨h0,(Option.some.inj hd).symm⟩
  · obtain ⟨p,g,hp,hg,hnew,-⟩ := hn h0
    have hpage : (m.setTask t task).dirPage t = p := by
      rw [dirPage,setTask_self,hp,Nat.mul_div_cancel_left _ (by decide)]
    rw [Machine.dirOf_of_proc (by simpa [IsProc] using h0),hpage,hg] at hd
    obtain rfl := Option.some.inj hd
    exact .inr ⟨h0,hnew⟩

theorem PageRep.setTask (h : PageRep m A F) (ht : ¬ m.IsProc t) (hrun : m.runningThread ≠ t)
    (hn : m.NewTask A task) : PageRep (m.setTask t task) A F := by
  have htable : ∀ i, A (.table t i) = none := by
    intro i
    cases hi : A (.table t i) with
    | none => rfl
    | some f => exact absurd (h.table t i f hi).1 ht
  have hproc : ∀ u, m.IsProc u → u ≠ t := fun u hu e => ht (e ▸ hu)
  have hspec : ∀ g' i o, TableSpec (m.setTask t task) A g' i o → target (word m.mem g' i) = o := by
    intro g' i o hs
    cases hs with
    | low hj => exact h.spec _ _ _ (.low hj)
    | kernelPte h₁ h₂ => exact h.spec _ _ _ (.kernelPte h₁ h₂)
    | @kernelPde u d i hd h₁ h₂ =>
      by_cases hu : u = t
      · subst hu
        obtain ⟨-,rfl⟩ | ⟨-,hnew⟩ := hn.dirOf_self hd
        · exact h.spec _ _ _ (.kernelPde (Machine.dirOf_of_not_proc ht) h₁ h₂)
        · rw [hnew.kernel i h₁ h₂,target_entry]
      · rw [Machine.setTask_dirOf_of_ne hu] at hd
        exact h.spec _ _ _ (.kernelPde hd h₁ h₂)
    | @self u d hd =>
      by_cases hu : u = t
      · subst hu
        obtain ⟨-,rfl⟩ | ⟨-,hnew⟩ := hn.dirOf_self hd
        · exact h.spec _ _ _ (.self (Machine.dirOf_of_not_proc ht))
        · rw [hnew.self,target_entry]
      · rw [Machine.setTask_dirOf_of_ne hu] at hd
        exact h.spec _ _ _ (.self hd)
    | @pde u d i hp hd hi =>
      by_cases hu : u = t
      · subst hu
        obtain ⟨h0,-⟩ | ⟨-,hnew⟩ := hn.dirOf_self hd
        · exact absurd h0 (by simpa [Machine.IsProc] using hp)
        · rw [hnew.user i hi,target_zero,htable]
      · rw [Machine.setTask_dirOf_of_ne hu] at hd
        exact h.spec _ _ _ (.pde ((Machine.setTask_isProc_of_ne hu).mp hp) hd hi)
    | pte hf hj => exact h.spec _ _ _ (.pte hf hj)
  have hpgdir : ∀ u, (m.setTask t task).IsProc u → u = t ∧ task.pgdir ≠ 0 ∨ u ≠ t ∧ m.IsProc u := by
    intro u hu
    by_cases hut : u = t
    · subst hut
      exact .inl ⟨rfl,by simpa [Machine.IsProc] using hu⟩
    · exact .inr ⟨hut,(Machine.setTask_isProc_of_ne hut).mp hu⟩
  have hnewPage : task.pgdir ≠ 0 → ∃ p, (m.setTask t task).dirPage t = p ∧
      task.pgdir = pageSize*p ∧ (A (.page none p)).isSome ∧ ¬ m.DirPage none p := by
    intro h0
    obtain ⟨p,g,hp,hg,-,hdir⟩ := hn h0
    exact ⟨p,by rw [Machine.dirPage,Machine.setTask_self,hp,Nat.mul_div_cancel_left _ (by decide)],
      hp,Option.isSome_of_eq_some hg,hdir⟩
  refine .mk' ⟨h.kernelStart,h.userAligned,h.disjoint,h.bound,h.vaddrStart,h.vaddrLen⟩
    ⟨h.inj,h.reserved,h.inPool,h.reservedInPool,h.bits⟩
    ⟨h.kernelPage,fun u v f hv => ?_,fun u i f hi => ?_,fun u hu => ?_,fun u w hu hw he => ?_⟩
    ⟨hspec,fun d i hd h₁ h₂ => ?_,?_⟩
  · obtain ⟨hu,hrest⟩ := h.userPage u v f hv
    exact ⟨(Machine.setTask_isProc_of_ne (hproc u hu)).mpr hu,hrest⟩
  · obtain ⟨hu,hrest⟩ := h.table u i f hi
    exact ⟨(Machine.setTask_isProc_of_ne (hproc u hu)).mpr hu,hrest⟩
  · obtain ⟨rfl,h0⟩ | ⟨hut,hu⟩ := hpgdir u hu
    · obtain ⟨p,hp,hpg,hsome,-⟩ := hnewPage h0
      rw [hp,Machine.setTask_self]
      exact ⟨hpg,hsome⟩
    · rw [Machine.setTask_dirPage_of_ne hut,Machine.setTask_of_ne hut]
      exact h.dir u hu
  · obtain ⟨rfl,h0⟩ | ⟨hut,hu'⟩ := hpgdir u hu <;> obtain ⟨rfl,h0'⟩ | ⟨hwt,hw'⟩ := hpgdir w hw
    · rfl
    · obtain ⟨p,hp,-,-,hdir⟩ := hnewPage h0
      rw [hp,Machine.setTask_dirPage_of_ne hwt] at he
      exact absurd ⟨rfl,w,hw',he.symm⟩ hdir
    · obtain ⟨p,hp,-,-,hdir⟩ := hnewPage h0'
      rw [hp,Machine.setTask_dirPage_of_ne hut] at he
      exact absurd ⟨rfl,u,hu',he⟩ hdir
    · rw [Machine.setTask_dirPage_of_ne hut,Machine.setTask_dirPage_of_ne hwt] at he
      exact h.dirInj u w hu' hw' he
  · obtain rfl | ⟨u,hu,hd⟩ := hd
    · exact h.kernelWord _ i (.inl rfl) h₁ h₂
    · obtain ⟨rfl,h0⟩ | ⟨hut,hu'⟩ := hpgdir u hu
      · rw [← Machine.dirOf_of_proc (A := A) hu] at hd
        obtain ⟨h0',-⟩ | ⟨-,hnew⟩ := hn.dirOf_self hd
        · exact absurd h0' h0
        · exact hnew.kernel i h₁ h₂
      · rw [Machine.setTask_dirPage_of_ne hut] at hd
        exact h.kernelWord d i (.inr ⟨u,hu',hd⟩) h₁ h₂
  · obtain ⟨d,hd,hc⟩ := h.cr3
    exact ⟨d,(Machine.setTask_dirOf_of_ne hrun A).trans hd,hc⟩

/-- The bitmap of a changed thread is all clear. -/
theorem VaddrRep.setTask (hv : VaddrRep m A P) (h : PageRep m A F) (ht : ¬ m.IsProc t)
    (hrun : m.runningThread ≠ t) (hP : ∀ v, (some t,v) ∉ P)
    (hclear : ∀ k, k < 8*task.userprogVaddr.vaddrBitmap.btmpBytesLen →
      task.userprogVaddr.vaddrBitmap.bitmapScanTest k = false)
    (hproc : task.pgdir ≠ 0 → task.userprogVaddr.vaddrStart = userVaddrStart ∧
      task.userprogVaddr.vaddrBitmap.btmpBytesLen = 94199) :
    VaddrRep (m.setTask t task) A P := by
  have hself : ∀ {u}, u = t → (m.setTask t task).IsProc u → task.pgdir ≠ 0 := by
    rintro u rfl hu
    simpa [Machine.IsProc] using hu
  refine ⟨fun s k hk => ?_,fun u hu => ?_,fun u hu => ?_,fun hr => ?_,hv.pending⟩
  · cases s with
    | none => exact hv.bits none k hk
    | some u =>
      by_cases hut : u = t
      · subst hut
        have hnone : A (.page (some u) (firstPage (some u)+k)) = none := by
          cases hp : A (.page (some u) (firstPage (some u)+k)) with
          | none => rfl
          | some f => exact absurd (h.userPage u _ f hp).1 ht
        simp only [Machine.vaddr,Machine.setTask_self] at hk ⊢
        simp [hclear k hk,hnone,hP]
      · simp only [Machine.vaddr,Machine.setTask_of_ne hut] at hk ⊢
        exact hv.bits (some u) k hk
  · by_cases hut : u = t
    · rw [hut,Machine.setTask_self]
      exact (hproc (hself hut hu)).1
    · rw [Machine.setTask_of_ne hut]
      exact hv.userStart u ((Machine.setTask_isProc_of_ne hut).mp hu)
  · by_cases hut : u = t
    · rw [hut,Machine.setTask_self]
      exact (hproc (hself hut hu)).2
    · rw [Machine.setTask_of_ne hut]
      exact hv.userLen u ((Machine.setTask_isProc_of_ne hut).mp hu)
  · change ¬ (m.setTask t task).IsProc m.runningThread at hr
    change ((m.setTask t task).task m.runningThread).userprogVaddr.vaddrBitmap.btmpBytesLen = 0
    rw [Machine.setTask_of_ne hrun]
    exact hv.kernelLen fun hc => hr ((Machine.setTask_isProc_of_ne hrun).mpr hc)

end SetTask

/-- The layout of two states, and what they say about threads other than t, is the same. -/
def Machine.SameExcept (t : TaskId) (m m' : Machine) : Prop :=
  m'.setup.setTask t (m.setup.task t) = m.setup

section SameExcept
variable {m m' m'' : Machine} {t u : TaskId} {task : TaskVm}

theorem Machine.setup_setTask (m : Machine) (t : TaskId) (task : TaskVm) : ∃ task',
    (m.setTask t task).setup = m.setup.setTask t task' := by
  refine ⟨(m.setTask t task).setup.task t,?_⟩
  have htask : (m.setTask t task).setup.task =
      Function.update m.setup.task t ((m.setTask t task).setup.task t) := by
    funext u
    by_cases hut : u = t
    · subst hut
      rw [Function.update_self]
    · rw [Function.update_of_ne hut]
      simp only [setup,setTask,Function.update_of_ne hut]
  exact congrArg (fun f => { m.setup with task := f }) htask

theorem Machine.setTask_setTask (m : Machine) (t : TaskId) (task task' : TaskVm) :
    (m.setTask t task).setTask t task' = m.setTask t task' := by
  simp [setTask]

theorem Machine.setTask_eq_self (m : Machine) (t : TaskId) : m.setTask t (m.task t) = m := by
  simp [setTask]

theorem Machine.SameExcept.of_setup (h : m'.setup = m.setup) : m.SameExcept t m' := by
  rw [SameExcept,h]
  exact m.setup.setTask_eq_self t

theorem Machine.SameExcept.setTask (h : m.SameExcept t m') :
    m.SameExcept t (m'.setTask t task) := by
  obtain ⟨task',ht⟩ := m'.setup_setTask t task
  rw [SameExcept,ht,setTask_setTask]
  exact h

theorem Machine.SameExcept.trans (h : m.SameExcept t m') (h' : m'.SameExcept t m'') :
    m.SameExcept t m'' := by
  rw [SameExcept] at h h' ⊢
  rw [← h,← h',setTask_setTask]
  simp only [setTask_self]

theorem Machine.SameExcept.runningThread (h : m.SameExcept t m') :
    m'.runningThread = m.runningThread :=
  congrArg (fun c => c.runningThread) h

theorem Machine.SameExcept.setup_task (h : m.SameExcept t m') (hu : u ≠ t) :
    m'.setup.task u = m.setup.task u := by
  have he := congrArg (fun c => c.task u) h
  rwa [setTask_of_ne hu] at he

theorem Machine.SameExcept.pgdir (h : m.SameExcept t m') (hu : u ≠ t) :
    (m'.task u).pgdir = (m.task u).pgdir :=
  congrArg (fun c => c.pgdir) (h.setup_task hu)

theorem Machine.SameExcept.len (h : m.SameExcept t m') (hu : u ≠ t) :
    (m'.task u).userprogVaddr.vaddrBitmap.btmpBytesLen =
      (m.task u).userprogVaddr.vaddrBitmap.btmpBytesLen :=
  congrArg (fun c => c.userprogVaddr.vaddrBitmap.btmpBytesLen) (h.setup_task hu)

end SameExcept
end OsKernel

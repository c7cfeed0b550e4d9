import OsKernel.Memory.PageMap

/-! The elementary changes of the state, each with what it does to the map: a frame is reserved
or released, a page is mapped or unmapped, a page table is added. -/
namespace OsKernel
open Paging ByteMemory

/-- The state without memory, bits, locks, translation cache and events. -/
def Machine.setup (m : Machine) : Machine :=
  { m with
    mem := fun _ => 0
    pool := fun pf => { m.pool pf with
      poolBitmap := { (m.pool pf).poolBitmap with bits := fun _ => 0 }
      lock := ⟨none,0⟩ }
    kernelVaddr := { m.kernelVaddr with
      vaddrBitmap := { m.kernelVaddr.vaddrBitmap with bits := fun _ => 0 } }
    task := fun t => { m.task t with
      userprogVaddr := { (m.task t).userprogVaddr with
        vaddrBitmap := { (m.task t).userprogVaddr.vaddrBitmap with bits := fun _ => 0 } } }
    tlb := fun _ => none
    events := [] }

section Setup
variable {m m' : Machine} {A : FrameMap} {F : Set ℕ}

@[simp] theorem Machine.setMem_setup (m : Machine) (mem : ByteMemory) :
    (m.setMem mem).setup = m.setup := rfl

theorem layout_setup : Layout m.setup ↔ Layout m :=
  ⟨fun h => ⟨h.1,h.2,h.3,h.4,h.5,h.6⟩,fun h => ⟨h.1,h.2,h.3,h.4,h.5,h.6⟩⟩

theorem shape_setup : Shape m.setup A ↔ Shape m A :=
  ⟨fun h => ⟨h.1,h.2,h.3,h.4,h.5⟩,fun h => ⟨h.1,h.2,h.3,h.4,h.5⟩⟩

theorem TableSpec.to_setup {g i : ℕ} {o : Option ℕ} (h : TableSpec m A g i o) :
    TableSpec m.setup A g i o := by
  cases h with
  | low hj => exact .low hj
  | kernelPte h₁ h₂ => exact .kernelPte h₁ h₂
  | kernelPde hd h₁ h₂ => exact .kernelPde hd h₁ h₂
  | self hd => exact .self hd
  | pde ht hd hi => exact .pde ht hd hi
  | pte hf hj => exact .pte hf hj

theorem TableSpec.of_setup {g i : ℕ} {o : Option ℕ} (h : TableSpec m.setup A g i o) :
    TableSpec m A g i o := by
  cases h with
  | low hj => exact .low hj
  | kernelPte h₁ h₂ => exact .kernelPte h₁ h₂
  | kernelPde hd h₁ h₂ => exact .kernelPde hd h₁ h₂
  | self hd => exact .self hd
  | pde ht hd hi => exact .pde ht hd hi
  | pte hf hj => exact .pte hf hj

theorem TableSpec.congr (h : m'.setup = m.setup) {g i : ℕ} {o : Option ℕ}
    (hs : TableSpec m' A g i o) : TableSpec m A g i o :=
  (h ▸ hs.to_setup).of_setup

theorem Layout.congr (hl : Layout m) (h : m'.setup = m.setup) : Layout m' :=
  layout_setup.mp (h ▸ layout_setup.mpr hl)

theorem Shape.congr (hs : Shape m A) (h : m'.setup = m.setup) : Shape m' A :=
  shape_setup.mp (h ▸ shape_setup.mpr hs)

theorem Machine.len_congr (h : m'.setup = m.setup) (pf : PoolFlags) : m'.len pf = m.len pf :=
  congrArg (fun c => c.len pf) h

theorem Machine.start_congr (h : m'.setup = m.setup) (pf : PoolFlags) :
    m'.start pf = m.start pf :=
  congrArg (fun c => c.start pf) h

theorem Machine.inPool_congr (h : m'.setup = m.setup) (pf : PoolFlags) (f : ℕ) :
    m'.InPool pf f ↔ m.InPool pf f :=
  iff_of_eq (congrArg (fun c => c.InPool pf f) h)

theorem Machine.isProc_congr (h : m'.setup = m.setup) (t : TaskId) : m'.IsProc t ↔ m.IsProc t :=
  iff_of_eq (congrArg (fun c => c.IsProc t) h)

theorem Machine.dirPage_congr (h : m'.setup = m.setup) (t : TaskId) :
    m'.dirPage t = m.dirPage t :=
  congrArg (fun c => c.dirPage t) h

theorem Machine.dirOf_congr (h : m'.setup = m.setup) (A : FrameMap) (t : TaskId) :
    m'.dirOf A t = m.dirOf A t :=
  congrArg (fun c => c.dirOf A t) h

theorem Machine.dir_congr (h : m'.setup = m.setup) (A : FrameMap) (d : ℕ) :
    m'.Dir A d ↔ m.Dir A d :=
  iff_of_eq (congrArg (fun c => c.Dir A d) h)

theorem Machine.runningThread_congr (h : m'.setup = m.setup) :
    m'.runningThread = m.runningThread :=
  congrArg (fun c => c.runningThread) h

theorem Machine.cr3_congr (h : m'.setup = m.setup) : m'.cr3 = m.cr3 :=
  congrArg (fun c => c.cr3) h

/-- The frames depend on the bits of the pools only. -/
theorem Frames.congr (hf : Frames m A F) (h : m'.setup = m.setup)
    (hb : ∀ pf i, m'.bit pf i = m.bit pf i) : Frames m' A F := by
  refine ⟨hf.inj,hf.reserved,?_,?_,?_⟩
  · simp only [Machine.inPool_congr h]
    exact hf.inPool
  · simp only [Machine.inPool_congr h]
    exact hf.reservedInPool
  · simp only [Machine.len_congr h,Machine.start_congr h,hb]
    exact hf.bits

theorem Tables.congr (ht : Tables m A) (h : m'.setup = m.setup)
    (hm : ∀ g i, i < 1024 → word m'.mem g i = word m.mem g i) : Tables m' A := by
  refine ⟨fun g i o hs => ?_,fun d i hd h₁ h₂ => ?_,?_⟩
  · have hs' := hs.congr h
    rw [hm g i hs'.index_lt]
    exact ht.spec g i o hs'
  · rw [hm d i (by omega)]
    exact ht.kernelWord d i ((Machine.dir_congr h A d).mp hd) h₁ h₂
  · obtain ⟨d,hd,hc⟩ := ht.cr3
    exact ⟨d,by rw [Machine.dirOf_congr h,Machine.runningThread_congr h,hd],
      by rw [Machine.cr3_congr h,hc]⟩

/-- The parts of a representation are put together. -/
theorem PageRep.mk' (hl : Layout m) (hf : Frames m A F) (hs : Shape m A) (ht : Tables m A) :
    PageRep m A F :=
  { hl, hf, hs, ht with }

theorem PageRep.congr (h : PageRep m A F) (hs : m'.setup = m.setup) (hm : m'.mem = m.mem)
    (hb : ∀ pf i, m'.bit pf i = m.bit pf i) : PageRep m' A F :=
  .mk' (h.toLayout.congr hs) (h.toFrames.congr hs hb) (h.toShape.congr hs)
    (h.toTables.congr hs fun g i _ => by rw [hm])

end Setup

section Reserve
variable {m : Machine} {A : FrameMap} {F : Set ℕ} {pf : PoolFlags} {i : ℕ}

/-- Different positions of the pools are different frames. -/
theorem Layout.position_inj (h : Layout m) {pf' : PoolFlags} {j : ℕ} (hi : i < 8*m.len pf)
    (hj : j < 8*m.len pf') (he : m.start pf+i = m.start pf'+j) : pf = pf' ∧ i = j := by
  have hs := h.start_kernel
  have hd := h.disjoint
  cases pf <;> cases pf' <;> simp only [true_and,reduceCtorEq,false_and] <;> omega

/-- One bit of a pool bitmap. -/
def Machine.setBit (m : Machine) (pf : PoolFlags) (i : ℕ) (value : Bool) : Machine :=
  m.setBitmap pf ((m.pool pf).poolBitmap.bitmapSet i value)

section SetBit
variable (m pf i) (pf' : PoolFlags) (j : ℕ) (value : Bool)

theorem Machine.setBit_pool : ((m.setBit pf i value).pool pf').phyAddrStart =
    (m.pool pf').phyAddrStart ∧ ((m.setBit pf i value).pool pf').poolBitmap =
      if pf' = pf then (m.pool pf').poolBitmap.bitmapSet i value else (m.pool pf').poolBitmap := by
  by_cases hpf : pf' = pf
  · subst hpf
    simp [setBit,setBitmap,setPool]
  · simp [setBit,setBitmap,setPool,hpf]

theorem Machine.setBit_setup : (m.setBit pf i value).setup = m.setup := by
  have hp : (m.setBit pf i value).setup.pool = m.setup.pool := by
    funext pf'
    by_cases hpf : pf' = pf
    · subst hpf
      simp [setup,setBit,setBitmap,setPool]
    · simp [setup,setBit,setBitmap,setPool,hpf]
  exact congrArg (fun p => { m.setup with pool := p }) hp

@[simp] theorem Machine.setBit_len : (m.setBit pf i value).len pf' = m.len pf' := by
  exact m.len_congr (m.setBit_setup pf i value) pf'

@[simp] theorem Machine.setBit_start : (m.setBit pf i value).start pf' = m.start pf' := by
  exact m.start_congr (m.setBit_setup pf i value) pf'

@[simp] theorem Machine.setBit_inPool (f : ℕ) :
    (m.setBit pf i value).InPool pf' f ↔ m.InPool pf' f := by
  simp only [InPool,setBit_len,setBit_start]

theorem Machine.setBit_bit : (m.setBit pf i value).bit pf' j =
    if pf' = pf ∧ j = i then value else m.bit pf' j := by
  rw [bit,(m.setBit_pool pf i pf' value).2]
  by_cases hpf : pf' = pf
  · rw [if_pos hpf,Bitmap.bitmapScanTest_bitmapSet]
    simp [hpf,bit]
  · simp [hpf,bit]

end SetBit

/-- The bit of a position gets a new value, and the reserved frames follow it. -/
theorem PageRep.setBit (h : PageRep m A F) (hi : i < 8*m.len pf) (value : Bool) {F' : Set ℕ}
    (hused : ∀ x, A x ≠ some (m.start pf+i)) (hself : m.start pf+i ∈ F' ↔ value = true)
    (hothers : ∀ f, f ≠ m.start pf+i → (f ∈ F' ↔ f ∈ F)) :
    PageRep (m.setBit pf i value) A F' := by
  have hs := m.setBit_setup pf i value
  refine .mk' (h.toLayout.congr hs) ⟨h.inj,?_,?_,?_,?_⟩ (h.toShape.congr hs)
    (h.toTables.congr hs fun _ _ _ => rfl)
  · intro x f hx
    have hne : f ≠ m.start pf+i := fun e => hused x (e ▸ hx)
    rw [hothers f hne]
    exact h.reserved x f hx
  · simpa using h.inPool
  · intro f hf
    simp only [Machine.setBit_inPool]
    by_cases hne : f = m.start pf+i
    · exact ⟨pf,by omega,by omega⟩
    · exact h.reservedInPool f ((hothers f hne).mp hf)
  · intro pf' j hj
    rw [Machine.setBit_len] at hj
    rw [Machine.setBit_start,Machine.setBit_bit]
    by_cases hj' : pf' = pf ∧ j = i
    · obtain ⟨rfl,rfl⟩ := hj'
      rw [if_pos ⟨rfl,rfl⟩,hself]
      exact ⟨.inl,fun he => he.resolve_right (not_exists.mpr hused)⟩
    · have hne : m.start pf'+j ≠ m.start pf+i := fun e => hj' (h.position_inj hj hi e)
      rw [if_neg hj',h.bits pf' j hj,hothers _ hne]

/-- palloc reserves a frame. -/
theorem PageRep.reserve (h : PageRep m A F) (hi : i < 8*m.len pf) (hbit : m.bit pf i = false) :
    PageRep (m.setBit pf i true) A (insert (m.start pf+i) F) := by
  have hclear : ¬ (m.start pf+i ∈ F ∨ ∃ x, A x = some (m.start pf+i)) := by
    rw [← h.bits pf i hi,hbit]
    simp
  push Not at hclear
  refine h.setBit hi true hclear.2 (by simp) fun f hf => ?_
  simp [hf]

/-- pfree releases a frame that nothing uses any more. -/
theorem PageRep.release (h : PageRep m A F) (hi : i < 8*m.len pf) (hF : m.start pf+i ∈ F) :
    PageRep (m.setBit pf i false) A (F \ {m.start pf+i}) := by
  refine h.setBit hi false (fun x hx => h.reserved x _ hx hF) (by simp) fun f hf => ?_
  simp [hf]

end Reserve
end OsKernel

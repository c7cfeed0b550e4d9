import OsKernel.Memory.NoAssert

/-! All-or-nothing page allocation, on the paths that the assertions hide. Nothing is ever given
back on these paths, so that a request changes nothing only if it fails before it takes anything. -/
namespace OsKernel.NoAssert
open Exec KernelM

section Take
variable {m m' : Machine} {pf : PoolFlags} {vaddr pa n k : ℕ}

/-- The bitmaps of virtual addresses are as before, and the frames that are taken stay taken. -/
structure OnlyTakes (m m' : Machine) : Prop where
  runningThread : m'.runningThread = m.runningThread
  kernelVaddr : m'.kernelVaddr = m.kernelVaddr
  task : m'.task = m.task
  bits : ∀ pf i, (m.pool pf).poolBitmap.bitmapScanTest i = true →
    (m'.pool pf).poolBitmap.bitmapScanTest i = true

instance : Std.Refl OnlyTakes := ⟨fun _ => ⟨rfl,rfl,rfl,fun _ _ h => h⟩⟩

instance : IsTrans Machine OnlyTakes where
  trans _ _ _ h h' := ⟨h'.runningThread.trans h.runningThread,h'.kernelVaddr.trans h.kernelVaddr,
    h'.task.trans h.task,fun pf i hi => h'.bits pf i (h.bits pf i hi)⟩

theorem OnlyTakes.vbitmap (h : OnlyTakes m m') (pf : PoolFlags) :
    m'.vbitmap pf = m.vbitmap pf := by
  cases pf with
  | kernel => exact congrArg VirtualAddr.vaddrBitmap h.kernelVaddr
  | user =>
    change (m'.task m'.runningThread).userprogVaddr.vaddrBitmap = _
    rw [h.runningThread,h.task]
    rfl

theorem palloc_eq (m : Machine) (pf : PoolFlags) :
    palloc pf m = match (m.pool pf).poolBitmap.bitmapScan 1 with
      | none => (.ok 0,m.note .palloc pf)
      | some i => (.ok (((m.pool pf).phyAddrStart+i*pageSize) % 2^32),
          (m.note .palloc pf).setBit pf i true) := by
  have h : palloc pf m = (match (m.pool pf).poolBitmap.bitmapScan 1 with
    | none => return 0
    | some idx => do
      modify fun m' => m'.setBitmap pf ((m.pool pf).poolBitmap.bitmapSet idx true)
      return ((m.pool pf).phyAddrStart+idx*pageSize) % 2^32 : KernelM ℕ)
        (m.note .palloc pf) := rfl
  rw [h]
  cases (m.pool pf).poolBitmap.bitmapScan 1 with
  | none => rfl
  | some i => rfl

end Take

section Locks
variable {m m' : Machine} {pf pf' : PoolFlags} {l : PoolLock}

theorem heldCount_setLock (m : Machine) (pf pf' : PoolFlags) (l : PoolLock) :
    heldCount (m.setLock pf l) pf' = if pf' = pf then
      (if l.holder = some m.runningThread then l.holderRepeatNr else 0) else heldCount m pf' := by
  rw [heldCount,m.setLock_pool]
  by_cases hpf : pf' = pf
  · simp only [if_pos hpf]
    rfl
  · simp only [if_neg hpf]
    rfl

/-- lock_release by the holder counts one less, down to zero. -/
theorem lockRelease_eq (h : (m.pool pf).lock.holder = some m.runningThread) :
    ∃ l, lockRelease pf m = (.ok (),m.setLock pf l) ∧
      heldCount (m.setLock pf l) pf = heldCount m pf-1 := by
  have he : lockRelease pf m = (if 1 < (m.pool pf).lock.holderRepeatNr then
      modify fun m' => m'.setLock pf
        ⟨(m.pool pf).lock.holder,(m.pool pf).lock.holderRepeatNr-1⟩
    else modify fun m => m.setLock pf ⟨none,0⟩ : KernelM Unit) m := rfl
  have hcount : heldCount m pf = (m.pool pf).lock.holderRepeatNr := if_pos h
  rw [he]
  split_ifs with hnr
  · refine ⟨_,rfl,?_⟩
    rw [heldCount_setLock,if_pos rfl,if_pos h,hcount]
  · refine ⟨_,rfl,?_⟩
    rw [heldCount_setLock,if_pos rfl,if_neg (Option.some_ne_none _).symm,hcount]
    omega

end Locks

section Scan
variable {m m' m'' : Machine} {pf : PoolFlags} {n k : ℕ}

theorem Unchanged.vbitmap (h : Unchanged m m') (hrun : m'.runningThread = m.runningThread)
    (pf : PoolFlags) : m'.vbitmap pf = m.vbitmap pf := by
  cases pf with
  | kernel => exact h.kernelVaddr
  | user =>
    change (m'.task m'.runningThread).userprogVaddr.vaddrBitmap = _
    rw [hrun]
    exact h.userprogVaddr _

end Scan

section Requests
variable {m m' m₁ m₂ : Machine} {pf : PoolFlags} {n k vaddr pa : ℕ} {req : PageRequest}

theorem Exhausts.pos (h : Exhausts pf vaddr n m) : 0 < n := by
  cases h <;> exact Nat.succ_pos _

end Requests

end OsKernel.NoAssert

import OsKernel.Memory.PageCalls

/-! What the users of bitmap_scan can rely on. A run of clear bits that it returns is the first
one, and is marked bit by bit. It does not find every run: the scan ends at the position that
is the length of the bitmap in bytes. -/
namespace OsKernel
open Exec KernelM

namespace Bitmap

/-- The first run of cnt clear bits in the bitmap starts at l. -/
structure FirstRun (btmp : Bitmap) (l cnt : ℕ) : Prop where
  bound : l+cnt ≤ 8*btmp.btmpBytesLen
  clear : btmp.Clear l cnt
  least : ∀ j, j < l → ¬ btmp.Clear j cnt

/-- Exactly the cnt bits from l on have changed, each from 0 to 1. -/
structure Takes (btmp btmp' : Bitmap) (l cnt : ℕ) : Prop where
  length : btmp'.btmpBytesLen = btmp.btmpBytesLen
  clear : ∀ i, i < cnt → btmp.bitmapScanTest (l+i) = false
  set : ∀ i, i < cnt → btmp'.bitmapScanTest (l+i) = true
  other : ∀ j, j < l ∨ l+cnt ≤ j → btmp'.bitmapScanTest j = btmp.bitmapScanTest j

section Scan
variable {btmp : Bitmap} {l cnt : ℕ}

theorem FirstRun.of_scan (hcnt : 0 < cnt) (h : btmp.bitmapScan cnt = some l) :
    btmp.FirstRun l cnt := by
  obtain ⟨hlt,hc,hmin⟩ := (btmp.bitmapScan_eq_some_iff cnt hcnt l).mp h
  exact ⟨by omega,hc,hmin⟩

/-- A bitmap with a clear run in it has a first one. -/
theorem exists_firstRun (hl : l+cnt ≤ 8*btmp.btmpBytesLen) (hc : btmp.Clear l cnt) :
    ∃ k, k ≤ l ∧ btmp.FirstRun k cnt := by
  classical
  have hex : ∃ k, btmp.Clear k cnt := ⟨l,hc⟩
  have hle : Nat.find hex ≤ l := Nat.find_min' hex hc
  exact ⟨Nat.find hex,hle,by omega,Nat.find_spec hex,fun j hj => Nat.find_min hex hj⟩

/-- The loops of bitmap_set on a run that the scan has returned. -/
theorem takes_setRange (hc : btmp.Clear l cnt) : btmp.Takes (btmp.setRange l true cnt) l cnt := by
  refine ⟨btmp.setRange_btmpBytesLen l cnt true,hc,fun i hi => ?_,fun j hj => ?_⟩
  · rw [bitmapScanTest_setRange,if_pos (by omega)]
  · rw [bitmapScanTest_setRange,if_neg (by omega)]

/-- When a refusal of bitmap_scan means that there is no run. -/
theorem bitmapScan_complete_iff (hcnt : 0 < cnt) :
    (btmp.bitmapScan cnt = none →
      ¬ ∃ l, l+cnt ≤ 8*btmp.btmpBytesLen ∧ ∀ i, i < cnt → btmp.bitmapScanTest (l+i) = false) ↔
    ∀ k, btmp.FirstRun k cnt → k+cnt < btmp.btmpBytesLen := by
  rw [btmp.bitmapScan_eq_none_iff cnt hcnt]
  constructor
  · intro h k hk
    by_contra hlt
    refine h (fun j hj hc => ?_) ⟨k,hk.bound,hk.clear⟩
    -- a run that the scan can see would come before the first one
    exact hk.least j (by omega) hc
  · rintro h hnone ⟨l,hl,hc⟩
    obtain ⟨k,-,hk⟩ := exists_firstRun hl hc
    exact hnone k (h k hk) hk.clear

def clearByte : Bitmap := ⟨1,fun _ => 0⟩

def clearPair : Bitmap := ⟨2,fun _ => 0⟩

theorem bitmapScan_complete_iff_clearPair : 0 < 1 ∧ ((clearPair.bitmapScan 1 = none →
      ¬ ∃ l, l+1 ≤ 8*clearPair.btmpBytesLen ∧
        ∀ i, i < 1 → clearPair.bitmapScanTest (l+i) = false) ↔
    ∀ k, clearPair.FirstRun k 1 → k+1 < clearPair.btmpBytesLen) :=
  ⟨Nat.one_pos,bitmapScan_complete_iff Nat.one_pos⟩

/-- A byte of clear bits in which the scan finds none. -/
theorem clearByte_refused : ¬ ∀ (btmp : Bitmap) (cnt : ℕ), 0 < cnt → btmp.bitmapScan cnt = none →
    ¬ ∃ l, l+cnt ≤ 8*btmp.btmpBytesLen ∧
      ∀ i, i < cnt → btmp.bitmapScanTest (l+i) = false := by
  intro h
  refine h clearByte 1 Nat.one_pos rfl ⟨0,by decide,fun i hi => ?_⟩
  obtain rfl : i = 0 := by omega
  decide

end Scan
end Bitmap

/-- A call marks the first run of cnt clear bits of a bitmap, if the scan returns one, and
changes nothing else; set gives the bitmap a new value. -/
def Machine.Marks (m : Machine) (btmp : Bitmap) (cnt : ℕ) (set : Bitmap → Machine)
    (m' : Machine) : Prop :=
  ∃ events, match btmp.bitmapScan cnt with
    | none => m' = { m with events := events }
    | some l => ∃ btmp', btmp.Takes btmp' l cnt ∧ m' = { set btmp' with events := events }

section Marks
variable {m : Machine} {pf : PoolFlags} {cnt l : ℕ}

theorem vaddrGet_marks (hcnt : 0 < cnt) (m : Machine) (pf : PoolFlags) :
    m.Marks (m.vbitmap pf) cnt (m.setVaddr pf) (vaddrGet pf cnt m).2 := by
  unfold Machine.Marks
  cases hs : (m.vbitmap pf).bitmapScan cnt with
  | none =>
    cases pf with
    | kernel =>
      change m.kernelVaddr.vaddrBitmap.bitmapScan cnt = none at hs
      simp only [vaddrGet,hs,KernelM.note,Exec.get,Exec.modify,Exec.throw,Machine.note,Bind.bind]
      exact ⟨_,rfl⟩
    | user =>
      change (m.task m.runningThread).userprogVaddr.vaddrBitmap.bitmapScan cnt = none at hs
      simp only [vaddrGet,hs,Exec.get,Bind.bind]
      exact ⟨_,rfl⟩
  | some k =>
    have htakes := Bitmap.takes_setRange (Bitmap.FirstRun.of_scan hcnt hs).clear
    refine ⟨(vaddrGet pf cnt m).2.events,_,htakes,?_⟩
    cases pf with
    | kernel =>
      change m.kernelVaddr.vaddrBitmap.bitmapScan cnt = some k at hs
      simp only [vaddrGet,hs,KernelM.note,Exec.get,Exec.modify,Machine.note,Bind.bind]
      rfl
    | user =>
      change (m.task m.runningThread).userprogVaddr.vaddrBitmap.bitmapScan cnt = some k at hs
      simp only [vaddrGet,hs,Exec.get,Exec.modify,Bind.bind,kassert,assert,Exec.lift]
      split_ifs <;> rfl

theorem palloc_marks (m : Machine) (pf : PoolFlags) :
    m.Marks (m.pool pf).poolBitmap 1 (m.setBitmap pf) (palloc pf m).2 := by
  unfold Machine.Marks
  rw [palloc_eq]
  cases hs : (m.pool pf).poolBitmap.bitmapScan 1 with
  | none => exact ⟨_,rfl⟩
  | some k =>
    have htakes := Bitmap.takes_setRange (Bitmap.FirstRun.of_scan Nat.one_pos hs).clear
    exact ⟨_,_,htakes,rfl⟩

/-- bitmap_scan is sound and first-fit, and its callers mark what it returns. -/
theorem bitmapScan_firstFit (hcnt : 0 < cnt) :
    (∀ btmp : Bitmap, ∀ l, btmp.bitmapScan cnt = some l → l+cnt ≤ 8*btmp.btmpBytesLen ∧
      (∀ i, i < cnt → btmp.bitmapScanTest (l+i) = false) ∧
      ∀ j, j < l → ¬ ∀ i, i < cnt → btmp.bitmapScanTest (j+i) = false) ∧
    (∀ (m : Machine) pf, m.Marks (m.vbitmap pf) cnt (m.setVaddr pf) (vaddrGet pf cnt m).2) ∧
    ∀ (m : Machine) pf, m.Marks (m.pool pf).poolBitmap 1 (m.setBitmap pf) (palloc pf m).2 := by
  refine ⟨fun btmp l hs => ?_,vaddrGet_marks hcnt,palloc_marks⟩
  have hrun := Bitmap.FirstRun.of_scan hcnt hs
  exact ⟨hrun.bound,hrun.clear,hrun.least⟩

theorem bitmapScan_firstFit_clearPair : Bitmap.clearPair.bitmapScan 1 = some 0 ∧
    ∀ i, i < 1 → Bitmap.clearPair.bitmapScanTest (0+i) = false := by
  have hs : Bitmap.clearPair.bitmapScan 1 = some 0 := by decide
  exact ⟨hs,((bitmapScan_firstFit Nat.one_pos).1 _ _ hs).2.1⟩

end Marks
end OsKernel

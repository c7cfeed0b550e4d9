import Mathlib.Data.Nat.Count
import Mathlib.Tactic

/-! Bitmaps. The scan compares bit positions with the length in bytes, so that it looks at the
first eighth of the bits only. -/
namespace OsKernel

structure Bitmap where
  btmpBytesLen : ℕ
  bits : ℕ → BitVec 8

namespace Bitmap

def bitmapMask : BitVec 8 := 1

def bitmapInit (btmp : Bitmap) : Bitmap :=
  { btmp with bits := fun i => if i < btmp.btmpBytesLen then 0 else btmp.bits i }

def bitmapScanTest (btmp : Bitmap) (bitIdx : ℕ) : Bool :=
  decide (btmp.bits (bitIdx/8) &&& (bitmapMask <<< (bitIdx % 8)) ≠ 0)

/-- The first loop of bitmap_scan, up to position r. -/
def zeros (btmp : Bitmap) : ℕ → ℕ
  | 0 => 0
  | r+1 => btmp.zeros r+(if btmp.bitmapScanTest r then 0 else 1)

/-- The second loop of bitmap_scan, with the number of rounds that are left before r reaches
the length. -/
def scanLoop (btmp : Bitmap) (cnt : ℕ) : ℕ → ℕ → ℕ → ℕ → Option ℕ
  | 0, _, _, _ => none
  | left+1, l, r, zeronum =>
    if zeronum = cnt then some l
    else
      let zeronum := if btmp.bitmapScanTest l then zeronum else zeronum-1
      let zeronum := if btmp.bitmapScanTest r then zeronum else zeronum+1
      btmp.scanLoop cnt left (l+1) (r+1) zeronum

def bitmapScan (btmp : Bitmap) (cnt : ℕ) : Option ℕ :=
  btmp.scanLoop cnt (btmp.btmpBytesLen-cnt) 0 cnt (btmp.zeros cnt)

def bitmapSet (btmp : Bitmap) (bitIdx : ℕ) (value : Bool) : Bitmap :=
  let index := bitIdx/8
  let mask := bitmapMask <<< (bitIdx % 8)
  let byte := btmp.bits index
  { btmp with
    bits := Function.update btmp.bits index (if value then byte ||| mask else byte &&& ~~~mask) }

/-- The loops that call bitmap_set on cnt positions. -/
def setRange (btmp : Bitmap) (start : ℕ) (value : Bool) : ℕ → Bitmap
  | 0 => btmp
  | cnt+1 => (btmp.bitmapSet start value).setRange (start+1) value cnt

section Bits
variable (btmp : Bitmap) (i j start cnt : ℕ) (value : Bool)

@[simp] theorem bitmapSet_btmpBytesLen :
    (btmp.bitmapSet i value).btmpBytesLen = btmp.btmpBytesLen := rfl

theorem bitmapScanTest_eq : btmp.bitmapScanTest i = (btmp.bits (i/8)).getLsbD (i % 8) := by
  have hpos : i % 8 < 8 := Nat.mod_lt _ (by decide)
  have hbit : ∀ k, (btmp.bits (i/8) &&& (bitmapMask <<< (i % 8))).getLsbD k =
      (decide (k = i % 8) && (btmp.bits (i/8)).getLsbD (i % 8)) := by
    intro k
    by_cases hk : k = i % 8
    · subst hk
      simp [bitmapMask,hpos]
    · by_cases hlt : k < i % 8
      · simp [bitmapMask,hk,hlt]
      · have hsub : k-i % 8 ≠ 0 := by omega
        simp [bitmapMask,hk,hsub]
  rw [bitmapScanTest,Bool.eq_iff_iff,decide_eq_true_iff]
  constructor
  · intro hne
    by_contra hf
    apply hne
    apply BitVec.eq_of_getLsbD_eq
    intro k _
    rw [hbit k]
    simp [Bool.eq_false_iff.mpr hf]
  · intro ht he
    have := hbit (i % 8)
    rw [he,ht] at this
    simp at this

/-- bitmap_set changes one bit. -/
theorem bitmapScanTest_bitmapSet : (btmp.bitmapSet i value).bitmapScanTest j =
    if j = i then value else btmp.bitmapScanTest j := by
  simp only [bitmapScanTest_eq,bitmapSet]
  have hpi : i % 8 < 8 := Nat.mod_lt _ (by decide)
  have hpj : j % 8 < 8 := Nat.mod_lt _ (by decide)
  by_cases hidx : j/8 = i/8
  · rw [hidx,Function.update_self]
    by_cases hji : j = i
    · subst hji
      cases value <;> simp [bitmapMask,hpj]
    · have hmod : j % 8 ≠ i % 8 := fun e => hji (by omega)
      rw [if_neg hji]
      by_cases hlt : j % 8 < i % 8
      · cases value <;> simp [bitmapMask,hpj,hlt]
      · have hsub : j % 8-i % 8 ≠ 0 := by omega
        cases value <;> simp [bitmapMask,hpj,hsub]
  · have hji : j ≠ i := fun e => hidx (by rw [e])
    rw [Function.update_of_ne hidx,if_neg hji]

@[simp] theorem setRange_btmpBytesLen :
    (btmp.setRange start value cnt).btmpBytesLen = btmp.btmpBytesLen := by
  induction cnt generalizing btmp start with
  | zero => rfl
  | succ cnt ih => rw [setRange,ih,bitmapSet_btmpBytesLen]

theorem bitmapScanTest_setRange : (btmp.setRange start value cnt).bitmapScanTest j =
    if start ≤ j ∧ j < start+cnt then value else btmp.bitmapScanTest j := by
  induction cnt generalizing btmp start with
  | zero => simp [setRange,show ¬ (start ≤ j ∧ j < start) by omega]
  | succ cnt ih =>
    rw [setRange,ih,bitmapScanTest_bitmapSet]
    by_cases hj : j = start
    · subst hj
      simp
    · by_cases hr : start ≤ j ∧ j < start+(cnt+1)
      · rw [if_pos hr,if_pos (by omega)]
      · rw [if_neg hr,if_neg (by omega),if_neg hj]

end Bits

/-- The cnt bits from l on are clear. -/
def Clear (btmp : Bitmap) (l cnt : ℕ) : Prop := ∀ i, i < cnt → btmp.bitmapScanTest (l+i) = false

/-- The number of clear bits in a window. -/
def clearCount (btmp : Bitmap) (l cnt : ℕ) : ℕ :=
  Nat.count (fun i => btmp.bitmapScanTest (l+i) = false) cnt

section Scan
variable (btmp : Bitmap) (l cnt : ℕ)

theorem zeros_eq (r : ℕ) : btmp.zeros r = btmp.clearCount 0 r := by
  induction r with
  | zero => rfl
  | succ r ih =>
    rw [zeros,ih,clearCount,clearCount,Nat.count_succ,Nat.zero_add]
    cases btmp.bitmapScanTest r <;> rfl

theorem clearCount_eq_iff : btmp.clearCount l cnt = cnt ↔ btmp.Clear l cnt :=
  Nat.count_iff_forall

theorem clearCount_pos_iff :
    0 < btmp.clearCount l cnt ↔ ∃ i, i < cnt ∧ btmp.bitmapScanTest (l+i) = false := by
  rw [Nat.pos_iff_ne_zero,Ne,clearCount,Nat.count_iff_forall_not]
  push Not
  rfl

/-- The window moves on by one position. -/
theorem clearCount_slide :
    btmp.clearCount (l+1) cnt+(if btmp.bitmapScanTest l then 0 else 1) =
      btmp.clearCount l cnt+(if btmp.bitmapScanTest (l+cnt) then 0 else 1) := by
  have h₁ := Nat.count_succ (fun i => btmp.bitmapScanTest (l+i) = false) cnt
  have h₂ := Nat.count_succ' (fun i => btmp.bitmapScanTest (l+i) = false) cnt
  have hfun : (fun i => btmp.bitmapScanTest (l+(i+1)) = false) =
      fun i => btmp.bitmapScanTest (l+1+i) = false := by
    funext i
    rw [show l+(i+1) = l+1+i by omega]
  rw [h₁] at h₂
  simp only [hfun,Nat.add_zero] at h₂
  unfold clearCount
  cases h₃ : btmp.bitmapScanTest l <;> cases h₄ : btmp.bitmapScanTest (l+cnt) <;>
    simp [h₃,h₄] at h₂ ⊢ <;> omega

/-- The loop returns the first position of a window that is clear. -/
theorem scanLoop_eq_some_iff (left : ℕ) (hcnt : 0 < cnt) (k : ℕ) :
    btmp.scanLoop cnt left l (l+cnt) (btmp.clearCount l cnt) = some k ↔
      l ≤ k ∧ k < l+left ∧ btmp.Clear k cnt ∧ ∀ j, l ≤ j → j < k → ¬ btmp.Clear j cnt := by
  induction left generalizing l with
  | zero =>
    simp only [scanLoop,Nat.add_zero,reduceCtorEq,false_iff]
    omega
  | succ left ih =>
    rw [scanLoop]
    by_cases hc : btmp.Clear l cnt
    · rw [if_pos ((btmp.clearCount_eq_iff l cnt).mpr hc)]
      constructor
      · intro h
        obtain rfl := Option.some.inj h
        exact ⟨Nat.le_refl _,by omega,hc,fun j h₁ h₂ => by omega⟩
      · rintro ⟨h₁,h₂,h₃,h₄⟩
        by_contra hne
        have hlt : l < k := lt_of_le_of_ne h₁ fun e => hne (by rw [e])
        exact h₄ l (Nat.le_refl l) hlt hc
    · rw [if_neg fun e => hc ((btmp.clearCount_eq_iff l cnt).mp e)]
      have hslide : (if btmp.bitmapScanTest (l+cnt) then
          (if btmp.bitmapScanTest l then btmp.clearCount l cnt else btmp.clearCount l cnt-1)
          else (if btmp.bitmapScanTest l then btmp.clearCount l cnt else
            btmp.clearCount l cnt-1)+1) = btmp.clearCount (l+1) cnt := by
        have hs := btmp.clearCount_slide l cnt
        have hpos : btmp.bitmapScanTest l = false → 0 < btmp.clearCount l cnt := by
          intro hf
          exact (btmp.clearCount_pos_iff l cnt).mpr ⟨0,hcnt,hf⟩
        cases h₁ : btmp.bitmapScanTest l <;> cases h₂ : btmp.bitmapScanTest (l+cnt) <;>
          simp only [h₁,h₂,Bool.false_eq_true,if_true,if_false] at hs ⊢
        · have := hpos h₁
          omega
        · have := hpos h₁
          omega
        · omega
        · omega
      simp only [hslide]
      rw [show l+cnt+1 = l+1+cnt by omega,ih (l+1)]
      constructor
      · rintro ⟨h₁,h₂,h₃,h₄⟩
        refine ⟨by omega,by omega,h₃,fun j hj₁ hj₂ => ?_⟩
        by_cases hj : j = l
        · exact hj ▸ hc
        · exact h₄ j (by omega) hj₂
      · rintro ⟨h₁,h₂,h₃,h₄⟩
        have hne : k ≠ l := fun e => hc (e ▸ h₃)
        exact ⟨by omega,by omega,h₃,fun j hj₁ hj₂ => h₄ j (by omega) hj₂⟩

/-- bitmap_scan is a first-fit search among the positions that end below the length. -/
theorem bitmapScan_eq_some_iff (hcnt : 0 < cnt) (k : ℕ) :
    btmp.bitmapScan cnt = some k ↔ k+cnt < btmp.btmpBytesLen ∧ btmp.Clear k cnt ∧
      ∀ j, j < k → ¬ btmp.Clear j cnt := by
  have h := btmp.scanLoop_eq_some_iff 0 cnt (btmp.btmpBytesLen-cnt) hcnt k
  rw [Nat.zero_add] at h
  rw [bitmapScan,zeros_eq,h]
  constructor
  · rintro ⟨_,h₂,h₃,h₄⟩
    exact ⟨by omega,h₃,fun j hj => h₄ j (Nat.zero_le j) hj⟩
  · rintro ⟨h₁,h₂,h₃⟩
    exact ⟨Nat.zero_le k,by omega,h₂,fun j _ hj => h₃ j hj⟩

theorem bitmapScan_eq_none_iff (hcnt : 0 < cnt) :
    btmp.bitmapScan cnt = none ↔ ∀ k, k+cnt < btmp.btmpBytesLen → ¬ btmp.Clear k cnt := by
  constructor
  · intro hn k hk hc
    -- the least clear position is a result
    classical
    have hex : ∃ j, btmp.Clear j cnt := ⟨k,hc⟩
    have hle : Nat.find hex ≤ k := Nat.find_min' hex hc
    have hs := (btmp.bitmapScan_eq_some_iff cnt hcnt (Nat.find hex)).mpr
      ⟨by omega,Nat.find_spec hex,fun j hj => Nat.find_min hex hj⟩
    rw [hn] at hs
    contradiction
  · intro h
    cases hs : btmp.bitmapScan cnt with
    | none => rfl
    | some k =>
      obtain ⟨h₁,h₂,-⟩ := (btmp.bitmapScan_eq_some_iff cnt hcnt k).mp hs
      exact absurd h₂ (h k h₁)

/-- The positions that a scan for one bit can return. -/
def free (btmp : Bitmap) : ℕ := btmp.clearCount 0 (btmp.btmpBytesLen-1)

theorem bitmapScan_one_eq_none_iff : btmp.bitmapScan 1 = none ↔ btmp.free = 0 := by
  rw [btmp.bitmapScan_eq_none_iff 1 Nat.one_pos]
  constructor
  · intro h
    by_contra hne
    obtain ⟨k,hk,hc⟩ := (btmp.clearCount_pos_iff 0 _).mp (Nat.pos_of_ne_zero hne)
    rw [Nat.zero_add] at hc
    refine h k (by omega) fun i hi => ?_
    obtain rfl : i = 0 := by omega
    exact hc
  · intro h k hk hc
    have hpos : 0 < btmp.free := by
      apply (btmp.clearCount_pos_iff 0 _).mpr
      exact ⟨k,by omega,by simpa using hc 0 Nat.one_pos⟩
    omega

/-- A scan for one bit takes one of the free positions. -/
theorem free_bitmapSet {k : ℕ} (h : btmp.bitmapScan 1 = some k) :
    (btmp.bitmapSet k true).free+1 = btmp.free := by
  obtain ⟨hlt,hc,-⟩ := (btmp.bitmapScan_eq_some_iff 1 Nat.one_pos k).mp h
  have hk : btmp.bitmapScanTest k = false := by simpa using hc 0 Nat.one_pos
  simp only [free,clearCount,bitmapSet_btmpBytesLen,Nat.zero_add,Nat.count_eq_card_filter_range]
  have hset : (Finset.range (btmp.btmpBytesLen-1)).filter
      (fun i => (btmp.bitmapSet k true).bitmapScanTest i = false) =
      ((Finset.range (btmp.btmpBytesLen-1)).filter
        fun i => btmp.bitmapScanTest i = false).erase k := by
    ext i
    simp only [Finset.mem_filter,Finset.mem_erase,bitmapScanTest_bitmapSet]
    by_cases hi : i = k <;> simp [hi]
  rw [hset]
  apply Finset.card_erase_add_one
  simp only [Finset.mem_filter,Finset.mem_range]
  exact ⟨by omega,hk⟩

end Scan
end Bitmap
end OsKernel

import OsKernel.Print.Screen

/-! What a character does to the text memory and to the cursor, for every 16-bit cursor. -/
namespace OsKernel
open X86

/-- The position that the display controller keeps. -/
def Vga.cursor (v : Vga) : BitVec 16 := v.data 0x0e ++ v.data 0x0f

/-- The controller after set_cursor. -/
def Vga.withCursor (v : Vga) (bx : BitVec 16) : Vga where
  index := 0x0f
  data := Function.update (Function.update v.data 0x0e (bx.extractLsb' 8 8)) 0x0f (bx.setWidth 8)

/-- A character at a cell, with attribute 7. -/
def putCell (m : Mem) (cell : BitVec 16) (c : BitVec 8) : Mem :=
  Function.update (Function.update m (videoBase+(cell <<< 1).setWidth 32) c)
    (videoBase+((cell <<< 1).setWidth 32+1)) 0x07

/-- The start of the line after the one of the cursor. -/
def lineStart (bx : BitVec 16) : BitVec 16 := bx-bx % 80+80

/-- A cursor and a memory after a line feed. -/
def feed (bx : BitVec 16) : BitVec 16 :=
  if (lineStart bx).slt 2000 then lineStart bx else 1920

def feedMem (m : Mem) (bx : BitVec 16) : Mem :=
  if (lineStart bx).slt 2000 then m else scroll m

/-- The character finds its cell in the segment. -/
def Fits (bx : BitVec 16) (c : BitVec 8) : Prop :=
  if c = 0x0d ∨ c = 0x0a then True
  else if c = 0x08 then ((bx-1) <<< 1).toNat ≤ videoLimit
  else (bx <<< 1).toNat ≤ videoLimit

instance (bx : BitVec 16) (c : BitVec 8) : Decidable (Fits bx c) := by
  unfold Fits
  infer_instance

/-- The cursor behind the character at the cursor. -/
def behind (bx : BitVec 16) : BitVec 16 := bx <<< 1 >>> 1+1

/-- The cursor after a character. -/
def advance (bx : BitVec 16) (c : BitVec 8) : BitVec 16 :=
  if c = 0x0d ∨ c = 0x0a then feed bx
  else if c = 0x08 then (bx-1) <<< 1 >>> 1
  else if (behind bx).slt 2000 then behind bx else feed (behind bx)

/-- The memory after a character. -/
def paint (m : Mem) (bx : BitVec 16) (c : BitVec 8) : Mem :=
  if c = 0x0d ∨ c = 0x0a then feedMem m bx
  else if c = 0x08 then putCell m (bx-1) 0x20
  else if (behind bx).slt 2000 then putCell m bx c else feedMem (putCell m bx c) (behind bx)

@[simp] theorem Vga.cursor_withCursor (v : Vga) (bx : BitVec 16) :
    (v.withCursor bx).cursor = bx := by
  simp [cursor,withCursor]

theorem fits_of_lineFeed (bx : BitVec 16) {c : BitVec 8} (h : c = 0x0d ∨ c = 0x0a) : Fits bx c := by
  rw [Fits,if_pos h]
  trivial

section Shifts
variable (v : BitVec 16)

theorem toNat_shiftLeft_one : (v <<< 1).toNat = 2*v.toNat % 2^16 := by
  rw [BitVec.toNat_shiftLeft,Nat.shiftLeft_eq]
  congr 1
  omega

/-- The lowest bit of a doubled number is free. -/
theorem setWidth_shiftLeft_add_one :
    (v <<< 1+1).setWidth 32 = (v <<< 1).setWidth 32+1 := by
  have h := toNat_shiftLeft_one v
  have hs : (v <<< 1+1).toNat = 2*v.toNat % 2^16+1 := by
    rw [BitVec.toNat_add,h]
    simp
    omega
  have hw : ((v <<< 1).setWidth 32).toNat = 2*v.toNat % 2^16 :=
    (BitVec.toNat_setWidth_of_le (by decide)).trans h
  have hr : ((v <<< 1).setWidth 32+1).toNat = 2*v.toNat % 2^16+1 := by
    generalize (v <<< 1).setWidth 32 = w at hw ⊢
    bv_omega
  apply BitVec.eq_of_toNat_eq
  rw [BitVec.toNat_setWidth_of_le (by decide),hs,hr]

theorem shiftLeft_add_one_shiftRight : (v <<< 1+1) >>> 1 = v <<< 1 >>> 1 := by
  have h := toNat_shiftLeft_one v
  have hs : (v <<< 1+1).toNat = 2*v.toNat % 2^16+1 := by
    rw [BitVec.toNat_add,h]
    simp
    omega
  apply BitVec.eq_of_toNat_eq
  rw [BitVec.toNat_ushiftRight,BitVec.toNat_ushiftRight,hs,h,Nat.shiftRight_eq_div_pow,
    Nat.shiftRight_eq_div_pow]
  omega

end Shifts

section Frames
variable {m : Mem} {bx : BitVec 16} {c : BitVec 8} {x : Word}

/-- The memory outside the segment gs. -/
theorem putCell_of_not_span (hb : (bx <<< 1).toNat ≤ videoLimit)
    (hx : ¬Span videoBase (videoLimit+1) x) : putCell m bx c x = m x := by
  have hl : videoLimit = 0x7fff := rfl
  have heven := toNat_shiftLeft_one bx
  have hw : ((bx <<< 1).setWidth 32).toNat = (bx <<< 1).toNat :=
    BitVec.toNat_setWidth_of_le (by decide)
  simp only [Span] at hx
  generalize (bx <<< 1).setWidth 32 = off at hw ⊢
  rw [putCell,Function.update_of_ne,Function.update_of_ne]
  · rintro rfl
    exact hx (by bv_omega)
  · rintro rfl
    exact hx (by bv_omega)

theorem scroll_of_not_span (hx : ¬Span videoBase 4000 x) : scroll m x = m x := by
  unfold scroll blanks shiftUp
  unfold Span at hx
  generalize videoBase = a at hx ⊢
  have hlast : ¬(x-(a+3840)).toNat < 2*80 := by bv_omega
  rw [if_neg hlast,if_neg (by omega)]

theorem feedMem_of_not_span (hx : ¬Span videoBase 4000 x) : feedMem m bx x = m x := by
  unfold feedMem
  split_ifs
  · rfl
  · exact scroll_of_not_span hx

/-- A character that fits changes the segment only. -/
theorem paint_of_not_span (hf : Fits bx c) (hx : ¬Span videoBase (videoLimit+1) x) :
    paint m bx c x = m x := by
  have hx' : ¬Span videoBase 4000 x := fun h => hx (Nat.lt_trans h (by decide))
  unfold Fits at hf
  unfold paint
  split_ifs at hf ⊢ with h₁ h₂ h₃
  · exact feedMem_of_not_span hx'
  · exact putCell_of_not_span hf hx
  · exact putCell_of_not_span hf hx
  · rw [feedMem_of_not_span hx',putCell_of_not_span hf hx]

end Frames
end OsKernel

import OsKernel.Print.Paint

/-! A terminal of 25 lines of 80 cells, and its image in the text memory. -/
namespace OsKernel
open X86

structure Cell where
  char : BitVec 8
  attr : BitVec 8

def Cell.blank : Cell := ⟨0x20,7⟩

/-- The cells line by line, and the position of the cursor among them. -/
structure Terminal where
  cell : Fin 2000 → Cell
  cursor : Fin 2000

namespace Terminal

/-- Lines 1 to 24 move up, and the last line becomes blank. -/
def scroll (t : Terminal) : Terminal where
  cell i := if h : i.val+80 < 2000 then t.cell ⟨i+80,h⟩ else .blank
  cursor := 1920

/-- The cursor moves to a position on the screen, or to the new line below it. -/
def moveTo (t : Terminal) (pos : ℕ) : Terminal :=
  if h : pos < 2000 then { t with cursor := ⟨pos,h⟩ } else t.scroll

theorem moveTo_of_le (t : Terminal) {pos : ℕ} (h : 2000 ≤ pos) : t.moveTo pos = t.scroll :=
  dif_neg (by omega)

def newline (t : Terminal) : Terminal := t.moveTo (80*(t.cursor.val/80+1))

def setCell (t : Terminal) (i : Fin 2000) (c : Cell) : Terminal :=
  { t with cell := Function.update t.cell i c }

def backspace (t : Terminal) : Terminal :=
  if t.cursor.val = 0 then t
  else
    let i : Fin 2000 := ⟨t.cursor-1,by omega⟩
    { t.setCell i .blank with cursor := i }

def put (t : Terminal) (c : BitVec 8) : Terminal := (t.setCell t.cursor ⟨c,7⟩).moveTo (t.cursor.val+1)

/-- What a byte does: carriage return and line feed are one and the same. -/
def step (t : Terminal) (c : BitVec 8) : Terminal :=
  if c = 0x0d ∨ c = 0x0a then t.newline
  else if c = 0x08 then t.backspace
  else t.put c

/-- No backspace is read at the first cell. -/
def Tame : Terminal → List (BitVec 8) → Prop
  | _,[] => True
  | t,c::cs => ¬(c = 0x08 ∧ t.cursor.val = 0) ∧ (t.step c).Tame cs

end Terminal

/-- The cells of the terminal stand in the text memory. -/
def ShowsCells (m : Mem) (t : Terminal) : Prop :=
  ∀ i : Fin 2000, m (videoBase+BitVec.ofNat 32 (2*i)) = (t.cell i).char ∧
    m (videoBase+BitVec.ofNat 32 (2*i+1)) = (t.cell i).attr

section Positions
variable {bx : BitVec 16} {m : Mem} {t : Terminal} {c : BitVec 8} {x : Word}

theorem slt_two_thousand (h : bx.toNat < 2^15) : bx.slt 2000 = decide (bx.toNat < 2000) :=
  slt_eq_decide (by omega) (by decide)

theorem toNat_lineStart (h : bx.toNat ≤ 2000) : (lineStart bx).toNat = 80*(bx.toNat/80+1) := by
  have hmod : (bx % 80).toNat = bx.toNat % 80 := by rw [BitVec.toNat_umod]; rfl
  have hle := Nat.mod_le bx.toNat 80
  have hdiv := Nat.div_add_mod bx.toNat 80
  unfold lineStart
  generalize bx % 80 = r at hmod ⊢
  bv_omega

theorem toNat_behind (h : bx.toNat < 2000) : (behind bx).toNat = bx.toNat+1 := by
  have hs := toNat_shiftLeft_one bx
  have hr : (bx <<< 1 >>> 1).toNat = bx.toNat := by
    rw [BitVec.toNat_ushiftRight,hs,Nat.shiftRight_eq_div_pow]
    omega
  unfold behind
  generalize bx <<< 1 >>> 1 = v at hr ⊢
  bv_omega

theorem toNat_pred (h : bx.toNat < 2000) (h₀ : bx.toNat ≠ 0) : (bx-1).toNat = bx.toNat-1 := by
  bv_omega

/-- The cells that are on the screen are in the segment, and the one before the first is not. -/
theorem fits_iff (h : bx.toNat < 2000) : Fits bx c ↔ ¬(c = 0x08 ∧ bx.toNat = 0) := by
  have hl : videoLimit = 0x7fff := rfl
  unfold Fits
  split_ifs with hcr hbs
  · have hne : c ≠ 0x08 := by
      rcases hcr with h' | h' <;> simp [h']
    exact ⟨fun _ h' => hne h'.1,fun _ => trivial⟩
  · rw [toNat_shiftLeft_one,hl]
    by_cases h₀ : bx.toNat = 0
    · obtain rfl : bx = 0 := BitVec.eq_of_toNat_eq h₀
      simp [hbs]
    · rw [toNat_pred h h₀]
      simp only [hbs,h₀,and_false,not_false_eq_true,iff_true]
      omega
  · rw [toNat_shiftLeft_one,hl]
    simp only [hbs,false_and,not_false_eq_true,iff_true]
    omega

/-- A byte of the text memory after scrolling. -/
theorem scroll_text {k : ℕ} (hk : k < 4000) : scroll m (videoBase+BitVec.ofNat 32 k) =
    if k < 3840 then m (videoBase+BitVec.ofNat 32 (k+160))
    else if k % 2 = 0 then 0x20 else 0x07 := by
  unfold scroll blanks shiftUp
  generalize videoBase = a
  have h₁ : (a+BitVec.ofNat 32 k-a).toNat = k := by bv_omega
  have ha : a+BitVec.ofNat 32 k+160 = a+BitVec.ofNat 32 (k+160) := by bv_omega
  rw [h₁,ha]
  by_cases hrow : k < 3840
  · have h₂ : ¬(a+BitVec.ofNat 32 k-(a+3840)).toNat < 2*80 := by bv_omega
    rw [if_neg h₂,if_pos (by omega),if_pos hrow]
  · have h₂ : (a+BitVec.ofNat 32 k-(a+3840)).toNat = k-3840 := by bv_omega
    have hmod : (k-3840) % 2 = k % 2 := by omega
    rw [h₂,if_pos (by omega),if_neg hrow,hmod]

theorem putCell_text {k : ℕ} (h : bx.toNat < 2000) (hk : k < 4000) :
    putCell m bx c (videoBase+BitVec.ofNat 32 k) =
      if k = 2*bx.toNat then c else if k = 2*bx.toNat+1 then 0x07
      else m (videoBase+BitVec.ofNat 32 k) := by
  have hoff : ((bx <<< 1).setWidth 32).toNat = 2*bx.toNat := by
    rw [BitVec.toNat_setWidth_of_le (by decide),toNat_shiftLeft_one]
    omega
  unfold putCell
  generalize (bx <<< 1).setWidth 32 = off at hoff ⊢
  generalize videoBase = a
  have h₁ : a+BitVec.ofNat 32 k = a+(off+1) ↔ k = 2*bx.toNat+1 := by
    constructor <;> intro h' <;> bv_omega
  have h₀ : a+BitVec.ofNat 32 k = a+off ↔ k = 2*bx.toNat := by
    constructor <;> intro h' <;> bv_omega
  rw [Function.update_apply,Function.update_apply]
  simp only [h₀,h₁]
  split_ifs
  · omega
  all_goals rfl

/-- Other memory than that of the cells on the screen. -/
theorem putCell_of_not_text (h : bx.toNat < 2000) (hx : ¬Span videoBase 4000 x) :
    putCell m bx c x = m x := by
  have hoff : ((bx <<< 1).setWidth 32).toNat = 2*bx.toNat := by
    rw [BitVec.toNat_setWidth_of_le (by decide),toNat_shiftLeft_one]
    omega
  unfold putCell
  unfold Span at hx
  generalize (bx <<< 1).setWidth 32 = off at hoff ⊢
  generalize videoBase = a at hx ⊢
  rw [Function.update_of_ne (by bv_omega),Function.update_of_ne (by bv_omega)]

end Positions

section Steps
variable {bx : BitVec 16} {m : Mem} {t : Terminal} {c : BitVec 8} {x : Word}

theorem ShowsCells.scroll (h : ShowsCells m t) : ShowsCells (scroll m) t.scroll := by
  intro i
  have hi := i.isLt
  rw [scroll_text (by omega),scroll_text (by omega)]
  by_cases hrow : i.val+80 < 2000
  · have hcell : t.scroll.cell i = t.cell ⟨i+80,hrow⟩ := dif_pos hrow
    rw [if_pos (by omega),if_pos (by omega),hcell]
    exact h ⟨i+80,hrow⟩
  · have hcell : t.scroll.cell i = .blank := dif_neg hrow
    rw [if_neg (by omega),if_pos (by omega),if_neg (by omega),if_neg (by omega),hcell]
    exact ⟨rfl,rfl⟩

theorem ShowsCells.putCell (h : ShowsCells m t) (hb : bx.toNat < 2000) (c : BitVec 8) :
    ShowsCells (putCell m bx c) (t.setCell ⟨bx.toNat,hb⟩ ⟨c,7⟩) := by
  intro i
  have hi := i.isLt
  rw [putCell_text hb (by omega),putCell_text hb (by omega)]
  unfold Terminal.setCell
  by_cases he : i = ⟨bx.toNat,hb⟩
  · subst he
    simp
  · have hne : i.val ≠ bx.toNat := fun h' => he (Fin.ext h')
    rw [if_neg (by omega),if_neg (by omega),if_neg (by omega),if_neg (by omega)]
    simp only [Function.update_of_ne he]
    exact h i

/-- The common end of a line feed and of a byte in the last cell. -/
theorem ShowsCells.moveTo (h : ShowsCells m t) {pos : BitVec 16} (hpos : pos.toNat < 2^15) :
    ShowsCells (if pos.slt 2000 then m else OsKernel.scroll m) (t.moveTo pos.toNat) ∧
      (if pos.slt 2000 then pos else 1920).toNat = (t.moveTo pos.toNat).cursor := by
  rw [slt_two_thousand hpos]
  unfold Terminal.moveTo
  by_cases hlt : pos.toNat < 2000
  · simp only [hlt,decide_true,if_true,dif_pos]
    exact ⟨h,trivial⟩
  · simp only [hlt,decide_false,Bool.false_eq_true,if_false,dif_neg,not_false_eq_true]
    exact ⟨h.scroll,rfl⟩

theorem ShowsCells.feed (h : ShowsCells m t) (hb : bx.toNat ≤ 2000) :
    ShowsCells (feedMem m bx) (t.moveTo (80*(bx.toNat/80+1))) ∧
      (feed bx).toNat = (t.moveTo (80*(bx.toNat/80+1))).cursor := by
  have hline := toNat_lineStart hb
  rw [← hline]
  exact h.moveTo (by omega)

/-- A byte that is written into a cell. -/
theorem ShowsCells.put (h : ShowsCells m t) (hb : bx.toNat = t.cursor.val) (c : BitVec 8) :
    ShowsCells (if (behind bx).slt 2000 then OsKernel.putCell m bx c
        else feedMem (OsKernel.putCell m bx c) (behind bx)) (t.put c) ∧
      (if (behind bx).slt 2000 then behind bx else OsKernel.feed (behind bx)).toNat =
        (t.put c).cursor := by
  have hlt : bx.toNat < 2000 := hb ▸ t.cursor.isLt
  have hcell : ShowsCells (OsKernel.putCell m bx c) (t.setCell t.cursor ⟨c,7⟩) := by
    have hc := h.putCell hlt c
    simp only [hb] at hc
    exact hc
  have hpos := toNat_behind hlt
  have hput : t.put c = (t.setCell t.cursor ⟨c,7⟩).moveTo (behind bx).toNat := by
    rw [hpos,hb]
    rfl
  rw [hput,slt_two_thousand (by omega)]
  by_cases hlast : (behind bx).toNat < 2000
  · have hm := hcell.moveTo (show (behind bx).toNat < 2^15 by omega)
    rw [slt_two_thousand (by omega)] at hm
    simp only [hlast,decide_true,if_true] at hm ⊢
    exact hm
  · have hm := hcell.feed (show (behind bx).toNat ≤ 2000 by omega)
    rw [Terminal.moveTo_of_le _ (by omega)] at hm ⊢
    simp only [hlast,decide_false,Bool.false_eq_true,if_false]
    exact hm

theorem ShowsCells.backspace (h : ShowsCells m t) (hb : bx.toNat = t.cursor.val)
    (h₀ : bx.toNat ≠ 0) : ShowsCells (OsKernel.putCell m (bx-1) 0x20) t.backspace ∧
      ((bx-1) <<< 1 >>> 1).toNat = t.backspace.cursor := by
  have hlt : bx.toNat < 2000 := hb ▸ t.cursor.isLt
  have hp := toNat_pred hlt h₀
  have hcell := h.putCell (show (bx-1).toNat < 2000 by omega) 0x20
  have hsh : ((bx-1) <<< 1 >>> 1).toNat = (bx-1).toNat := by
    rw [BitVec.toNat_ushiftRight,toNat_shiftLeft_one,Nat.shiftRight_eq_div_pow]
    omega
  simp only [hp,hb] at hcell hsh
  rw [hsh,Terminal.backspace,if_neg (hb ▸ h₀)]
  exact ⟨hcell,rfl⟩

/-- A byte that is not a backspace at the first cell is a step of the terminal. -/
theorem ShowsCells.step (h : ShowsCells m t) (hb : bx.toNat = t.cursor.val)
    (hc : ¬(c = 0x08 ∧ bx.toNat = 0)) :
    ShowsCells (paint m bx c) (t.step c) ∧ (advance bx c).toNat = (t.step c).cursor := by
  have hlt : bx.toNat < 2000 := hb ▸ t.cursor.isLt
  unfold paint advance Terminal.step
  by_cases hcr : c = 0x0d ∨ c = 0x0a
  · simp only [if_pos hcr]
    have hf := h.feed hlt.le
    rw [hb] at hf
    exact hf
  · simp only [if_neg hcr]
    by_cases hbs : c = 0x08
    · simp only [if_pos hbs]
      exact h.backspace hb fun h₀ => hc ⟨hbs,h₀⟩
    · simp only [if_neg hbs]
      exact h.put hb c

/-- A byte changes the 4000 bytes of the cells only. -/
theorem paint_of_not_text (hb : bx.toNat < 2000) (hc : ¬(c = 0x08 ∧ bx.toNat = 0))
    (hx : ¬Span videoBase 4000 x) : paint m bx c x = m x := by
  unfold paint
  split_ifs with h₁ h₂ h₃
  · exact feedMem_of_not_span hx
  · have hp := toNat_pred hb fun h₀ => hc ⟨h₂,h₀⟩
    exact putCell_of_not_text (by omega) hx
  · exact putCell_of_not_text hb hx
  · rw [feedMem_of_not_span hx,putCell_of_not_text hb hx]

end Steps
end OsKernel

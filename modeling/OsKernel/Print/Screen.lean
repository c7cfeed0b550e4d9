import OsKernel.Print.Text

/-! What single instructions change, and the two loops of the scrolling code. -/
namespace OsKernel
open X86

namespace Pc

section Instructions
variable (s : Pc) (r r' : Reg) (w : Word) (v : BitVec 16) (b : BitVec 8)

@[simp] theorem reg_setReg : (s.setReg r w).reg r' = if r' = r then w else s.reg r' :=
  Function.update_apply _ _ _ _

@[simp] theorem setReg_setReg (w' : Word) : (s.setReg r w).setReg r w' = s.setReg r w' := by
  simp only [setReg,Cpu.setReg,Function.update_idem]

@[simp] theorem reg_mov16 :
    (s.mov16 r v).reg r' = if r' = r then withLow16 (s.reg r) v else s.reg r' := s.reg_setReg _ _ _

@[simp] theorem reg_movLow8 :
    (s.movLow8 r b).reg r' = if r' = r then withLow8 (s.reg r) b else s.reg r' := s.reg_setReg _ _ _

@[simp] theorem reg_movHigh8 :
    (s.movHigh8 r b).reg r' = if r' = r then withHigh8 (s.reg r) b else s.reg r' :=
  s.reg_setReg _ _ _

@[simp] theorem reg_movSeg (g : Seg) : (s.movSeg g v).reg r = s.reg r := rfl

@[simp] theorem reg_setMem (m : Mem) : (s.setMem m).reg r = s.reg r := rfl

@[simp] theorem cpu_outDxAl : s.outDxAl.cpu = s.cpu := by
  unfold outDxAl
  dsimp only
  split_ifs <;> rfl

@[simp] theorem reg_outDxAl : s.outDxAl.reg r = s.reg r :=
  congrFun (congrArg Cpu.reg s.cpu_outDxAl) r

@[simp] theorem reg_inAlDx : s.inAlDx.reg r = if r = .eax then withLow8 (s.reg .eax)
    (if low16 (s.reg .edx) = 0x03d5 then s.vga.data s.vga.index else s.vga.index)
    else s.reg r := s.reg_setReg _ _ _

@[simp] theorem vga_outDxAl : s.outDxAl.vga =
    if low16 (s.reg .edx) = 0x03d4 then { s.vga with index := low8 (s.reg .eax) }
    else if low16 (s.reg .edx) = 0x03d5 then
      { s.vga with data := Function.update s.vga.data s.vga.index (low8 (s.reg .eax)) }
    else s.vga := by
  unfold outDxAl
  dsimp only
  split_ifs <;> rfl

@[simp] theorem mem_setReg : (s.setReg r w).mem = s.mem := rfl
@[simp] theorem vga_setReg : (s.setReg r w).vga = s.vga := rfl
@[simp] theorem vga_mov16 : (s.mov16 r v).vga = s.vga := rfl
@[simp] theorem vga_movLow8 : (s.movLow8 r b).vga = s.vga := rfl
@[simp] theorem vga_movHigh8 : (s.movHigh8 r b).vga = s.vga := rfl
@[simp] theorem vga_inAlDx : s.inAlDx.vga = s.vga := rfl

end Instructions

/-- The memory has become m, and only the registers in R may have changed. -/
structure Moves (R : List Reg) (s : Pc) (m : Mem) (s' : Pc) : Prop where
  mem : s'.mem = m
  reg : ∀ r, r ∉ R → s'.reg r = s.reg r
  seg : s'.cpu.seg = s.cpu.seg
  vga : s'.vga = s.vga
  eflags : s'.cpu.eflags = s.cpu.eflags

section Moves
variable {s s' s'' : Pc} {R R' : List Reg} {m m' : Mem}

theorem Moves.refl (s : Pc) : Moves [] s s.mem s := ⟨rfl,fun _ _ => rfl,rfl,rfl,rfl⟩

theorem Moves.trans (h : Moves R s m s') (h' : Moves R s' m' s'') : Moves R s m' s'' :=
  ⟨h'.mem,fun r hr => (h'.reg r hr).trans (h.reg r hr),h'.seg.trans h.seg,h'.vga.trans h.vga,
    h'.eflags.trans h.eflags⟩

theorem Moves.mono (h : Moves R s m s') (hR : ∀ r, r ∈ R → r ∈ R') : Moves R' s m s' :=
  ⟨h.mem,fun r hr => h.reg r fun hr' => hr (hR r hr'),h.seg,h.vga,h.eflags⟩

theorem Moves.setReg (h : Moves R s m s') {r : Reg} (hr : r ∈ R) (w : Word) :
    Moves R s m (s'.setReg r w) := by
  refine ⟨h.mem,fun r' hr' => ?_,h.seg,h.vga,h.eflags⟩
  have hne : r' ≠ r := fun he => hr' (he ▸ hr)
  rw [reg_setReg,if_neg hne,h.reg r' hr']

theorem Moves.setMem (h : Moves R s m s') (m' : Mem) : Moves R s m' (s'.setMem m') :=
  ⟨rfl,h.reg,h.seg,h.vga,h.eflags⟩

end Moves
end Pc

/-- The words from dst on have got the values of those 160 bytes further up. -/
def shiftUp (m : Mem) (dst : Word) (n : ℕ) : Mem := fun x =>
  if (x-dst).toNat < 4*n then m (x+160) else m x

/-- The n cells from an offset into the text memory on have become blanks. -/
def blanks (m : Mem) (off : Word) (n : ℕ) : Mem := fun x =>
  if (x-(videoBase+off)).toNat < 2*n then
    if (x-(videoBase+off)).toNat % 2 = 0 then 0x20 else 0x07
  else m x

/-- Rows 1 to 24 have moved up, and the last row is blank. -/
def scroll (m : Mem) : Mem := blanks (shiftUp m videoBase 960) 3840 80

section Loops
variable {m : Mem} {dst off x : Word} {n : ℕ}

theorem shiftUp_zero : shiftUp m dst 0 = m := by
  funext x
  exact if_neg (Nat.not_lt_zero _)

/-- One word more at the front. -/
theorem shiftUp_succ (hn : 4*(n+1)+160 ≤ 2^32) : shiftUp m dst (n+1) =
    shiftUp (store m dst (load m (dst+160))) (dst+4) n := by
  funext x
  have hload : ∀ y : Word, (y-dst).toNat < 4 → store m dst (load m (dst+160)) y = m (y+160) := by
    intro y hy
    have ha : dst+160+BitVec.ofNat 32 (y-dst).toNat = y+160 := by
      rw [BitVec.ofNat_toNat,BitVec.setWidth_eq]
      bv_omega
    rw [store,if_pos hy,extractLsb'_load m _ hy,ha]
  have hother : ∀ y : Word, ¬ (y-dst).toNat < 4 → store m dst (load m (dst+160)) y = m y :=
    fun y hy => if_neg hy
  unfold shiftUp
  by_cases h₁ : (x-dst).toNat < 4*(n+1)
  · rw [if_pos h₁]
    by_cases h₂ : (x-dst).toNat < 4
    · rw [if_neg (by bv_omega),hload x h₂]
    · rw [if_pos (by bv_omega),hother _ (by bv_omega)]
  · rw [if_neg h₁,if_neg (by bv_omega),hother _ (by bv_omega)]

theorem blanks_zero : blanks m off 0 = m := by
  funext x
  exact if_neg (Nat.not_lt_zero _)

theorem blanks_succ (hn : 2*(n+1) ≤ 2^32) : blanks m off (n+1) =
    blanks (Function.update (Function.update m (videoBase+off) 0x20) (videoBase+off+1) 0x07)
      (off+2) n := by
  funext x
  have ha : videoBase+(off+2) = videoBase+off+2 := by bv_omega
  unfold blanks
  rw [ha]
  generalize videoBase+off = a
  by_cases h₀ : x = a
  · subst h₀
    have hne : x ≠ x+1 := by bv_omega
    rw [if_pos (by simp),if_pos (by simp),if_neg (by bv_omega),Function.update_of_ne hne,
      Function.update_self]
  by_cases h₁ : x = a+1
  · subst h₁
    have h1 : (a+1-a).toNat = 1 := by bv_omega
    rw [h1,if_pos (by omega),if_neg (by decide),if_neg (by bv_omega),Function.update_self]
  · rw [Function.update_of_ne h₁,Function.update_of_ne h₀]
    have hge : 2 ≤ (x-a).toNat := by bv_omega
    have hsub : (x-(a+2)).toNat = (x-a).toNat-2 := by bv_omega
    rw [hsub]
    by_cases h : (x-a).toNat < 2*(n+1)
    · have hmod : ((x-a).toNat-2) % 2 = (x-a).toNat % 2 := by omega
      have h₂ : (x-a).toNat-2 < 2*n := by omega
      rw [if_pos h,if_pos h₂,hmod]
    · rw [if_neg h,if_neg (by omega)]

end Loops

namespace Pc
variable {s : Pc}

/-- rep movsd on overlapping words copies upwards. -/
theorem repMovsdRounds_moves (n : ℕ) (hn : 4*n+160 ≤ 2^32)
    (hsi : s.reg .esi = s.reg .edi+160) :
    Moves [.ecx,.esi,.edi] s (shiftUp s.mem (s.reg .edi) n) (s.repMovsdRounds n) := by
  induction n generalizing s with
  | zero =>
    rw [shiftUp_zero]
    exact (Moves.refl s).mono (by simp)
  | succ n ih =>
    rw [shiftUp_succ hn,← hsi]
    have hstep : Moves [.ecx,.esi,.edi] s (store s.mem (s.reg .edi) (load s.mem (s.reg .esi)))
        (s.movsd.setReg .ecx (s.reg .ecx-1)) :=
      (((((Moves.refl s).setMem _).mono (by simp)).setReg (by simp) _).setReg (by simp) _).setReg
        (by simp) _
    have hedi : (s.movsd.setReg .ecx (s.reg .ecx-1)).reg .edi = s.reg .edi+4 := by
      simp [movsd]
    have hesi : (s.movsd.setReg .ecx (s.reg .ecx-1)).reg .esi =
        (s.movsd.setReg .ecx (s.reg .ecx-1)).reg .edi+160 := by
      rw [hedi]
      simp [movsd,hsi,BitVec.add_assoc]
    have hrest := ih (by omega) hesi
    rw [hedi,hstep.mem] at hrest
    exact hstep.trans hrest

/-- One blank cell. -/
theorem cls_eq (hgs : s.cpu.seg .gs = selectorVideo) (hb : (s.reg .ebx).toNat+1 ≤ videoLimit) :
    s.cls = .ok ((s.setMem (Function.update (Function.update s.mem (videoBase+s.reg .ebx) 0x20)
      (videoBase+s.reg .ebx+1) 0x07)).setReg .ebx (s.reg .ebx+2)) := by
  simp only [cls,gsStore16,hgs,hb,and_self,if_true]
  rfl

/-- One round of the loop at the labels .cls, up to the test of the counter. -/
theorem cls_round (hgs : s.cpu.seg .gs = selectorVideo) (hb : (s.reg .ebx).toNat+1 ≤ videoLimit) :
    ∃ s', s.cls = .ok s' ∧ s'.reg .ecx = s.reg .ecx ∧ s'.reg .ebx = s.reg .ebx+2 ∧
      Moves [.ecx,.ebx] s (Function.update (Function.update s.mem (videoBase+s.reg .ebx) 0x20)
        (videoBase+s.reg .ebx+1) 0x07) s' := by
  have hmem := (Moves.refl s).setMem (Function.update (Function.update s.mem
    (videoBase+s.reg .ebx) 0x20) (videoBase+s.reg .ebx+1) 0x07)
  have hmoves : Moves [.ecx,.ebx] s _ _ := hmem.mono (by simp)
  exact ⟨_,cls_eq hgs hb,by simp,by simp,hmoves.setReg (by simp) _⟩

/-- The instruction loop keeps an invariant that counts the rounds to come. -/
theorem loop_run {body : Pc → Except Fault Pc} {I : ℕ → Pc → Prop}
    (hbody : ∀ k s, I (k+1) s → ∃ s', body s = .ok s' ∧ s'.reg .ecx = s.reg .ecx ∧
      I k (s'.setReg .ecx (s'.reg .ecx-1)))
    {n : ℕ} (hn : n+1 < 2^32) (hecx : s.reg .ecx = BitVec.ofNat 32 (n+1)) (h : I (n+1) s) :
    ∃ s', loop body s (n+1) = .ok s' ∧ I 0 s' := by
  induction n generalizing s with
  | zero =>
    obtain ⟨s',hs,hcx,hI⟩ := hbody 0 s h
    rw [loop,hs,bind_of_ok rfl]
    dsimp only
    rw [if_neg (by simp [hcx,hecx])]
    exact ⟨_,rfl,hI⟩
  | succ n ih =>
    obtain ⟨s',hs,hcx,hI⟩ := hbody _ s h
    have hecx' : (s'.setReg .ecx (s'.reg .ecx-1)).reg .ecx = BitVec.ofNat 32 (n+1) := by
      rw [reg_setReg,if_pos rfl,hcx,hecx]
      bv_omega
    have hne : BitVec.ofNat 32 (n+1) ≠ 0 := by
      intro he
      have hnat := congrArg BitVec.toNat he
      rw [BitVec.toNat_ofNat,Nat.mod_eq_of_lt (by omega)] at hnat
      exact Nat.succ_ne_zero n hnat
    rw [loop,hs,bind_of_ok rfl]
    dsimp only
    rw [if_pos (hecx' ▸ hne)]
    exact ih (by omega) hecx' hI

/-- The loop at .cls with k rounds to come: what they do to the memory ends in m. -/
structure ClsRounds (s₀ : Pc) (m : Mem) (k : ℕ) (s : Pc) : Prop where
  moves : Moves [.ecx,.ebx] s₀ s.mem s
  rest : blanks s.mem (s.reg .ebx) k = m
  bound : (s.reg .ebx).toNat+2*k ≤ videoLimit+1

/-- The loop of both labels .cls. -/
theorem loop_cls {n : ℕ} (hgs : s.cpu.seg .gs = selectorVideo)
    (hecx : s.reg .ecx = BitVec.ofNat 32 (n+1))
    (hb : (s.reg .ebx).toNat+2*(n+1) ≤ videoLimit+1) :
    ∃ s', loop cls s (n+1) = .ok s' ∧
      Moves [.ecx,.ebx] s (blanks s.mem (s.reg .ebx) (n+1)) s' := by
  have hlimit : videoLimit = 0x7fff := rfl
  have hround : ∀ k s', ClsRounds s (blanks s.mem (s.reg .ebx) (n+1)) (k+1) s' →
      ∃ s'', s'.cls = .ok s'' ∧ s''.reg .ecx = s'.reg .ecx ∧
        ClsRounds s (blanks s.mem (s.reg .ebx) (n+1)) k (s''.setReg .ecx (s''.reg .ecx-1)) := by
    intro k s' h
    have hbound := h.bound
    obtain ⟨s'',hs,hcx,hbx,hm⟩ := cls_round (h.moves.seg ▸ hgs) (by omega)
    have hbx' : (s''.setReg .ecx (s''.reg .ecx-1)).reg .ebx = s'.reg .ebx+2 := hbx
    have hmem : (s''.setReg .ecx (s''.reg .ecx-1)).mem = s''.mem := rfl
    refine ⟨s'',hs,hcx,?_,?_,?_⟩
    · rw [hmem,hm.mem]
      exact (h.moves.trans hm).setReg (by simp) _
    · rw [hmem,hm.mem,hbx',← blanks_succ (by omega)]
      exact h.rest
    · rw [hbx']
      bv_omega
  have hself : Moves [.ecx,.ebx] s s.mem s := (Moves.refl s).mono (by simp)
  obtain ⟨s',hs,h⟩ := loop_run hround (by omega) hecx ⟨hself,rfl,hb⟩
  have hmem := h.rest
  rw [blanks_zero] at hmem
  exact ⟨s',hs,hmem ▸ h.moves⟩

end Pc
end OsKernel

import OsKernel.Print.Paint

/-! put_char as one step on the memory and the cursor. The four ends of the routine share the
frame that pushad has made; each is run from any state inside the routine. -/
namespace OsKernel
open X86

namespace Pc

/-- The state in which a routine leaves its caller. -/
def returned (s₀ : Pc) (m : Mem) (bx : BitVec 16) : Pc where
  cpu :=
    { reg := Function.update s₀.cpu.reg .esp (s₀.reg .esp+4)
      seg := Function.update s₀.cpu.seg .gs selectorVideo
      eip := load s₀.mem (s₀.reg .esp)
      eflags := s₀.cpu.eflags
      mem := m }
  vga := s₀.vga.withCursor bx

/-- The frame of pushad stands on top of the return address. -/
def Framed (s₀ : Pc) (m : Mem) : Prop :=
  Holds m (s₀.reg .esp-32) (s₀.cpu.saved++[load s₀.mem (s₀.reg .esp)])

/-- The stretch of stack that a routine uses lies outside the text memory. -/
def StackApart (s₀ : Pc) (below above : ℕ) : Prop :=
  ∀ x, Span (s₀.reg .esp-BitVec.ofNat 32 below) (below+above) x →
    ¬Span videoBase (videoLimit+1) x

/-- A state between pushad and popad: of the processor, nothing but memory, gs and registers has
changed since the start of the routine. -/
structure Inside (s₀ : Pc) (m : Mem) (s : Pc) : Prop where
  esp : s.reg .esp = s₀.reg .esp-32
  mem : s.mem = m
  seg : s.cpu.seg = Function.update s₀.cpu.seg .gs selectorVideo
  eflags : s.cpu.eflags = s₀.cpu.eflags

/-- The cursor has not been set yet. -/
structure Body (s₀ : Pc) (m : Mem) (s : Pc) : Prop extends Inside s₀ m s where
  data : s.vga.data = s₀.vga.data

variable {s₀ s s' : Pc} {m m' : Mem} {R : List Reg} {r : Reg}

theorem Inside.setReg (h : Inside s₀ m s) (hr : r ≠ .esp) (w : Word) :
    Inside s₀ m (s.setReg r w) := by
  refine ⟨?_,h.mem,h.seg,h.eflags⟩
  rw [reg_setReg,if_neg hr.symm,h.esp]

theorem Inside.outDxAl (h : Inside s₀ m s) : Inside s₀ m s.outDxAl := by
  have hcpu := s.cpu_outDxAl
  refine ⟨?_,?_,?_,?_⟩
  · exact (s.reg_outDxAl _).trans h.esp
  · exact (congrArg Cpu.mem hcpu).trans h.mem
  · exact (congrArg Cpu.seg hcpu).trans h.seg
  · exact (congrArg Cpu.eflags hcpu).trans h.eflags

/-- One access to a port. -/
theorem Inside.out (h : Inside s₀ m s) (port : BitVec 16) (b : BitVec 8) :
    Inside s₀ m ((s.mov16 .edx port).movLow8 .eax b).outDxAl :=
  ((h.setReg (r := .edx) (by decide) _).setReg (r := .eax) (by decide) _).outDxAl

theorem Inside.inAl (h : Inside s₀ m s) (port : BitVec 16) :
    Inside s₀ m (s.mov16 .edx port).inAlDx :=
  (h.setReg (by decide) _).setReg (by decide) _

theorem Body.setReg (h : Body s₀ m s) (hr : r ≠ .esp) (w : Word) : Body s₀ m (s.setReg r w) :=
  ⟨h.toInside.setReg hr w,h.data⟩

theorem Body.mov16 (h : Body s₀ m s) (hr : r ≠ .esp) (v : BitVec 16) :
    Body s₀ m (s.mov16 r v) := h.setReg hr _

theorem Body.setMem (h : Body s₀ m s) (m' : Mem) : Body s₀ m' (s.setMem m') :=
  ⟨⟨h.esp,rfl,h.seg,h.eflags⟩,h.data⟩

theorem Body.moves (h : Body s₀ m s) (hm : Moves R s m' s') (hR : .esp ∉ R) : Body s₀ m' s' :=
  ⟨⟨(hm.reg _ hR).trans h.esp,hm.mem,hm.seg.trans h.seg,hm.eflags.trans h.eflags⟩,
    (congrArg Vga.data hm.vga).trans h.data⟩

theorem Body.gs (h : Body s₀ m s) : s.cpu.seg .gs = selectorVideo := by
  rw [h.seg,Function.update_self]

/-- Painting keeps the frame. -/
theorem Framed.congr (hf : Framed s₀ m) (ha : StackApart s₀ 32 4)
    (hm : ∀ x, ¬Span videoBase (videoLimit+1) x → m' x = m x) : Framed s₀ m' :=
  Holds.congr hf (by simp [Cpu.saved]) fun x hx => hm x (ha x hx)

/-- The instructions of set_cursor before popad. -/
theorem Inside.setCursor_prelude (h : Inside s₀ m s) : ∃ s', s.setCursor = s'.popad.ret ∧
    Inside s₀ m s' ∧ s'.vga = s.vga.withCursor (low16 (s.reg .ebx)) := by
  refine ⟨_,rfl,?_,?_⟩
  · exact (((h.out 0x03d4 _).out 0x03d5 _).out 0x03d4 _).out 0x03d5 _
  · simp [Vga.withCursor]

/-- The tail that all routines share. -/
theorem Body.setCursor (h : Body s₀ m s) (hf : Framed s₀ m) :
    s.setCursor = returned s₀ m (low16 (s.reg .ebx)) := by
  obtain ⟨s',hs,hin,hv⟩ := h.toInside.setCursor_prelude
  have hesp : s'.cpu.esp = s₀.cpu.esp-32 := hin.esp
  have hmem : s'.cpu.mem = m := hin.mem
  have hframe : Holds s'.cpu.mem s'.cpu.esp (s₀.cpu.saved++[load s₀.mem (s₀.reg .esp)]) := by
    rw [hesp,hmem]
    exact hf
  have hvga : s'.vga = s₀.vga.withCursor (low16 (s.reg .ebx)) := by
    rw [hv,Vga.withCursor,h.data]
    rfl
  rw [hs]
  unfold popad ret returned
  rw [Cpu.popad_ret hesp hframe,hvga,hin.seg,hin.eflags,hmem]
  rfl

/-- The label .roll_screen. -/
theorem Body.rollScreen (h : Body s₀ m s) (hf : Framed s₀ m) (ha : StackApart s₀ 32 4) :
    s.rollScreen = .ok (returned s₀ (scroll m) 1920) := by
  have h₁ : Body s₀ m (((s.setReg .ecx 960).setReg .esi 0xc00b80a0).setReg .edi 0xc00b8000) :=
    ((h.setReg (by decide) _).setReg (by decide) _).setReg (by decide) _
  have hm₂ := repMovsdRounds_moves (s := ((s.setReg .ecx 960).setReg .esi 0xc00b80a0).setReg .edi
    0xc00b8000) 960 (by decide) rfl
  rw [h₁.mem] at hm₂
  have h₂ := h₁.moves hm₂ (by decide)
  have h₃ := (h₂.setReg (r := .ebx) (by decide) 3840).setReg (r := .ecx) (by decide) 80
  have hlast : (3840 : Word).toNat+2*(79+1) ≤ videoLimit+1 := by decide
  obtain ⟨s₄,hs₄,hm₄⟩ := loop_cls (n := 79) h₃.gs rfl hlast
  rw [h₃.mem] at hm₄
  have hframe : Framed s₀ (scroll m) := hf.congr ha fun x hx =>
    scroll_of_not_span fun h => hx (Nat.lt_trans h (by decide))
  have h₄ : Body s₀ (scroll m) (s₄.mov16 .ebx 1920) :=
    (h₃.moves hm₄ (by decide)).setReg (by decide) _
  have hcursor := h₄.setCursor hframe
  rw [reg_mov16,if_pos rfl,low16_withLow16] at hcursor
  exact (bind_of_ok hs₄).trans (congrArg Except.ok hcursor)

/-- The division of dx:ax when dx is zero. -/
theorem div16_eq (hdx : low16 (s.reg .edx) = 0) (hd : low16 (s.reg r) ≠ 0) : s.div16 r =
    .ok ((s.mov16 .eax (low16 (s.reg .eax)/low16 (s.reg r))).mov16 .edx
      (low16 (s.reg .eax) % low16 (s.reg r))) := by
  have hpos : (low16 (s.reg r)).toNat ≠ 0 := fun h => hd (BitVec.eq_of_toNat_eq h)
  have hlt := (low16 (s.reg .eax)).isLt
  have hdiv := Nat.div_le_self (low16 (s.reg .eax)).toNat (low16 (s.reg r)).toNat
  have hzero : (low16 (s.reg .edx)).toNat = 0 := by rw [hdx]; rfl
  have hq : BitVec.ofNat 16 ((low16 (s.reg .eax)).toNat/(low16 (s.reg r)).toNat) =
      low16 (s.reg .eax)/low16 (s.reg r) := by
    rw [← BitVec.toNat_udiv,BitVec.ofNat_toNat,BitVec.setWidth_eq]
  have hr : BitVec.ofNat 16 ((low16 (s.reg .eax)).toNat % (low16 (s.reg r)).toNat) =
      low16 (s.reg .eax) % low16 (s.reg r) := by
    rw [← BitVec.toNat_umod,BitVec.ofNat_toNat,BitVec.setWidth_eq]
  unfold div16
  dsimp only
  rw [hzero,Nat.zero_mul,Nat.zero_add,if_neg (by omega),hq,hr]

/-- The label .is_line_feed up to the comparison. -/
theorem Body.lineStart (h : Body s₀ m s) : ∃ s', Body s₀ m s' ∧
    low16 (s'.reg .ebx) = lineStart (low16 (s.reg .ebx)) ∧ s.isLineFeed =
      if (low16 (s'.reg .ebx)).slt 2000 then .ok s'.setCursor else s'.rollScreen := by
  have hdiv := div16_eq (s := ((s.mov16 .edx 0).mov16 .eax (low16 (s.reg .ebx))).mov16 .esi 80)
    (r := .esi) (by simp) (by simp)
  have h₁ : Body s₀ m (((s.mov16 .edx 0).mov16 .eax (low16 (s.reg .ebx))).mov16 .esi 80) :=
    ((h.setReg (by decide) _).setReg (by decide) _).setReg (by decide) _
  refine ⟨_,?_,?_,bind_of_ok hdiv⟩
  · exact (((h₁.setReg (by decide) _).setReg (by decide) _).setReg (by decide) _).setReg
      (by decide) _
  · simp [OsKernel.lineStart]

/-- The label .is_line_feed. -/
theorem Body.isLineFeed (h : Body s₀ m s) (hf : Framed s₀ m) (ha : StackApart s₀ 32 4) :
    s.isLineFeed = .ok (returned s₀ (feedMem m (low16 (s.reg .ebx)))
      (feed (low16 (s.reg .ebx)))) := by
  obtain ⟨s',hb,hbx,hs⟩ := h.lineStart
  rw [hs,hbx,feed,feedMem]
  split_ifs
  · rw [hb.setCursor hf,hbx]
  · exact hb.rollScreen hf ha

theorem Body.gsStore8 (h : Body s₀ m s) (off : Word) (b : BitVec 8) : s.gsStore8 off b =
    if off.toNat ≤ videoLimit then .ok (s.storeByte (videoBase+off) b)
    else .error .protection := by
  simp only [Pc.gsStore8,h.gs,true_and]

/-- The instructions that write the cell bx, and those that follow. -/
theorem Body.writeCell (h : Body s₀ m s) (c : BitVec 8) : ∃ s',
    Body s₀ (putCell m (low16 (s.reg .ebx)) c) s' ∧
    low16 (s'.reg .ebx) = low16 (s.reg .ebx) <<< 1 >>> 1 ∧ ∀ next : Pc → Except Fault Pc,
      ((s.mov16 .ebx (low16 (s.reg .ebx) <<< 1)).gsStore8
          ((low16 ((s.mov16 .ebx (low16 (s.reg .ebx) <<< 1)).reg .ebx)).setWidth 32) c >>= fun s =>
        (s.mov16 .ebx (low16 (s.reg .ebx)+1)).gsStore8
            ((low16 ((s.mov16 .ebx (low16 (s.reg .ebx)+1)).reg .ebx)).setWidth 32) 0x07 >>= fun s =>
          next (s.mov16 .ebx (low16 (s.reg .ebx) >>> 1))) =
        if (low16 (s.reg .ebx) <<< 1).toNat ≤ videoLimit then next s' else .error .protection := by
  have hl : videoLimit = 0x7fff := rfl
  have heven := toNat_shiftLeft_one (low16 (s.reg .ebx))
  generalize hbx : low16 (s.reg .ebx) = bx at heven ⊢
  have hoff : ((bx <<< 1).setWidth 32).toNat = (bx <<< 1).toNat :=
    BitVec.toNat_setWidth_of_le (by decide)
  have hoff' : ((bx <<< 1).setWidth 32+1).toNat = (bx <<< 1).toNat+1 := by
    rw [← hoff]
    generalize (bx <<< 1).setWidth 32 = off at hoff ⊢
    bv_omega
  have h₁ := h.mov16 (r := .ebx) (by decide) (bx <<< 1)
  have h₂ := h₁.setMem (Function.update m (videoBase+(bx <<< 1).setWidth 32) c)
  have h₃ := h₂.mov16 (r := .ebx) (by decide) (bx <<< 1+1)
  have h₄ := h₃.setMem (putCell m bx c)
  refine ⟨_,h₄.mov16 (r := .ebx) (by decide) (bx <<< 1 >>> 1),by simp,fun next => ?_⟩
  rw [h₁.gsStore8]
  simp only [reg_mov16,if_true,low16_withLow16,hoff]
  split_ifs with hfit
  · rw [bind_of_ok rfl,storeByte,h₁.mem]
    simp only [reg_setMem,reg_mov16,if_true,low16_withLow16,setWidth_shiftLeft_add_one]
    rw [h₃.gsStore8,if_pos (by omega),bind_of_ok rfl,storeByte,h₃.mem]
    simp only [reg_setMem,reg_mov16,if_true,low16_withLow16,shiftLeft_add_one_shiftRight]
    rfl
  · rfl

/-- The label .is_backspace. -/
theorem Body.isBackspace (h : Body s₀ m s) (hf : Framed s₀ m) (ha : StackApart s₀ 32 4) :
    s.isBackspace = if ((low16 (s.reg .ebx)-1) <<< 1).toNat ≤ videoLimit then
      .ok (returned s₀ (putCell m (low16 (s.reg .ebx)-1) 0x20)
        ((low16 (s.reg .ebx)-1) <<< 1 >>> 1)) else .error .protection := by
  obtain ⟨s',hb,hbx,hnext⟩ :=
    (h.mov16 (r := .ebx) (by decide) (low16 (s.reg .ebx)-1)).writeCell 0x20
  have hs : s.isBackspace = _ := hnext fun s => .ok s.setCursor
  have hv : low16 ((s.mov16 .ebx (low16 (s.reg .ebx)-1)).reg .ebx) = low16 (s.reg .ebx)-1 := by
    simp
  rw [hv] at hb hbx hs
  rw [hs]
  split_ifs with hfit
  · have hf' := hf.congr ha fun x hx => putCell_of_not_span (c := 0x20) hfit hx
    rw [hb.setCursor hf',hbx]
  · rfl

/-- The label .put_other. -/
theorem Body.putOther (h : Body s₀ m s) (hf : Framed s₀ m) (ha : StackApart s₀ 32 4) :
    let bx := low16 (s.reg .ebx)
    let m' := putCell m bx (low8 (s.reg .ecx))
    s.putOther = if (bx <<< 1).toNat ≤ videoLimit then
      if (behind bx).slt 2000 then .ok (returned s₀ m' (behind bx))
      else .ok (returned s₀ (feedMem m' (behind bx)) (feed (behind bx)))
      else .error .protection := by
  intro bx m'
  obtain ⟨s',hb,hbx,hnext⟩ := h.writeCell (low8 (s.reg .ecx))
  have hs : s.putOther = _ := hnext fun s =>
    if (low16 ((s.mov16 .ebx (low16 (s.reg .ebx)+1)).reg .ebx)).slt 2000 then
      .ok (s.mov16 .ebx (low16 (s.reg .ebx)+1)).setCursor
    else (s.mov16 .ebx (low16 (s.reg .ebx)+1)).isLineFeed
  have hb' := hb.mov16 (r := .ebx) (by decide) (low16 (s'.reg .ebx)+1)
  have hbx' : low16 ((s'.mov16 .ebx (low16 (s'.reg .ebx)+1)).reg .ebx) = behind bx := by
    rw [reg_mov16,if_pos rfl,low16_withLow16,hbx]
    rfl
  rw [hbx'] at hs
  rw [hs]
  by_cases hfit : (bx <<< 1).toNat ≤ videoLimit
  · rw [if_pos hfit,if_pos hfit]
    have hf' : Framed s₀ m' := hf.congr ha fun x hx => putCell_of_not_span hfit hx
    split_ifs
    · rw [hb'.setCursor hf',hbx']
    · rw [hb'.isLineFeed hf' ha,hbx']
  · rw [if_neg hfit,if_neg hfit]

/-- The part of put_char that reads the cursor. -/
theorem Body.getCursor (h : Body s₀ m s) :
    Body s₀ m s.getCursor ∧ low16 (s.getCursor.reg .ebx) = s.vga.cursor := by
  constructor
  · refine ⟨?_,by simpa [Pc.getCursor] using h.data⟩
    have hin := h.toInside
    exact (((((hin.out 0x03d4 0x0e).inAl 0x03d5).setReg (by decide) _).out 0x03d4 0x0f).inAl
      0x03d5).setReg (by decide) _
  · simp [Pc.getCursor,Vga.cursor]

/-- The argument of a routine. -/
def arg (s : Pc) : Word := load s.mem (s.reg .esp+4)

/-- A routine after pushad and the loading of gs. -/
theorem body_enter (s₀ : Pc) : Body s₀ s₀.pushad.mem ((s₀.pushad.mov16 .eax selectorVideo).movSeg .gs
    (low16 ((s₀.pushad.mov16 .eax selectorVideo).reg .eax))) := by
  have hesp : s₀.pushad.reg .esp = s₀.reg .esp-32 := Cpu.pushad_esp
  have hgs : low16 ((s₀.pushad.mov16 .eax selectorVideo).reg .eax) = selectorVideo := by simp
  rw [hgs]
  refine ⟨⟨?_,rfl,rfl,rfl⟩,rfl⟩
  rw [reg_movSeg,reg_mov16,if_neg (by decide),hesp]

theorem framed_pushad (s₀ : Pc) : Framed s₀ s₀.pushad.mem := by
  have h : Holds s₀.cpu.mem s₀.cpu.esp [load s₀.mem (s₀.reg .esp)] := ⟨rfl,trivial⟩
  have hp := Cpu.pushad_holds h (by simp)
  rw [Cpu.pushad_esp] at hp
  exact hp

/-- pushad leaves the argument alone. -/
theorem load_pushad_arg (s : Pc) : load s.pushad.mem (s.reg .esp-32+36) = s.arg := by
  have ha : s.reg .esp-32+36 = s.reg .esp+4 := by bv_omega
  rw [ha]
  refine load_congr fun x hx => Cpu.pushad_mem fun h => ?_
  simp only [Span,Cpu.esp] at h hx
  simp only [reg] at hx
  bv_omega

/-- put_char, for every cursor and every argument. -/
theorem putChar_eq (ha : StackApart s 32 4) : s.putChar =
    if Fits s.vga.cursor (low8 s.arg) then
      .ok (returned s (paint s.pushad.mem s.vga.cursor (low8 s.arg))
        (advance s.vga.cursor (low8 s.arg)))
    else .error .protection := by
  obtain ⟨h₁,hbx⟩ := (body_enter s).getCursor
  have hf := framed_pushad s
  have hload := load_pushad_arg s
  have hvga : s.vga.cursor = ((s.pushad.mov16 .eax selectorVideo).movSeg .gs
    (low16 ((s.pushad.mov16 .eax selectorVideo).reg .eax))).vga.cursor := rfl
  unfold putChar
  dsimp only
  rw [← hvga] at hbx
  generalize Pc.getCursor _ = g at h₁ hbx ⊢
  rw [h₁.mem,h₁.esp,hload]
  have hb : Body s s.pushad.mem (g.setReg .ecx s.arg) := h₁.setReg (by decide) _
  have hcx : (g.setReg .ecx s.arg).reg .ecx = s.arg := by simp
  have hbx' : low16 ((g.setReg .ecx s.arg).reg .ebx) = s.vga.cursor := hbx
  have hfeed := hb.isLineFeed hf ha
  have hback := hb.isBackspace hf ha
  have hother := hb.putOther hf ha
  rw [hbx'] at hfeed hback hother
  rw [hcx] at hother ⊢
  rw [hfeed,hback,hother]
  generalize low8 s.arg = c
  by_cases hcr : c = 0x0d ∨ c = 0x0a
  · rw [if_pos (fits_of_lineFeed _ hcr),paint,if_pos hcr,advance,if_pos hcr]
    rcases hcr with h | h
    · rw [if_pos h]
    · rw [if_pos h,ite_self]
  · obtain ⟨h₁,h₂⟩ := not_or.mp hcr
    rw [if_neg h₁,if_neg h₂,paint,if_neg hcr,advance,if_neg hcr]
    by_cases hbs : c = 0x08
    · rw [if_pos hbs,if_pos hbs,if_pos hbs]
      exact if_congr (by rw [Fits,if_neg hcr,if_pos hbs]) rfl rfl
    · rw [if_neg hbs,if_neg hbs,if_neg hbs]
      refine if_congr (by rw [Fits,if_neg hcr,if_neg hbs]) ?_ rfl
      split_ifs <;> rfl

end Pc
end OsKernel

import OsKernel.Print.Number
import OsKernel.Print.Terminal

/-! What the callers of print.S rely on. The screen is a terminal, and every entry point returns
to its caller: both hold exactly as long as no character is written beyond the text memory, and
set_cursor never returns as a function. -/
namespace OsKernel
open X86

namespace Terminal

def run (t : Terminal) (cs : List (BitVec 8)) : Terminal := cs.foldl step t

end Terminal

/-- The machine shows a terminal: its cells in the text memory, its cursor in the controller. -/
structure Pc.Shows (s : Pc) (t : Terminal) : Prop where
  cells : ShowsCells s.mem t
  cursor : s.vga.cursor.toNat = t.cursor.val

/-- A routine returns with the terminal on the screen, and has written nothing but the 4000 bytes
of the cells and n bytes below the stack pointer. -/
def Draws (s : Pc) (n : ℕ) (t : Terminal) (x : Except Fault Pc) : Prop :=
  ∃ s', x = .ok s' ∧ s'.Shows t ∧
    ∀ a, ¬Span videoBase 4000 a → ¬s.Below n a → s'.mem a = s.mem a

section Runs
variable {m m' : Mem} {bx : BitVec 16} {t : Terminal} {cs : List (BitVec 8)} {x : Word}

/-- A text memory with a given terminal in it. -/
def image (t : Terminal) : Mem := fun x =>
  if h : (x-videoBase).toNat < 4000 then
    let cell := t.cell ⟨(x-videoBase).toNat/2,by omega⟩
    if (x-videoBase).toNat % 2 = 0 then cell.char else cell.attr
  else 0

theorem showsCells_image (t : Terminal) : ShowsCells (image t) t := by
  intro i
  have hi := i.isLt
  have hoff : ∀ k < 4000, (videoBase+BitVec.ofNat 32 k-videoBase).toNat = k := by
    intro k hk
    generalize videoBase = a
    bv_omega
  have h₀ := hoff (2*i) (by omega)
  have h₁ := hoff (2*i+1) (by omega)
  unfold image
  simp only [h₀,h₁]
  rw [dif_pos (by omega),dif_pos (by omega),if_pos (by omega),if_neg (by omega)]
  have hd : (2*i.val+1)/2 = i := by omega
  simp [hd]

/-- On the screen, the segment is only left by a backspace at the first cell. -/
theorem fitsAll_iff_tame (hb : bx.toNat = t.cursor.val) : FitsAll bx cs ↔ t.Tame cs := by
  induction cs generalizing bx t with
  | nil => exact Iff.rfl
  | cons c cs ih =>
    have hlt : bx.toNat < 2000 := hb ▸ t.cursor.isLt
    have hfit : Fits bx c ↔ ¬(c = 0x08 ∧ t.cursor.val = 0) := hb ▸ fits_iff hlt
    have hrest (h : ¬(c = 0x08 ∧ t.cursor.val = 0)) :
        FitsAll (advance bx c) cs ↔ (t.step c).Tame cs :=
      ih ((showsCells_image t).step hb (hb ▸ h)).2
    constructor
    · rintro ⟨hf,hs⟩
      exact ⟨hfit.mp hf,(hrest (hfit.mp hf)).mp hs⟩
    · rintro ⟨hf,hs⟩
      exact ⟨hfit.mpr hf,(hrest hf).mpr hs⟩

theorem ShowsCells.run (h : ShowsCells m t) (hb : bx.toNat = t.cursor.val) (ht : t.Tame cs) :
    ShowsCells (paintAll m bx cs) (t.run cs) ∧
      (cs.foldl advance bx).toNat = (t.run cs).cursor.val := by
  induction cs generalizing m bx t with
  | nil => exact ⟨h,hb⟩
  | cons c cs ih =>
    obtain ⟨hc,hb'⟩ := h.step hb (hb ▸ ht.1)
    exact ih hc hb' ht.2

theorem paintAll_of_not_text (h : ShowsCells m t) (hb : bx.toNat = t.cursor.val) (ht : t.Tame cs)
    (hx : ¬Span videoBase 4000 x) : paintAll m bx cs x = m x := by
  induction cs generalizing m bx t with
  | nil => rfl
  | cons c cs ih =>
    obtain ⟨hc,hb'⟩ := h.step hb (hb ▸ ht.1)
    have hlt : bx.toNat < 2000 := hb ▸ t.cursor.isLt
    exact (ih hc hb' ht.2).trans (paint_of_not_text hlt (hb ▸ ht.1) hx)

theorem ShowsCells.congr (h : ShowsCells m t) (hm : ∀ x, InVideo x → m' x = m x) :
    ShowsCells m' t := by
  intro i
  have hi := i.isLt
  have hvideo : ∀ k < 4000, InVideo (videoBase+BitVec.ofNat 32 k) := by
    intro k hk
    have hl : videoLimit = 0x7fff := rfl
    simp only [InVideo,Span,hl]
    generalize videoBase = a
    bv_omega
  rw [hm _ (hvideo _ (by omega)),hm _ (hvideo _ (by omega))]
  exact h i

end Runs

namespace Pc
variable {s s' : Pc} {t : Terminal} {cs : List (BitVec 8)} {n : ℕ}

/-- Printing a tame text is running the terminal. -/
theorem Prints.shows (hs : s.Shows t) (ht : t.Tame cs) (hp : Prints (Below s n) cs s s') :
    s'.Shows (t.run cs) ∧ ∀ a, ¬Span videoBase 4000 a → ¬Below s n a → s'.mem a = s.mem a := by
  obtain ⟨hcells,hcursor⟩ := hs.cells.run hs.cursor ht
  refine ⟨⟨hcells.congr hp.text,?_⟩,fun a ha hb => ?_⟩
  · rw [hp.cursor]
    exact hcursor
  · by_cases hv : InVideo a
    · rw [hp.text a hv,paintAll_of_not_text hs.cells hs.cursor ht ha]
    · exact hp.frame a hv hb

/-- put_char prints its argument and returns, if the argument fits. -/
theorem putChar_ends (ha : StackApart s 32 4) : EndsIf (FitsAll s.vga.cursor [low8 s.arg])
    (fun s' => Returns s s' ∧ Prints (Below s 32) [low8 s.arg] s s') .protection s.putChar := by
  refine EndsIf.congr ⟨fun hf => ?_,fun hf => ?_⟩ (iff_of_eq (and_true _)).symm
  · exact ⟨_,(putChar_eq ha).trans (if_pos hf),returned_returns _ _ _,putChar_prints ha hf⟩
  · exact (putChar_eq ha).trans (if_neg hf)

theorem StackApart.mono {n n' k : ℕ} (ha : StackApart s n k) (hn : n' ≤ n) (hn' : n+k < 2^32) :
    StackApart s n' k := by
  intro x hx
  refine ha x ?_
  simp only [Span] at hx ⊢
  bv_omega

end Pc

/-- put_char is a step of the terminal, and put_str a run of it, exactly when no backspace is
read at the first cell. -/
theorem print_terminal_iff (l : Link) (s : Pc) (t : Terminal) (hs : s.Shows t)
    (ha : s.StackApart 48 4) :
    (Draws s 32 (t.step (low8 s.arg)) s.putChar ↔ ¬(low8 s.arg = 0x08 ∧ t.cursor.val = 0)) ∧
    ∀ cs rounds, Pc.StringAt s.mem s.arg cs → cs.length < rounds →
      (∀ x, Span s.arg (cs.length+1) x → ¬s.Below 48 x ∧ ¬InVideo x) →
      (Draws s 48 (t.run cs) (s.putStr l rounds) ↔ t.Tame cs) := by
  constructor
  · have hends := (Pc.putChar_ends (ha.mono (by decide) (by decide))).congr
      (fitsAll_iff_tame hs.cursor)
    refine (hends.iff_of fun ht s' hp => hp.2.shows hs ht).trans ?_
    exact iff_of_eq (and_true _)
  · intro cs rounds hstr hn hapart
    have hends := (Pc.putStr_prints l hn ha hstr hapart).congr (fitsAll_iff_tame hs.cursor)
    exact hends.iff_of fun ht s' hp => hp.2.shows hs ht

/-- The stack at 0xc009ef00 with a byte as the argument, and the cursor at the first cell of an
empty screen. -/
def atHome (c : BitVec 8) : Pc where
  cpu :=
    { reg := fun r => if r = .esp then 0xc009ef00 else 0
      seg := fun _ => 0
      eip := 0
      eflags := 0
      mem := fun x => if x = 0xc009ef04 then c else 0 }
  vga := ⟨0,fun _ => 0⟩

theorem cells_pos : 0 < 2000 := by decide

def emptyScreen : Terminal := ⟨fun _ => ⟨0,0⟩,⟨0,cells_pos⟩⟩

theorem atHome_shows (c : BitVec 8) : (atHome c).Shows emptyScreen := by
  refine ⟨fun i => ?_,by show (0 ++ 0 : BitVec 16).toNat = 0; decide⟩
  have hi := i.isLt
  have hne : ∀ k < 4000, videoBase+BitVec.ofNat 32 k ≠ 0xc009ef04 := by
    intro k hk he
    have hnat := congrArg BitVec.toNat he
    rw [BitVec.toNat_add,BitVec.toNat_ofNat,videoBase] at hnat
    simp at hnat
    omega
  exact ⟨if_neg (hne _ (by omega)),if_neg (hne _ (by omega))⟩

theorem atHome_apart (c : BitVec 8) : (atHome c).StackApart 72 4 := by
  intro x hx
  have hx' : Span (0xc009ef00-72) 76 x := hx
  have hl : videoLimit = 0x7fff := rfl
  simp only [Span,hl,videoBase] at hx' ⊢
  bv_omega

theorem print_letter_at_home :
    Draws (atHome 0x41) 32 (emptyScreen.step 0x41) (atHome 0x41).putChar := by
  have harg : low8 (atHome 0x41).arg = 0x41 := by decide
  have hiff := (print_terminal_iff ⟨0,0,0⟩ (atHome 0x41) emptyScreen (atHome_shows _)
    ((atHome_apart _).mono (by decide) (by decide))).1
  rw [harg] at hiff
  exact hiff.mpr (by decide)

/-- A backspace at the first cell is written beyond the segment, where the terminal stays as it
is. -/
theorem putChar_backspace_home : ∃ (s : Pc) (t : Terminal), s.Shows t ∧ s.StackApart 48 4 ∧
    low8 s.arg = 0x08 ∧ t.cursor = 0 ∧ t.step (low8 s.arg) = t ∧
    s.putChar = .error .protection ∧ ¬Draws s 32 (t.step (low8 s.arg)) s.putChar := by
  have ha : (atHome 0x08).StackApart 48 4 := (atHome_apart _).mono (by decide) (by decide)
  have hfault : (atHome 0x08).putChar = .error .protection := by
    rw [Pc.putChar_eq (ha.mono (by decide) (by decide)),if_neg]
    decide
  refine ⟨atHome 0x08,emptyScreen,atHome_shows _,ha,?_,rfl,?_,hfault,?_⟩
  · decide
  · rfl
  · rintro ⟨s',hs,-⟩
    rw [hfault] at hs
    cases hs

/-- The global labels of print.S. -/
inductive Entry
  | putChar | putStr | putInt | clsScreen | setCursor
  deriving DecidableEq

/-- A call of an entry point, from the state after the call instruction. -/
def Entry.run (l : Link) (rounds : ℕ) : Entry → Pc → Except Fault Pc
  | .putChar,s => s.putChar
  | .putStr,s => s.putStr l rounds
  | .putInt,s => s.putInt l
  | .clsScreen,s => s.clsScreen
  | .setCursor,s => .ok s.setCursor

/-- What the argument of an entry point stands for, as a text to be printed. -/
inductive Request (l : Link) (s : Pc) : Entry → List (BitVec 8) → Prop
  | putChar : Request l s .putChar [low8 s.arg]
  | putStr {cs : List (BitVec 8)} (string : Pc.StringAt s.mem s.arg cs)
      (apart : ∀ x, Span s.arg (cs.length+1) x → ¬s.Below 48 x ∧ ¬InVideo x) :
      Request l s .putStr cs
  | putInt (apart : s.BufferApart l 72 4) : Request l s .putInt (intText s.arg)
  | clsScreen : Request l s .clsScreen []
  | setCursor : Request l s .setCursor []

/-- The calling convention, and the position that set_cursor is asked for. -/
def Obeys (e : Entry) (s : Pc) (x : Except Fault Pc) : Prop :=
  ∃ s', x = .ok s' ∧ s.Returns s' ∧ (e = .setCursor → s'.vga.cursor = low16 s.arg)

namespace Pc
variable {s : Pc} {m : Mem}

/-- The screen is cleared and the cursor is at the first cell. -/
theorem clsScreen_eq (ha : StackApart s 32 4) :
    s.clsScreen = .ok (returned s (blanks s.pushad.mem 0 2000) 0) := by
  have h₁ := ((body_enter s).setReg (r := .ebx) (by decide) 0).setReg (r := .ecx) (by decide) 2000
  have hbound : (0 : Word).toNat+2*(1999+1) ≤ videoLimit+1 := by decide
  obtain ⟨s',hs,hm⟩ := loop_cls (n := 1999) h₁.gs rfl hbound
  rw [h₁.mem] at hm
  have hbx : ((((s.pushad.mov16 .eax selectorVideo).movSeg .gs
      (low16 ((s.pushad.mov16 .eax selectorVideo).reg .eax))).setReg .ebx 0).setReg .ecx
      2000).reg .ebx = 0 := by
    rw [reg_setReg,if_neg (by decide),reg_setReg,if_pos rfl]
  rw [hbx] at hm
  have h₂ := (h₁.moves hm (by decide)).setReg (r := .ebx) (by decide) 0
  have hframe : Framed s (blanks s.pushad.mem 0 2000) := by
    refine (framed_pushad s).congr ha fun x hx => if_neg fun h => hx ?_
    have hl : videoLimit = 0x7fff := rfl
    simp only [Span,hl]
    generalize videoBase = a at h ⊢
    bv_omega
  have hcursor := h₂.setCursor hframe
  rw [reg_setReg,if_pos rfl] at hcursor
  exact (bind_of_ok hs).trans (congrArg Except.ok hcursor)

/-- set_cursor takes a frame of pushad from the stack, which its caller has not made. -/
theorem setCursor_esp (s : Pc) : s.setCursor.reg .esp = s.reg .esp+36 := by
  have hpop : ∀ s : Pc, s.popad.ret.reg .esp = s.reg .esp+32+4 := by
    intro s
    simp [popad,ret,reg,Cpu.popad,Cpu.ret,Cpu.addEsp,Cpu.setReg,Cpu.esp]
  unfold setCursor
  dsimp only
  rw [hpop]
  simp only [reg_outDxAl,reg_movLow8,reg_mov16,reduceCtorEq,if_false]
  bv_omega

end Pc

/-- A routine that ends in a return whenever it ends without a fault. -/
theorem obeys_iff {f : Prop} {P : Pc → Prop} {e : Entry} {s : Pc} {x : Except Fault Pc}
    (h : EndsIf f (fun s' => s.Returns s' ∧ P s') .protection x) (he : e ≠ .setCursor) :
    Obeys e s x ↔ e ≠ .setCursor ∧ f := by
  have hiff : Obeys e s x ↔ f := h.iff_of fun _ s' hs => ⟨hs.1,fun hc => absurd hc he⟩
  exact hiff.trans (and_iff_right he).symm

/-- An entry point obeys the calling convention exactly when it is not set_cursor and all
characters that it prints find their cell in the segment. -/
theorem entry_obeys_iff (l : Link) (s : Pc) (e : Entry) (cs : List (BitVec 8)) (rounds : ℕ)
    (hr : Request l s e cs) (ha : s.StackApart 72 4) (hn : cs.length < rounds) :
    Obeys e s (e.run l rounds s) ↔ e ≠ .setCursor ∧ FitsAll s.vga.cursor cs := by
  cases hr with
  | putChar =>
    exact obeys_iff (Pc.putChar_ends (ha.mono (by decide) (by decide))) (by decide)
  | putStr string apart =>
    exact obeys_iff (Pc.putStr_prints l hn (ha.mono (by decide) (by decide)) string apart)
      (by decide)
  | putInt apart =>
    exact obeys_iff (Pc.putInt_prints ha apart) (by decide)
  | clsScreen =>
    have hcls := Pc.clsScreen_eq (ha.mono (by decide) (by decide))
    refine iff_of_true ⟨_,hcls,s.returned_returns _ _,fun h => ?_⟩ ⟨by decide,trivial⟩
    cases h
  | setCursor =>
    refine iff_of_false ?_ fun h => h.1 rfl
    rintro ⟨s',hs,hret,-⟩
    obtain rfl : s.setCursor = s' := Except.ok.inj hs
    have hesp := hret.esp
    rw [Pc.setCursor_esp] at hesp
    bv_omega

theorem clsScreen_obeys_at_home : Obeys .clsScreen (atHome 0) (atHome 0).clsScreen :=
  (entry_obeys_iff ⟨0,0,0⟩ (atHome 0) .clsScreen [] 1 .clsScreen (atHome_apart _)
    (by decide)).mpr ⟨by decide,trivial⟩

/-- A call of set_cursor does not return to its caller. -/
theorem setCursor_disobeys : ∃ s : Pc, s.StackApart 72 4 ∧
    (∀ l, Request l s .setCursor []) ∧
    ∀ l rounds, ¬Obeys .setCursor s (Entry.setCursor.run l rounds s) := by
  refine ⟨atHome 0,atHome_apart _,fun l => .setCursor,fun l rounds => ?_⟩
  rintro ⟨s',hs,hret,-⟩
  obtain rfl : (atHome 0).setCursor = s' := Except.ok.inj hs
  have hesp := hret.esp
  rw [Pc.setCursor_esp] at hesp
  bv_omega

end OsKernel

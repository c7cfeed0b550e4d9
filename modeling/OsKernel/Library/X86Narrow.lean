import OsKernel.Library.X86View
import Mathlib.Tactic.IntervalCases

/-! The 16-bit and 8-bit parts of a register, and pushad and popad as single steps. -/
namespace X86

def low16 (w : Word) : BitVec 16 := w.setWidth 16
def low8 (w : Word) : BitVec 8 := w.setWidth 8
def high8 (w : Word) : BitVec 8 := w.extractLsb' 8 8

def withLow16 (w : Word) (v : BitVec 16) : Word := w.extractLsb' 16 16 ++ v
def withLow8 (w : Word) (b : BitVec 8) : Word := w.extractLsb' 8 24 ++ b
def withHigh8 (w : Word) (b : BitVec 8) : Word := w.extractLsb' 16 16 ++ b ++ w.extractLsb' 0 8

section Parts

lemma setWidth_append_of_le {m n k : ℕ} (x : BitVec m) (y : BitVec n) (h : k ≤ n) :
    (x ++ y).setWidth k = y.setWidth k := by
  ext i hi
  simp [BitVec.getLsbD_append,show i < n by omega]

lemma extractLsb'_append_of_le {m n k d : ℕ} (x : BitVec m) (y : BitVec n) (h : d+k ≤ n) :
    (x ++ y).extractLsb' d k = y.extractLsb' d k := by
  ext i hi
  simp [BitVec.getLsbD_append,show d+i < n by omega]

lemma setWidth_append_add {m n k : ℕ} (x : BitVec m) (y : BitVec n) :
    (x ++ y).setWidth (k+n) = x.setWidth k ++ y := by
  ext i hi
  by_cases h : i < n
  · simp [BitVec.getElem_append,h]
  · simp [BitVec.getElem_append,h]

lemma extractLsb'_append {m n k : ℕ} (x : BitVec m) (y : BitVec n) :
    (x ++ y).extractLsb' n k = x.setWidth k := by
  ext i hi
  simp [BitVec.getLsbD_append]

lemma extractLsb'_append_add {m n k d : ℕ} (x : BitVec m) (y : BitVec n) :
    (x ++ y).extractLsb' (n+d) k = x.extractLsb' d k := by
  ext i hi
  simp [BitVec.getLsbD_append,show ¬ n+d+i < n by omega,show n+d+i-n = d+i by omega]

/-- The bytes of a word in memory. -/
lemma extractLsb'_load (mem : Mem) (a : Word) {k : ℕ} (hk : k < 4) :
    (load mem a).extractLsb' (8*k) 8 = mem (a+BitVec.ofNat 32 k) := by
  have hself (b : BitVec 8) : b.extractLsb' 0 8 = b := BitVec.extractLsb'_eq_self
  have h0 : (load mem a).extractLsb' 0 8 = mem a :=
    (extractLsb'_append_of_le _ (mem a) (by decide)).trans (hself _)
  have h1 : (load mem a).extractLsb' 8 8 = mem (a+1) :=
    (extractLsb'_append_add (d := 0) (mem (a+3) ++ mem (a+2) ++ mem (a+1)) (mem a)).trans
      ((extractLsb'_append_of_le _ (mem (a+1)) (by decide)).trans (hself _))
  have h2 : (load mem a).extractLsb' 16 8 = mem (a+2) :=
    (extractLsb'_append_add (d := 8) (mem (a+3) ++ mem (a+2) ++ mem (a+1)) (mem a)).trans
      ((extractLsb'_append_add (d := 0) (mem (a+3) ++ mem (a+2)) (mem (a+1))).trans
        ((extractLsb'_append_of_le _ (mem (a+2)) (by decide)).trans (hself _)))
  have h3 : (load mem a).extractLsb' 24 8 = mem (a+3) :=
    (extractLsb'_append_add (d := 16) (mem (a+3) ++ mem (a+2) ++ mem (a+1)) (mem a)).trans
      ((extractLsb'_append_add (d := 8) (mem (a+3) ++ mem (a+2)) (mem (a+1))).trans
        ((extractLsb'_append_add (d := 0) (mem (a+3)) (mem (a+2))).trans (hself _)))
  interval_cases k
  · exact h0.trans (congrArg mem (BitVec.add_zero a).symm)
  · exact h1
  · exact h2
  · exact h3

/-- A word is made of its upper part and its lower part. -/
lemma extractLsb'_append_setWidth {n m k : ℕ} (x : BitVec n) :
    x.extractLsb' k m ++ x.setWidth k = x.setWidth (m+k) := by
  ext i hi
  by_cases hk : i < k
  · simp [BitVec.getElem_append,hk]
  · simp [BitVec.getElem_append,hk,show k+(i-k) = i by omega]

/-- A signed comparison of two numbers without sign. -/
lemma slt_eq_decide {n : ℕ} {x y : BitVec n} (hx : 2*x.toNat < 2^n) (hy : 2*y.toNat < 2^n) :
    x.slt y = decide (x.toNat < y.toNat) := by
  rw [BitVec.slt,BitVec.toInt_eq_toNat_of_lt hx,BitVec.toInt_eq_toNat_of_lt hy]
  simp

variable (w : Word) (v : BitVec 16) (b b' : BitVec 8)

@[simp] lemma low16_withLow16 : low16 (withLow16 w v) = v :=
  (setWidth_append_of_le _ v (by decide)).trans v.setWidth_eq

@[simp] lemma low8_withLow8 : low8 (withLow8 w b) = b :=
  (setWidth_append_of_le _ b (by decide)).trans b.setWidth_eq

@[simp] lemma low8_withLow16 : low8 (withLow16 w v) = v.setWidth 8 :=
  setWidth_append_of_le _ v (by decide)

@[simp] lemma high8_withLow16 : high8 (withLow16 w v) = v.extractLsb' 8 8 :=
  extractLsb'_append_of_le _ v (by decide)

lemma setWidth_extractLsb'_eight : (w.extractLsb' 8 24).setWidth 8 = high8 w := by
  ext i hi
  simp [high8,show i < 24 by omega]

@[simp] lemma high8_withLow8 : high8 (withLow8 w b) = high8 w :=
  (extractLsb'_append _ b).trans (setWidth_extractLsb'_eight w)

@[simp] lemma high8_withHigh8 : high8 (withHigh8 w b) = b :=
  (extractLsb'_append (w.extractLsb' 16 16 ++ b) (w.extractLsb' 0 8)).trans
    ((setWidth_append_of_le _ b (by decide)).trans b.setWidth_eq)

@[simp] lemma setWidth_low16 : (low16 w).setWidth 8 = low8 w := by
  ext i hi
  simp [low16,low8]

@[simp] lemma extractLsb'_low16 : (low16 w).extractLsb' 8 8 = high8 w := by
  ext i hi
  simp [low16,high8,show 8+i < 16 by omega]

/-- The two bytes in ah and al. -/
@[simp] lemma low16_withLow8 : low16 (withLow8 w b) = high8 w ++ b := by
  have hs := setWidth_append_add (k := 8) (w.extractLsb' 8 24) b
  rw [setWidth_extractLsb'_eight] at hs
  exact hs

@[simp] lemma high8_append_low8 : v.extractLsb' 8 8 ++ v.setWidth 8 = v :=
  (extractLsb'_append_setWidth v).trans v.setWidth_eq

end Parts

namespace Cpu
variable (c : Cpu)

def pushad : Cpu :=
  (((((((c.push (c.reg .eax)).push (c.reg .ecx)).push (c.reg .edx)).push (c.reg .ebx)).push
    (c.reg .esp)).push (c.reg .ebp)).push (c.reg .esi)).push (c.reg .edi)

def popad : Cpu :=
  (((((((c.addEsp 32).setReg .edi c.top).setReg .esi (c.addEsp 4).top).setReg .ebp
    (c.addEsp 8).top).setReg .ebx (c.addEsp 16).top).setReg .edx (c.addEsp 20).top).setReg .ecx
    (c.addEsp 24).top).setReg .eax (c.addEsp 28).top

def ret : Cpu := {c.addEsp 4 with eip := c.top}

/-- The words that pushad pushes. -/
def saved : List Word :=
  [c.reg .edi,c.reg .esi,c.reg .ebp,c.reg .esp,c.reg .ebx,c.reg .edx,c.reg .ecx,c.reg .eax]

end Cpu

section Frames
variable {c c₀ : Cpu} {ws : List Word}

lemma exec_popad (env : Env) : exec env .popad c = c.popad := rfl

@[simp] lemma Cpu.push_seg (w : Word) : (c.push w).seg = c.seg := rfl

@[simp] lemma Cpu.push_esp (w : Word) : (c.push w).esp = c.esp-4 := by
  simp [push,esp]

lemma Cpu.push_reg_of_ne (w : Word) {r : Reg} (hr : r ≠ .esp) : (c.push w).reg r = c.reg r :=
  Function.update_of_ne hr _ _

lemma Cpu.push_holds (h : Holds c.mem c.esp ws) (w : Word) (hl : 4*ws.length+4 ≤ 2^32) :
    Holds (c.push w).mem (c.push w).esp (w::ws) := by
  rw [push_esp]
  exact h.push w hl

lemma Cpu.push_mem {w x : Word} (h : ¬Span (c.esp-4) 4 x) : (c.push w).mem x = c.mem x :=
  store_of_not_span h

@[simp] lemma Cpu.pushad_seg : c.pushad.seg = c.seg := rfl

lemma Cpu.pushad_reg : c.pushad.reg = Function.update c.reg .esp (c.esp-32) := by
  simp only [pushad,push,esp,Function.update_self,Function.update_idem]
  congr 1
  bv_omega

@[simp] lemma Cpu.pushad_esp : c.pushad.esp = c.esp-32 := by
  rw [esp,pushad_reg,Function.update_self]

/-- The stack after pushad. -/
lemma Cpu.pushad_holds (h : Holds c.mem c.esp ws) (hl : 4*(ws.length+8) ≤ 2^32) :
    Holds c.pushad.mem c.pushad.esp (c.saved++ws) := by
  have h1 := push_holds h (c.reg .eax) (by omega)
  have h2 := push_holds h1 (c.reg .ecx) (by simp only [List.length_cons]; omega)
  have h3 := push_holds h2 (c.reg .edx) (by simp only [List.length_cons]; omega)
  have h4 := push_holds h3 (c.reg .ebx) (by simp only [List.length_cons]; omega)
  have h5 := push_holds h4 (c.reg .esp) (by simp only [List.length_cons]; omega)
  have h6 := push_holds h5 (c.reg .ebp) (by simp only [List.length_cons]; omega)
  have h7 := push_holds h6 (c.reg .esi) (by simp only [List.length_cons]; omega)
  exact push_holds h7 (c.reg .edi) (by simp only [List.length_cons]; omega)

/-- pushad writes the 32 bytes below the stack pointer. -/
lemma Cpu.pushad_mem {x : Word} (h : ¬Span (c.esp-32) 32 x) : c.pushad.mem x = c.mem x := by
  unfold pushad
  iterate 8 rw [push_mem (by simp only [push_esp,Span] at h ⊢; bv_omega)]

/-- popad gives back what pushad has saved. -/
lemma Cpu.popad_reg (he : c.esp = c₀.esp-32) (h : Holds c.mem c.esp (c₀.saved++ws)) :
    c.popad.reg = c₀.reg := by
  have hg {k : ℕ} {w : Word} (hk : (c₀.saved++ws)[k]? = some w) :
      (c.addEsp (BitVec.ofNat 32 (4*k))).top = w := by
    rw [top_addEsp]
    exact h.get hk
  have h0 : c.top = c₀.reg .edi := h.1
  have h1 : (c.addEsp 4).top = c₀.reg .esi := hg (k := 1) rfl
  have h2 : (c.addEsp 8).top = c₀.reg .ebp := hg (k := 2) rfl
  have h4 : (c.addEsp 16).top = c₀.reg .ebx := hg (k := 4) rfl
  have h5 : (c.addEsp 20).top = c₀.reg .edx := hg (k := 5) rfl
  have h6 : (c.addEsp 24).top = c₀.reg .ecx := hg (k := 6) rfl
  have h7 : (c.addEsp 28).top = c₀.reg .eax := hg (k := 7) rfl
  have hesp : c.esp+32 = c₀.reg .esp := by
    rw [he]
    simp only [esp]
    bv_omega
  funext r
  simp only [popad,h0,h1,h2,h4,h5,h6,h7]
  simp only [setReg,addEsp,hesp]
  cases r <;> simp

/-- popad and ret leave the frame that pushad has made on top of a return address. -/
lemma Cpu.popad_ret {w : Word} (he : c.esp = c₀.esp-32) (h : Holds c.mem c.esp (c₀.saved++w::ws)) :
    c.popad.ret = ⟨Function.update c₀.reg .esp (c₀.esp+4),c.seg,w,c.eflags,c.mem⟩ := by
  have hr := popad_reg he h
  have hesp : c.popad.esp = c₀.esp := congrFun hr .esp
  have htop : c.popad.top = w := by
    have hw : load c.mem (c.esp+BitVec.ofNat 32 (4*8)) = w := h.get rfl
    rw [top,hesp,← hw,he]
    show load c.mem _ = _
    congr 1
    bv_omega
  have hret : c.popad.ret = ⟨Function.update c.popad.reg .esp (c.popad.esp+4),c.seg,c.popad.top,
    c.eflags,c.mem⟩ := rfl
  rw [hret,hr,hesp,htop]

@[simp] lemma Cpu.popad_seg : c.popad.seg = c.seg := rfl

@[simp] lemma Cpu.popad_mem : c.popad.mem = c.mem := rfl

@[simp] lemma Cpu.ret_mem : c.ret.mem = c.mem := rfl

@[simp] lemma Cpu.ret_seg : c.ret.seg = c.seg := rfl

end Frames
end X86

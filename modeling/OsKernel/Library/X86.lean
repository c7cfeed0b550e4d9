import Mathlib.Tactic

/-! The part of a 32-bit x86 processor that entry code, exit code and stack
switches use: registers, a byte memory whose addresses wrap, and straight-line
code with indirect calls. A run returns the final processor and, separately,
the calls it made. -/
namespace X86

abbrev Word := BitVec 32

abbrev Mem := Word → BitVec 8

def load (m : Mem) (a : Word) : Word :=
  m (a+3) ++ m (a+2) ++ m (a+1) ++ m a

def store (m : Mem) (a w : Word) : Mem := fun x =>
  if (x-a).toNat < 4 then w.extractLsb' (8*(x-a).toNat) 8 else m x

/-- The `n` bytes from `a` on, modulo the address space. -/
def Span (a : Word) (n : ℕ) (x : Word) : Prop := (x-a).toNat < n

instance (a : Word) (n : ℕ) (x : Word) : Decidable (Span a n x) :=
  inferInstanceAs (Decidable (_ < _))

lemma load_congr {m m' : Mem} {a : Word} (h : ∀ x, Span a 4 x → m' x = m x) :
    load m' a = load m a := by
  have h0 := h a (by simp [Span])
  have h1 := h (a+1) (by simp only [Span]; bv_omega)
  have h2 := h (a+2) (by simp only [Span]; bv_omega)
  have h3 := h (a+3) (by simp only [Span]; bv_omega)
  simp only [load,h0,h1,h2,h3]

lemma store_of_not_span {m : Mem} {a w x : Word} (h : ¬Span a 4 x) : store m a w x = m x :=
  if_neg h

lemma append_bytes (w : Word) : w.extractLsb' 24 8 ++ w.extractLsb' 16 8 ++ w.extractLsb' 8 8 ++
    w.extractLsb' 0 8 = w := by
  ext i hi
  simp only [BitVec.getElem_append,BitVec.getElem_extractLsb']
  split
  · simp only [Nat.zero_add,BitVec.getLsbD_eq_getElem hi]
  · have step (k : ℕ) (hk : k ≤ i) : w.getLsbD (k+(i-k)) = w[i] := by
      rw [Nat.add_sub_cancel' hk,BitVec.getLsbD_eq_getElem hi]
    split
    · exact step 8 (by omega)
    · split
      · rw [Nat.sub_sub]
        exact step 16 (by omega)
      · rw [Nat.sub_sub,Nat.sub_sub]
        exact step 24 (by omega)

lemma load_store_same (m : Mem) (a w : Word) : load (store m a w) a = w := by
  have byte (k : ℕ) (hk : k < 4) : store m a w (a+BitVec.ofNat 32 k) = w.extractLsb' (8*k) 8 := by
    have hd : a+BitVec.ofNat 32 k-a = BitVec.ofNat 32 k := by bv_omega
    have ht : (BitVec.ofNat 32 k).toNat = k := Nat.mod_eq_of_lt (by omega)
    simp only [store,hd,ht,if_pos hk]
  have h0 := byte 0 (by omega)
  rw [BitVec.add_zero] at h0
  have h1 : store m a w (a+1) = w.extractLsb' 8 8 := byte 1 (by omega)
  have h2 : store m a w (a+2) = w.extractLsb' 16 8 := byte 2 (by omega)
  have h3 : store m a w (a+3) = w.extractLsb' 24 8 := byte 3 (by omega)
  simp only [load,h0,h1,h2,h3]
  exact append_bytes w

lemma load_store_apart {m : Mem} {a b w : Word} (h : ∀ x, Span b 4 x → ¬Span a 4 x) :
    load (store m a w) b = load m b :=
  load_congr fun x hx => store_of_not_span (h x hx)

/-- The memory holds the words `ws`, one after the other, from `e` on. -/
def Holds (m : Mem) (e : Word) : List Word → Prop
  | [] => True
  | w::ws => load m e = w ∧ Holds m (e+4) ws

instance decidableHolds (m : Mem) (e : Word) : (ws : List Word) → Decidable (Holds m e ws)
  | [] => isTrue trivial
  | _::ws => @instDecidableAnd _ _ (inferInstanceAs (Decidable (_ = _))) (decidableHolds m (e+4) ws)

@[simp] lemma holds_nil (m : Mem) (e : Word) : Holds m e [] := trivial

@[simp] lemma holds_cons {m : Mem} {e w : Word} {ws : List Word} :
    Holds m e (w::ws) ↔ load m e = w ∧ Holds m (e+4) ws := Iff.rfl

lemma Holds.congr {m m' : Mem} {e : Word} {ws : List Word} (h : Holds m e ws)
    (hl : 4*ws.length ≤ 2^32) (hm : ∀ x, Span e (4*ws.length) x → m' x = m x) : Holds m' e ws := by
  induction ws generalizing e with
  | nil => trivial
  | cons w ws ih =>
    simp only [List.length_cons] at hl hm
    refine ⟨(load_congr fun x hx => hm x ?_).trans h.1,ih h.2 (by omega) fun x hx => hm x ?_⟩
    · simp only [Span] at hx ⊢
      omega
    · simp only [Span] at hx ⊢
      bv_omega

lemma Holds.append {m : Mem} {e : Word} {us ws : List Word} (h : Holds m e us)
    (h' : Holds m (e+BitVec.ofNat 32 (4*us.length)) ws) : Holds m e (us++ws) := by
  induction us generalizing e with
  | nil => simpa using h'
  | cons u us ih =>
    refine ⟨h.1,ih h.2 ?_⟩
    have he : e+4+BitVec.ofNat 32 (4*us.length) = e+BitVec.ofNat 32 (4*(u::us).length) := by
      simp only [List.length_cons]
      bv_omega
    rwa [he]

lemma Holds.drop {m : Mem} {e : Word} {ws : List Word} (h : Holds m e ws) {k : ℕ}
    (hk : k ≤ ws.length) : Holds m (e+BitVec.ofNat 32 (4*k)) (ws.drop k) := by
  induction k generalizing e ws with
  | zero => simpa using h
  | succ k ih =>
    cases ws with
    | nil => simp at hk
    | cons w ws =>
      have he : e+BitVec.ofNat 32 (4*(k+1)) = e+4+BitVec.ofNat 32 (4*k) := by bv_omega
      rw [he,List.drop_succ_cons]
      exact ih h.2 (by simpa using hk)

lemma Holds.take {m : Mem} {e : Word} {ws : List Word} (h : Holds m e ws) {k : ℕ} :
    Holds m e (ws.take k) := by
  induction ws generalizing e k with
  | nil => simp
  | cons w ws ih =>
    cases k with
    | zero => trivial
    | succ k => exact ⟨h.1,ih h.2⟩

lemma Holds.get {m : Mem} {e : Word} {ws : List Word} (h : Holds m e ws) {k : ℕ} {w : Word}
    (hk : ws[k]? = some w) : load m (e+BitVec.ofNat 32 (4*k)) = w := by
  obtain ⟨hl,hw⟩ := List.getElem?_eq_some_iff.mp hk
  have hd := h.drop (Nat.le_of_lt hl)
  rw [List.drop_eq_getElem_cons hl] at hd
  exact hd.1.trans hw

/-- A push: the new word stands below the old ones. -/
lemma Holds.push {m : Mem} {e : Word} {ws : List Word} (h : Holds m e ws) (w : Word)
    (hl : 4*ws.length+4 ≤ 2^32) : Holds (store m (e-4) w) (e-4) (w::ws) := by
  refine ⟨load_store_same _ _ _,?_⟩
  have he : e-4+4 = e := by bv_omega
  rw [he]
  apply h.congr (by omega)
  intro x hx
  apply store_of_not_span
  simp only [Span] at hx ⊢
  bv_omega

lemma Holds.set {m : Mem} {e : Word} {ws : List Word} (h : Holds m e ws) {k : ℕ} (w : Word)
    (hk : k < ws.length) (hl : 4*ws.length ≤ 2^32) :
    Holds (store m (e+BitVec.ofNat 32 (4*k)) w) e (ws.set k w) := by
  induction k generalizing e ws with
  | zero =>
    cases ws with
    | nil => trivial
    | cons u ws =>
      simp only [List.length_cons] at hl
      simp only [Nat.mul_zero,BitVec.ofNat_eq_ofNat,BitVec.add_zero,List.set_cons_zero,holds_cons]
      refine ⟨load_store_same _ _ _,h.2.congr (by omega) fun x hx => store_of_not_span ?_⟩
      simp only [Span] at hx ⊢
      bv_omega
  | succ k ih =>
    cases ws with
    | nil => trivial
    | cons u ws =>
      simp only [List.length_cons] at hl hk
      have he : e+BitVec.ofNat 32 (4*(k+1)) = e+4+BitVec.ofNat 32 (4*k) := by bv_omega
      rw [List.set_cons_succ,he]
      refine ⟨(load_store_apart fun x hx => ?_).trans h.1,ih h.2 (by omega) (by omega)⟩
      simp only [Span] at hx ⊢
      bv_omega

inductive Reg
  | eax | ecx | edx | ebx | esp | ebp | esi | edi
  deriving DecidableEq

inductive Seg
  | cs | ss | ds | es | fs | gs
  deriving DecidableEq

structure Cpu where
  reg : Reg → Word
  seg : Seg → BitVec 16
  eip : Word
  eflags : Word
  mem : Mem

/-- An address of the form `[disp + 4*index]`. -/
structure Operand where
  disp : Word
  index : Option Reg

inductive Instr
  | nop
  | pushImm (w : Word)
  | pushReg (r : Reg)
  | pushSeg (s : Seg)
  | pushad
  | popReg (r : Reg)
  | popSeg (s : Seg)
  | popad
  | addEsp (n : Word)
  | movAl (b : BitVec 8)
  | out (port : BitVec 8)
  | load (dst base : Reg) (disp : Word)
  | store (base : Reg) (disp : Word) (src : Reg)
  | call (slot : Operand)
  | ret
  | iretd

/-- What a run needs from outside the code: the effect of the function at an
address until it has returned, the return address of a call, and the flags an
addition leaves. -/
structure Env where
  callee : Word → Cpu → Cpu
  next : Word
  addFlags : Word → Word → Word → Word

namespace Cpu

def esp (c : Cpu) : Word := c.reg .esp

def push (c : Cpu) (w : Word) : Cpu :=
  {c with reg := Function.update c.reg .esp (c.esp-4), mem := X86.store c.mem (c.esp-4) w}

def top (c : Cpu) : Word := X86.load c.mem c.esp

def addEsp (c : Cpu) (n : Word) : Cpu := {c with reg := Function.update c.reg .esp (c.esp+n)}

def setReg (c : Cpu) (r : Reg) (w : Word) : Cpu := {c with reg := Function.update c.reg r w}

def setSeg (c : Cpu) (s : Seg) (v : BitVec 16) : Cpu := {c with seg := Function.update c.seg s v}

@[simp] lemma top_addEsp (c : Cpu) (n : Word) : (c.addEsp n).top = X86.load c.mem (c.esp+n) := by
  simp [top,addEsp,esp]

/-- The privilege level: the low two bits of `cs`. -/
def ring (c : Cpu) : BitVec 16 := c.seg .cs &&& 3

end Cpu

def Operand.addr (o : Operand) (c : Cpu) : Word :=
  match o.index with
  | none => o.disp
  | some r => o.disp+4*c.reg r

/-- The part of a return from an interrupt that every return shares. -/
def Cpu.popFrame (c : Cpu) : Cpu :=
  {(c.addEsp 12).setSeg .cs ((c.addEsp 4).top.setWidth 16) with
    eip := c.top, eflags := (c.addEsp 8).top}

/-- Return from an interrupt. A return to an outer ring also pops the stack. -/
def iretd (c : Cpu) : Cpu :=
  let d := c.popFrame
  if c.ring < d.ring then (d.setSeg .ss ((d.addEsp 4).top.setWidth 16)).setReg .esp d.top else d

def exec (env : Env) : Instr → Cpu → Cpu
  | .nop,c => c
  | .pushImm w,c => c.push w
  | .pushReg r,c => c.push (c.reg r)
  | .pushSeg s,c => c.push ((c.seg s).setWidth 32)
  | .pushad,c =>
    (((((((c.push (c.reg .eax)).push (c.reg .ecx)).push (c.reg .edx)).push (c.reg .ebx)).push
      (c.reg .esp)).push (c.reg .ebp)).push (c.reg .esi)).push (c.reg .edi)
  | .popReg r,c => (c.addEsp 4).setReg r c.top
  | .popSeg s,c => (c.addEsp 4).setSeg s (c.top.setWidth 16)
  -- the stacked stack pointer is skipped
  | .popad,c =>
    (((((((c.addEsp 32).setReg .edi c.top).setReg .esi (c.addEsp 4).top).setReg .ebp
      (c.addEsp 8).top).setReg .ebx (c.addEsp 16).top).setReg .edx (c.addEsp 20).top).setReg .ecx
      (c.addEsp 24).top).setReg .eax (c.addEsp 28).top
  | .addEsp n,c => {c.addEsp n with eflags := env.addFlags c.eflags c.esp n}
  | .movAl b,c => c.setReg .eax ((c.reg .eax).extractLsb' 8 24 ++ b)
  | .out _,c => c
  | .load dst base disp,c => c.setReg dst (X86.load c.mem (c.reg base+disp))
  | .store base disp src,c => {c with mem := X86.store c.mem (c.reg base+disp) (c.reg src)}
  | .call slot,c => env.callee (X86.load c.mem (slot.addr c)) (c.push env.next)
  | .ret,c => {c.addEsp 4 with eip := c.top}
  | .iretd,c => iretd c

def run (env : Env) (code : List Instr) (c : Cpu) : Cpu := code.foldl (fun c i => exec env i c) c

/-- A transfer of control through memory: the slot read, the address found
there and the processor the function starts with. -/
structure Call where
  slot : Word
  target : Word
  entry : Cpu

def calls (env : Env) : List Instr → Cpu → List Call
  | [],_ => []
  | .call slot::code,c =>
    ⟨slot.addr c,X86.load c.mem (slot.addr c),c.push env.next⟩::calls env code (exec env (.call slot) c)
  | i::code,c => calls env code (exec env i c)

lemma run_append (env : Env) (code code' : List Instr) (c : Cpu) :
    run env (code++code') c = run env code' (run env code c) := List.foldl_append

end X86

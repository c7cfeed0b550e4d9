import OsKernel.Library.X86View

/-! Functions called from entry code, and the interrupt a processor takes and
returns from. -/
namespace X86

/-- The calling convention: the function returns to its caller, restores four
registers and the code and stack segments, and keeps the bytes above its
arguments. The argument slots themselves are its own. -/
structure Cdecl (args above : ℕ) (c c' : Cpu) : Prop where
  esp : c'.esp = c.esp+4
  saved : ∀ r ∈ [Reg.ebx,.ebp,.esi,.edi], c'.reg r = c.reg r
  cs : c'.seg .cs = c.seg .cs
  ss : c'.seg .ss = c.seg .ss
  stack : ∀ x, Span (c.esp+BitVec.ofNat 32 (4+4*args)) above x → c'.mem x = c.mem x

lemma Cdecl.mono {args above above' : ℕ} {c c' : Cpu} (h : Cdecl args above c c')
    (ha : above' ≤ above) : Cdecl args above' c c' :=
  ⟨h.esp,h.saved,h.cs,h.ss,fun x hx => h.stack x (Nat.lt_of_lt_of_le hx ha)⟩

lemma exists_holds (m : Mem) (n : ℕ) (e : Word) : ∃ ws, ws.length = n ∧ Holds m e ws := by
  induction n generalizing e with
  | zero => exact ⟨[],rfl,trivial⟩
  | succ n ih =>
    obtain ⟨ws,hl,hw⟩ := ih (e+4)
    exact ⟨load m e::ws,by simp [hl],rfl,hw⟩

/-- Code before the first call makes none. -/
lemma calls_append {pre : List Instr} (h : ∀ i ∈ pre, ∀ slot, i ≠ .call slot) (env : Env)
    (code : List Instr) (c : Cpu) : calls env (pre++code) c = calls env code (run env pre c) := by
  induction pre generalizing c with
  | nil => rfl
  | cons i pre ih =>
    have hi := h i List.mem_cons_self
    have htail := ih (fun j hj => h j (List.mem_cons_of_mem _ hj)) (exec env i c)
    cases i with
    | call slot => exact absurd rfl (hi slot)
    | _ => exact htail

lemma calls_eq_nil {code : List Instr} (h : ∀ i ∈ code, ∀ slot, i ≠ .call slot) (env : Env)
    (c : Cpu) : calls env code c = [] := by
  simpa [calls] using calls_append h env [] c

/-- The call of code that makes a single one. -/
def callAt (env : Env) (slot : Operand) (c : Cpu) : Call :=
  ⟨slot.addr c,load c.mem (slot.addr c),c.push env.next⟩

lemma calls_single {pre post : List Instr} (hpre : ∀ i ∈ pre, ∀ slot, i ≠ .call slot)
    (hpost : ∀ i ∈ post, ∀ slot, i ≠ .call slot) (env : Env) (slot : Operand) (c : Cpu) :
    calls env (pre++.call slot::post) c = [callAt env slot (run env pre c)] := by
  rw [calls_append hpre,calls,calls_eq_nil hpost]
  rfl

lemma run_single (env : Env) (pre post : List Instr) (slot : Operand) (c : Cpu) :
    run env (pre++.call slot::post) c = run env post (env.callee
      (callAt env slot (run env pre c)).target (callAt env slot (run env pre c)).entry) := by
  rw [run_append]
  rfl

section Callee

variable {d : ℕ} {b : Word} {m : Mem} {c c' : Cpu} {v : View}

/-- What the called function finds above its return address. -/
lemma Tracks.holds_push (h : Tracks d b m c v) (w : Word) (hd : v.stack.length+1 ≤ d)
    (hs : 4*d ≤ 2^32) : Holds (c.push w).mem ((c.push w).esp+4) v.stack := by
  have hp := h.push w hd hs
  have he : (c.push w).esp = (v.push w).reg .esp := congrFun hp.reg .esp
  rw [he]
  exact hp.stack.2

/-- A call through a table that stood in memory before, away from the stack. -/
lemma Tracks.target (h : Tracks d b m c v) {table w : Word} {t : List Word} {k : ℕ}
    (ht : Holds m table t) (hk : t[k]? = some w) (hl : 4*t.length ≤ 2^32)
    (hapart : ∀ x, Span table (4*t.length) x → ¬Span (b-BitVec.ofNat 32 (4*d)) (4*d) x)
    (env : Env) {slot : Operand} (hs : slot.addr c = table+BitVec.ofNat 32 (4*k)) :
    (callAt env slot c).target = w := by
  rw [← ht.get hk]
  simp only [callAt,hs]
  apply load_congr
  intro x hx
  apply h.frame
  apply hapart
  have hlt : k < t.length := (List.getElem?_eq_some_iff.mp hk).1
  simp only [Span] at hx ⊢
  bv_omega

/-- After a call the words above the arguments are in view again. -/
theorem Tracks.callee (h : Tracks d b m c v) {next : Word} {as ws : List Word}
    (hv : v.stack = as++ws) (hcall : Cdecl as.length (4*ws.length) (c.push next) c')
    (hs : 4*(as.length+ws.length)+4 ≤ 2^32) :
    ∃ as', as'.length = as.length ∧ c'.esp = v.reg .esp ∧
      Tracks d b c'.mem c' ⟨c'.reg,c'.seg,as'++ws⟩ := by
  obtain ⟨as',hl,ha⟩ := exists_holds c'.mem as.length (v.reg .esp)
  have he : c.esp = v.reg .esp := congrFun h.reg .esp
  have hp : (c.push next).esp = v.reg .esp-4 := by simp [Cpu.push,Cpu.esp,h.reg]
  have he' : c'.esp = v.reg .esp := by
    rw [hcall.esp,hp]
    bv_omega
  have hreg : c'.reg .esp = v.reg .esp := he'
  refine ⟨as',hl,he',rfl,rfl,?_,?_,fun _ _ => rfl⟩
  · have hw := h.stack.drop (k := as.length) (by simp [hv])
    rw [hv,List.drop_left] at hw
    simp only [hreg]
    refine ha.append ?_
    rw [hl]
    apply hw.congr (by omega)
    intro x hx
    have ha : (c.push next).esp+BitVec.ofNat 32 (4+4*as.length) =
        v.reg .esp+BitVec.ofNat 32 (4*as.length) := by
      rw [hp]
      bv_omega
    rw [hcall.stack x (by rwa [ha])]
    apply store_of_not_span
    simp only [Span,he] at hx ⊢
    bv_omega
  · rw [← h.base]
    simp only [View.base,hreg,hv,List.length_append,hl]

end Callee

/-- The stack of the inner ring. -/
structure Tss where
  ss0 : BitVec 16
  esp0 : Word

/-- The flags an interrupt gate clears: TF, IF, NT, RF and VM. -/
def gateFlags (eflags : Word) : Word := eflags &&& ~~~0x34300

namespace Cpu

/-- The interrupt comes from an outer ring, so that the stack changes. -/
def Outer (c : Cpu) : Prop := c.ring ≠ 0

instance (c : Cpu) : Decidable c.Outer := inferInstanceAs (Decidable (_ ≠ _))

/-- The stack an interrupt of this processor is handled on. -/
def onKernelStack (tss : Tss) (c : Cpu) : Cpu :=
  if c.Outer then
    ((((c.setReg .esp tss.esp0).setSeg .ss tss.ss0).push ((c.seg .ss).setWidth 32)).push c.esp)
  else c

end Cpu

/-- An interrupt through a gate with the selector `sel` and the offset `off`. -/
def deliver (tss : Tss) (sel : BitVec 16) (off : Word) (err : Option Word) (c : Cpu) : Cpu :=
  let d := (((c.onKernelStack tss).push c.eflags).push ((c.seg .cs).setWidth 32)).push c.eip
  let d := match err with
    | some e => d.push e
    | none => d
  {d.setSeg .cs sel with eip := off, eflags := gateFlags c.eflags}

/-- The words the processor pushes, without the error code. -/
def Cpu.savedWords (c : Cpu) : List Word :=
  [c.eip,(c.seg .cs).setWidth 32,c.eflags]++if c.Outer then [c.esp,(c.seg .ss).setWidth 32] else []

lemma Cpu.length_savedWords (c : Cpu) : c.savedWords.length ≤ 5 := by
  unfold savedWords
  split <;> simp

/-- Where those words start at the top. -/
def Cpu.stackTop (tss : Tss) (c : Cpu) : Word := if c.Outer then tss.esp0 else c.esp

def Cpu.handlerReg (tss : Tss) (err : Option Word) (c : Cpu) : Reg → Word :=
  Function.update c.reg .esp
    (c.stackTop tss-BitVec.ofNat 32 (4*(err.toList++c.savedWords).length))

def Cpu.handlerSeg (tss : Tss) (sel : BitVec 16) (c : Cpu) : Seg → BitVec 16 :=
  Function.update (if c.Outer then Function.update c.seg .ss tss.ss0 else c.seg) .cs sel

section Handler

variable {tss : Tss} {sel : BitVec 16} {err : Option Word} {c : Cpu}

@[simp] lemma Cpu.handlerReg_of_ne {r : Reg} (hr : r ≠ .esp) : c.handlerReg tss err r = c.reg r :=
  Function.update_of_ne hr _ _

@[simp] lemma Cpu.handlerSeg_cs : c.handlerSeg tss sel .cs = sel := Function.update_self _ _ _

@[simp] lemma Cpu.handlerSeg_of_ne {s : Seg} (hcs : s ≠ .cs) (hss : s ≠ .ss) :
    c.handlerSeg tss sel s = c.seg s := by
  by_cases ho : c.Outer
  · simp [handlerSeg,ho,hcs,hss]
  · simp [handlerSeg,ho,hcs]

lemma Cpu.handlerSeg_ss (ho : ¬c.Outer) : c.handlerSeg tss sel .ss = c.seg .ss := by
  simp [handlerSeg,ho]

end Handler

/-- A push below a stretch of stack whose words are counted from the top. -/
lemma Tracks.pushBelow {d : ℕ} {b : Word} {m : Mem} {c : Cpu} {reg : Reg → Word}
    {seg : Seg → BitVec 16} {ws : List Word}
    (h : Tracks d b m c ⟨Function.update reg .esp (b-BitVec.ofNat 32 (4*ws.length)),seg,ws⟩) (w : Word)
    (hd : ws.length+1 ≤ d) (hs : 4*d ≤ 2^32) : Tracks d b m (c.push w)
      ⟨Function.update reg .esp (b-BitVec.ofNat 32 (4*(w::ws).length)),seg,w::ws⟩ := by
  have hp := h.push w hd hs
  have he : b-BitVec.ofNat 32 (4*ws.length)-4 = b-BitVec.ofNat 32 (4*(w::ws).length) := by
    simp only [List.length_cons]
    bv_omega
  simpa only [View.push,Function.update_self,Function.update_idem,he] using hp

lemma onKernelStack_tracks (tss : Tss) (c : Cpu) {d : ℕ} (hd : 2 ≤ d) (hs : 4*d ≤ 2^32) :
    let ws := if c.Outer then [c.esp,(c.seg .ss).setWidth 32] else []
    Tracks d (c.stackTop tss) c.mem (c.onKernelStack tss)
      ⟨Function.update c.reg .esp (c.stackTop tss-BitVec.ofNat 32 (4*ws.length)),
        if c.Outer then Function.update c.seg .ss tss.ss0 else c.seg,ws⟩ := by
  by_cases ho : c.Outer
  · have h0 : Tracks d tss.esp0 c.mem ((c.setReg .esp tss.esp0).setSeg .ss tss.ss0)
        ⟨Function.update c.reg .esp (tss.esp0-BitVec.ofNat 32 (4*([] : List Word).length)),
          Function.update c.seg .ss tss.ss0,[]⟩ := by
      refine ⟨?_,rfl,trivial,?_,fun _ _ => rfl⟩
      · simp [Cpu.setReg,Cpu.setSeg]
      · simp [View.base]
    have h1 := h0.pushBelow ((c.seg .ss).setWidth 32) (by simp; omega) hs
    have h2 := h1.pushBelow c.esp (by simp; omega) hs
    simpa only [Cpu.onKernelStack,Cpu.stackTop,if_pos ho] using h2
  · simp only [Cpu.onKernelStack,Cpu.stackTop,if_neg ho]
    have h0 := Tracks.start (show Holds c.mem c.esp [] from trivial) d
    simpa [Cpu.esp] using h0

theorem deliver_tracks (tss : Tss) (sel : BitVec 16) (off : Word) (err : Option Word) (c : Cpu)
    {d : ℕ} (hd : 6 ≤ d) (hs : 4*d ≤ 2^32) :
    Tracks d (c.stackTop tss) c.mem (deliver tss sel off err c)
      ⟨c.handlerReg tss err,c.handlerSeg tss sel,err.toList++c.savedWords⟩ := by
  have hlen : (if c.Outer then [c.esp,(c.seg .ss).setWidth 32] else []).length ≤ 2 := by
    split <;> simp
  have h0 := onKernelStack_tracks tss c (d := d) (by omega) hs
  have h1 := h0.pushBelow c.eflags (by omega) hs
  have h2 := h1.pushBelow ((c.seg .cs).setWidth 32) (by simp only [List.length_cons]; omega) hs
  have h3 := h2.pushBelow c.eip (by simp only [List.length_cons]; omega) hs
  cases err with
  | none =>
    have h4 := h3.setSeg .cs sel
    exact ⟨h4.reg,h4.seg,h4.stack,h4.base,h4.frame⟩
  | some e =>
    have h4 := (h3.pushBelow e (by simp only [List.length_cons]; omega) hs).setSeg .cs sel
    exact ⟨h4.reg,h4.seg,h4.stack,h4.base,h4.frame⟩

lemma popFrame_eq {c : Cpu} {eip cs eflags : Word} (h : Holds c.mem c.esp [eip,cs,eflags]) :
    c.popFrame = ⟨Function.update c.reg .esp (c.esp+12),
      Function.update c.seg .cs (cs.setWidth 16),eip,eflags,c.mem⟩ := by
  obtain ⟨h0,h1,h2,-⟩ := h
  have h2' : load c.mem (c.esp+8) = eflags := by
    rw [← h2,BitVec.add_assoc]
    rfl
  simp only [Cpu.popFrame,Cpu.top_addEsp,h1,h2']
  simp only [Cpu.top,h0]
  rfl

/-- Return to the ring of the handler. -/
theorem iretd_inner {c : Cpu} {eip cs eflags : Word} (h : Holds c.mem c.esp [eip,cs,eflags])
    (hcs : cs.setWidth 16 &&& 3 = (0 : BitVec 16)) :
    iretd c = ⟨Function.update c.reg .esp (c.esp+12),Function.update c.seg .cs (cs.setWidth 16),
      eip,eflags,c.mem⟩ := by
  have hring : ¬c.ring < c.popFrame.ring := by
    have h0 : c.popFrame.ring = 0 := by simpa [popFrame_eq h,Cpu.ring] using hcs
    rw [h0]
    exact BitVec.not_lt_zero
  simp only [iretd,if_neg hring]
  exact popFrame_eq h

/-- Return to an outer ring. -/
theorem iretd_outer {c : Cpu} {eip cs eflags esp ss : Word}
    (h : Holds c.mem c.esp [eip,cs,eflags,esp,ss]) (hring : c.ring = 0)
    (hcs : cs.setWidth 16 &&& 3 ≠ (0 : BitVec 16)) :
    iretd c = ⟨Function.update c.reg .esp esp,
      Function.update (Function.update c.seg .cs (cs.setWidth 16)) .ss (ss.setWidth 16),
      eip,eflags,c.mem⟩ := by
  obtain ⟨h0,h1,h2,h3,h4,-⟩ := h
  have hp := popFrame_eq (c := c) ⟨h0,h1,h2,trivial⟩
  have hlt : c.ring < c.popFrame.ring := by
    rw [hring,hp]
    simpa [Cpu.ring,BitVec.pos_iff_ne_zero] using hcs
  have h3' : load c.mem (c.esp+12) = esp := by
    rw [← h3,BitVec.add_assoc,BitVec.add_assoc]
    rfl
  have h4' : load c.mem (c.esp+12+4) = ss := by
    rw [← h4]
    congr 1
    bv_omega
  have htop : c.popFrame.top = esp := by simpa [hp,Cpu.top,Cpu.esp] using h3'
  have hnext : (c.popFrame.addEsp 4).top = ss := by
    rw [Cpu.top_addEsp]
    simpa [hp,Cpu.esp] using h4'
  simp only [iretd,if_pos hlt,htop,hnext]
  rw [hp]
  simp [Cpu.setReg,Cpu.setSeg]

end X86

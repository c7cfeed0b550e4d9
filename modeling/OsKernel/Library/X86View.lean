import OsKernel.Library.X86

/-! The processor as code sees it that only uses its own stack: registers and
the list of words from the stack pointer up. Every instruction on lists is
simulated by the processor, and bytes away from that stretch of stack keep
their values. -/
namespace X86

structure View where
  reg : Reg → Word
  seg : Seg → BitVec 16
  stack : List Word

namespace View

def push (v : View) (w : Word) : View :=
  {v with reg := Function.update v.reg .esp (v.reg .esp-4), stack := w::v.stack}

/-- The address just above the stretch of stack in view. -/
def base (v : View) : Word := v.reg .esp+BitVec.ofNat 32 (4*v.stack.length)

/-- The stacked stack pointer is skipped. -/
def popad : View → Option View
  | ⟨reg,seg,edi::esi::ebp::_::ebx::edx::ecx::eax::ws⟩ => some
    ⟨Function.update (Function.update (Function.update (Function.update (Function.update
      (Function.update (Function.update (Function.update reg .esp (reg .esp+32)) .edi edi) .esi esi)
      .ebp ebp) .ebx ebx) .edx edx) .ecx ecx) .eax eax,seg,ws⟩
  | _ => none

def step : Instr → View → Option View
  | .nop,v => some v
  | .pushImm w,v => some (v.push w)
  | .pushReg r,v => some (v.push (v.reg r))
  | .pushSeg s,v => some (v.push ((v.seg s).setWidth 32))
  | .pushad,v => some
    (((((((v.push (v.reg .eax)).push (v.reg .ecx)).push (v.reg .edx)).push (v.reg .ebx)).push
      (v.reg .esp)).push (v.reg .ebp)).push (v.reg .esi) |>.push (v.reg .edi))
  | .popReg r,⟨reg,seg,w::ws⟩ =>
    if r = .esp then none
    else some ⟨Function.update (Function.update reg .esp (reg .esp+4)) r w,seg,ws⟩
  | .popSeg s,⟨reg,seg,w::ws⟩ => some
    ⟨Function.update reg .esp (reg .esp+4),Function.update seg s (w.setWidth 16),ws⟩
  | .popad,v => v.popad
  | .addEsp n,v =>
    if 4*(n.toNat/4) = n.toNat ∧ n.toNat/4 ≤ v.stack.length then
      some {v with reg := Function.update v.reg .esp (v.reg .esp+n), stack := v.stack.drop (n.toNat/4)}
    else none
  | .movAl b,v =>
    some {v with reg := Function.update v.reg .eax ((v.reg .eax).extractLsb' 8 24 ++ b)}
  | .out _,v => some v
  | .load dst base disp,v =>
    if base = .esp ∧ dst ≠ .esp ∧ 4*(disp.toNat/4) = disp.toNat then
      v.stack[disp.toNat/4]?.map fun w => {v with reg := Function.update v.reg dst w}
    else none
  | .store base disp src,v =>
    if base = .esp ∧ 4*(disp.toNat/4) = disp.toNat ∧ disp.toNat/4 < v.stack.length then
      some {v with stack := v.stack.set (disp.toNat/4) (v.reg src)}
    else none
  | _,_ => none

def run : List Instr → View → Option View
  | [],v => some v
  | i::code,v => (v.step i).bind (run code)

end View

/-- The words an instruction pushes. -/
def Instr.words : Instr → ℕ
  | .pushImm _ | .pushReg _ | .pushSeg _ => 1
  | .pushad => 8
  | _ => 0

/-- The processor `c` is the view `v`; since memory `m` only the `d` words
below `b` may have changed. -/
structure Tracks (d : ℕ) (b : Word) (m : Mem) (c : Cpu) (v : View) : Prop where
  reg : c.reg = v.reg
  seg : c.seg = v.seg
  stack : Holds c.mem (v.reg .esp) v.stack
  base : v.base = b
  frame : ∀ x, ¬Span (b-BitVec.ofNat 32 (4*d)) (4*d) x → c.mem x = m x

lemma Tracks.start {c : Cpu} {ws : List Word} (h : Holds c.mem c.esp ws) (d : ℕ) :
    Tracks d (c.esp+BitVec.ofNat 32 (4*ws.length)) c.mem c ⟨c.reg,c.seg,ws⟩ :=
  ⟨rfl,rfl,h,rfl,fun _ _ => rfl⟩

section Steps

variable {d : ℕ} {b : Word} {m : Mem} {c : Cpu} {v v' : View}

lemma Tracks.push (h : Tracks d b m c v) (w : Word) (hd : v.stack.length+1 ≤ d)
    (hs : 4*d ≤ 2^32) : Tracks d b m (c.push w) (v.push w) := by
  have he : c.esp = v.reg .esp := congrFun h.reg .esp
  have hb := h.base
  simp only [View.base] at hb
  refine ⟨?_,h.seg,?_,?_,fun x hx => ?_⟩
  · simp only [Cpu.push,View.push,he,h.reg]
  · simpa only [Cpu.push,View.push,he,Function.update_self] using h.stack.push w (by omega)
  · simp only [View.base,View.push,Function.update_self,List.length_cons]
    bv_omega
  · rw [← h.frame x hx]
    apply store_of_not_span
    simp only [Span,he] at hx ⊢
    bv_omega

lemma Tracks.addEsp (h : Tracks d b m c v) {k : ℕ} (hk : k ≤ v.stack.length) :
    Tracks d b m (c.addEsp (BitVec.ofNat 32 (4*k)))
      {v with
        reg := Function.update v.reg .esp (v.reg .esp+BitVec.ofNat 32 (4*k))
        stack := v.stack.drop k} := by
  have he : c.esp = v.reg .esp := congrFun h.reg .esp
  refine ⟨?_,h.seg,?_,?_,h.frame⟩
  · simp only [Cpu.addEsp,he,h.reg]
  · simpa only [Cpu.addEsp,Function.update_self] using h.stack.drop hk
  · rw [← h.base]
    simp only [View.base,Function.update_self,List.length_drop]
    bv_omega

lemma Tracks.setReg (h : Tracks d b m c v) {r : Reg} (hr : r ≠ .esp) (w : Word) :
    Tracks d b m (c.setReg r w) {v with reg := Function.update v.reg r w} := by
  have he : Function.update v.reg r w .esp = v.reg .esp := Function.update_of_ne hr.symm _ _
  refine ⟨?_,h.seg,?_,?_,h.frame⟩
  · simp only [Cpu.setReg,h.reg]
  · simpa only [Cpu.setReg,he] using h.stack
  · simpa only [View.base,he] using h.base

lemma Tracks.setSeg (h : Tracks d b m c v) (s : Seg) (x : BitVec 16) :
    Tracks d b m (c.setSeg s x) {v with seg := Function.update v.seg s x} :=
  ⟨h.reg,by simp only [Cpu.setSeg,h.seg],h.stack,h.base,h.frame⟩

/-- The word `k` places above the stack pointer. -/
lemma Tracks.word (h : Tracks d b m c v) {k : ℕ} {w : Word} (hk : v.stack[k]? = some w) :
    X86.load c.mem (c.esp+BitVec.ofNat 32 (4*k)) = w := by
  have he : c.esp = v.reg .esp := congrFun h.reg .esp
  rw [he]
  exact h.stack.get hk

/-- A store to the word `k` places above the stack pointer. -/
lemma Tracks.set (h : Tracks d b m c v) {k : ℕ} (hk : k < v.stack.length) (w : Word)
    (hd : v.stack.length ≤ d) (hs : 4*d ≤ 2^32) :
    Tracks d b m {c with mem := X86.store c.mem (c.esp+BitVec.ofNat 32 (4*k)) w}
      {v with stack := v.stack.set k w} := by
  have he : c.esp = v.reg .esp := congrFun h.reg .esp
  have hb := h.base
  simp only [View.base] at hb
  refine ⟨h.reg,h.seg,?_,?_,fun x hx => ?_⟩
  · simpa only [he] using h.stack.set w hk (by omega)
  · simpa only [View.base,List.length_set] using h.base
  · rw [← h.frame x hx]
    apply store_of_not_span
    simp only [Span,he] at hx ⊢
    bv_omega

/-- The word on top, and the stack without it. -/
lemma Tracks.pop {w : Word} {ws : List Word} (h : Tracks d b m c v) (hv : v.stack = w::ws) :
    c.top = w ∧ Tracks d b m (c.addEsp 4)
      {v with reg := Function.update v.reg .esp (v.reg .esp+4), stack := ws} := by
  constructor
  · have hw : v.stack[0]? = some w := by simp [hv]
    simpa [Cpu.top] using h.word hw
  · have hk : 1 ≤ v.stack.length := by simp [hv]
    simpa [hv] using h.addEsp hk

lemma View.popad_stack (h : v.popad = some v') : ∃ edi esi ebp dummy ebx edx ecx eax ws,
    v.stack = edi::esi::ebp::dummy::ebx::edx::ecx::eax::ws := by
  unfold popad at h
  split at h
  · exact ⟨_,_,_,_,_,_,_,_,_,rfl⟩
  · cases h

lemma View.step_length {i : Instr} (h : v.step i = some v') :
    v'.stack.length ≤ v.stack.length+i.words := by
  obtain ⟨reg,seg,ws⟩ := v
  cases i with
  | nop | out =>
    cases h
    exact Nat.le_add_right _ _
  | pushImm | pushReg | pushSeg | pushad | movAl =>
    cases h
    exact Nat.le_refl _
  | popReg r =>
    cases ws with
    | nil => cases h
    | cons w ws =>
      obtain ⟨-,h⟩ := Option.ite_none_left_eq_some.mp h
      cases h
      exact Nat.le_add_right _ _
  | popSeg =>
    cases ws with
    | nil => cases h
    | cons w ws =>
      cases h
      exact Nat.le_add_right _ _
  | popad =>
    obtain ⟨edi,esi,ebp,dummy,ebx,edx,ecx,eax,us,rfl⟩ := View.popad_stack h
    cases h
    simp only [List.length_cons,Instr.words]
    omega
  | addEsp n =>
    obtain ⟨-,h⟩ := Option.ite_none_right_eq_some.mp h
    cases h
    simp only [List.length_drop]
    omega
  | load =>
    obtain ⟨-,h⟩ := Option.ite_none_right_eq_some.mp h
    obtain ⟨w,-,rfl⟩ := Option.map_eq_some_iff.mp h
    exact Nat.le_add_right _ _
  | store =>
    obtain ⟨-,h⟩ := Option.ite_none_right_eq_some.mp h
    cases h
    simp [Instr.words]
  | call | ret | iretd => cases h

lemma ofNat_four_mul_div {n : Word} (h : 4*(n.toNat/4) = n.toNat) :
    BitVec.ofNat 32 (4*(n.toNat/4)) = n := by
  rw [h,BitVec.ofNat_toNat,BitVec.setWidth_eq]

lemma Tracks.exec_popad {edi esi ebp dummy ebx edx ecx eax : Word} {ws : List Word}
    (h : Tracks d b m c v) (env : Env)
    (hv : v.stack = edi::esi::ebp::dummy::ebx::edx::ecx::eax::ws) :
    ∃ u, v.popad = some u ∧ Tracks d b m (exec env .popad c) u := by
  have get (k : ℕ) (w : Word) (hk : v.stack[k]? = some w) :
      (c.addEsp (BitVec.ofNat 32 (4*k))).top = w := by
    simpa [Cpu.top,Cpu.addEsp,Cpu.esp] using h.word hk
  have h0 : c.top = edi := (h.pop hv).1
  have h1 : (c.addEsp 4).top = esi := get 1 esi (by simp [hv])
  have h2 : (c.addEsp 8).top = ebp := get 2 ebp (by simp [hv])
  have h4 : (c.addEsp 16).top = ebx := get 4 ebx (by simp [hv])
  have h5 : (c.addEsp 20).top = edx := get 5 edx (by simp [hv])
  have h6 : (c.addEsp 24).top = ecx := get 6 ecx (by simp [hv])
  have h7 : (c.addEsp 28).top = eax := get 7 eax (by simp [hv])
  have ht := h.addEsp (k := 8) (by simp [hv])
  obtain ⟨reg,seg,stack⟩ := v
  obtain rfl : stack = _ := hv
  refine ⟨_,rfl,?_⟩
  simp only [X86.exec,h0,h1,h2,h4,h5,h6,h7]
  exact ((((((ht.setReg (by decide) edi).setReg (by decide) esi).setReg (by decide) ebp).setReg
    (by decide) ebx).setReg (by decide) edx).setReg (by decide) ecx).setReg (by decide) eax

/-- Every instruction on lists is an instruction of the processor. -/
theorem Tracks.exec (h : Tracks d b m c v) (env : Env) {i : Instr} (hv : v.step i = some v')
    (hd : v.stack.length+i.words ≤ d) (hs : 4*d ≤ 2^32) : Tracks d b m (exec env i c) v' := by
  have hr (r : Reg) : c.reg r = v.reg r := congrFun h.reg r
  have hg (s : Seg) : c.seg s = v.seg s := congrFun h.seg s
  cases i with
  | nop | out =>
    cases hv
    exact h
  | pushImm w =>
    cases hv
    exact h.push w hd hs
  | pushReg r =>
    cases hv
    rw [X86.exec,hr]
    exact h.push _ hd hs
  | pushSeg s =>
    cases hv
    rw [X86.exec,hg]
    exact h.push _ hd hs
  | pushad =>
    cases hv
    simp only [Instr.words] at hd
    simp only [X86.exec,hr]
    have p1 := h.push (v.reg .eax) (by omega) hs
    have p2 := p1.push (v.reg .ecx) (by simp [View.push]; omega) hs
    have p3 := p2.push (v.reg .edx) (by simp [View.push]; omega) hs
    have p4 := p3.push (v.reg .ebx) (by simp [View.push]; omega) hs
    have p5 := p4.push (v.reg .esp) (by simp [View.push]; omega) hs
    have p6 := p5.push (v.reg .ebp) (by simp [View.push]; omega) hs
    have p7 := p6.push (v.reg .esi) (by simp [View.push]; omega) hs
    exact p7.push (v.reg .edi) (by simp [View.push]; omega) hs
  | popReg r =>
    obtain ⟨reg,seg,stack⟩ := v
    cases stack with
    | nil => cases hv
    | cons w ws =>
      obtain ⟨hne,hv⟩ := Option.ite_none_left_eq_some.mp hv
      cases hv
      obtain ⟨hw,hp⟩ := h.pop rfl
      rw [X86.exec,hw]
      exact hp.setReg hne w
  | popSeg s =>
    obtain ⟨reg,seg,stack⟩ := v
    cases stack with
    | nil => cases hv
    | cons w ws =>
      cases hv
      obtain ⟨hw,hp⟩ := h.pop rfl
      rw [X86.exec,hw]
      exact hp.setSeg s _
  | popad =>
    obtain ⟨edi,esi,ebp,dummy,ebx,edx,ecx,eax,ws,hw⟩ := View.popad_stack hv
    obtain ⟨u,hu,ht⟩ := h.exec_popad env hw
    obtain rfl : u = v' := Option.some.inj (hu.symm.trans hv)
    exact ht
  | addEsp n =>
    obtain ⟨⟨hn,hl⟩,hv⟩ := Option.ite_none_right_eq_some.mp hv
    cases hv
    have ha := h.addEsp hl
    rw [ofNat_four_mul_div hn] at ha
    exact ⟨ha.reg,ha.seg,ha.stack,ha.base,ha.frame⟩
  | movAl x =>
    cases hv
    rw [X86.exec,hr]
    exact h.setReg (by decide) _
  | load dst base disp =>
    obtain ⟨⟨hb,hne,hn⟩,hv⟩ := Option.ite_none_right_eq_some.mp hv
    obtain ⟨w,hw,rfl⟩ := Option.map_eq_some_iff.mp hv
    subst hb
    have hl := h.word hw
    rw [ofNat_four_mul_div hn] at hl
    have he : X86.exec env (.load dst .esp disp) c = c.setReg dst w := by
      rw [X86.exec,← hl]
      rfl
    rw [he]
    exact h.setReg hne w
  | store base disp src =>
    obtain ⟨⟨hb,hn,hl⟩,hv⟩ := Option.ite_none_right_eq_some.mp hv
    cases hv
    subst hb
    have hset := h.set hl (v.reg src) (by omega) hs
    rw [ofNat_four_mul_div hn] at hset
    rw [X86.exec,hr src]
    exact hset
  | call | ret | iretd => cases hv

theorem Tracks.run (h : Tracks d b m c v) (env : Env) {code : List Instr}
    (hv : v.run code = some v') (hd : v.stack.length+(code.map Instr.words).sum ≤ d)
    (hs : 4*d ≤ 2^32) : Tracks d b m (run env code c) v' := by
  induction code generalizing c v with
  | nil =>
    obtain rfl : v = v' := Option.some.inj hv
    exact h
  | cons i code ih =>
    obtain ⟨u,hu,hv⟩ := Option.bind_eq_some_iff.mp hv
    simp only [List.map_cons,List.sum_cons] at hd
    have hl := View.step_length hu
    exact ih (h.exec env hu (by omega) hs) hv (by omega)

end Steps

end X86

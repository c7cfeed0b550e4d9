import OsKernel.Print.Printing

/-! Calls of put_char, and put_str. -/
namespace OsKernel
open X86

namespace Pc
variable {cs : List (BitVec 8)} {s s' : Pc}

/-- The bytes below the stack pointer of a state. -/
def Below (s : Pc) (n : ℕ) (x : Word) : Prop := Span (s.reg .esp-BitVec.ofNat 32 n) n x

theorem StackApart.below {n k : ℕ} (h : StackApart s n k) {x : Word} (hx : Below s n x) :
    ¬InVideo x :=
  h x (Nat.lt_of_lt_of_le hx (Nat.le_add_right _ _))

theorem below_congr (h : s'.reg .esp = s.reg .esp) (n : ℕ) : Below s' n = Below s n := by
  unfold Below
  rw [h]

theorem StackApart.congr {n k : ℕ} (ha : StackApart s n k) (h : s'.reg .esp = s.reg .esp) :
    StackApart s' n k := by
  unfold StackApart
  rw [h]
  exact ha

/-- One character, once it has been painted. -/
theorem Prints.single {c : BitVec 8} (F : Word → Prop) (hf : Fits s.vga.cursor c)
    (hv : s'.vga.cursor = advance s.vga.cursor c) (hm : s'.mem = paint s.mem s.vga.cursor c) :
    Prints F [c] s s' :=
  ⟨hv,fun x _ => congrFun hm x,fun x hx _ => (congrFun hm x).trans (paint_of_not_span hf hx)⟩

/-- put_char prints its argument. -/
theorem putChar_prints (ha : StackApart s 32 4) (hf : Fits s.vga.cursor (low8 s.arg)) :
    Prints (Below s 32) [low8 s.arg] s (returned s (paint s.pushad.mem s.vga.cursor (low8 s.arg))
      (advance s.vga.cursor (low8 s.arg))) := by
  have hpush : Prints (Below s 32) [] s s.pushad :=
    .nil (fun x => ha.below) rfl fun x hx => Cpu.pushad_mem hx
  exact hpush.trans (.single _ hf (Vga.cursor_withCursor _ _) rfl)

/-- The state after two pushes. -/
structure Pushed (s : Pc) (u w : Word) (s₁ : Pc) : Prop where
  esp : s₁.reg .esp = s.reg .esp-8
  stack : Holds s₁.mem (s₁.reg .esp) [w,u,load s.mem (s.reg .esp)]
  reg : ∀ r, r ≠ .esp → s₁.cpu.reg r = s.cpu.reg r
  vga : s₁.vga = s.vga
  frame : ∀ x, ¬Below s 8 x → s₁.mem x = s.mem x

theorem pushed (s : Pc) (u w : Word) : Pushed s u w ((s.push u).push w) := by
  have hesp : (s.push u).reg .esp = s.reg .esp-4 := Cpu.push_esp _
  refine ⟨?_,?_,fun r hr => ?_,rfl,fun x hx => ?_⟩
  · refine (Cpu.push_esp _).trans ?_
    show (s.push u).reg .esp-4 = _
    rw [hesp]
    bv_omega
  · have h₀ : Holds s.cpu.mem s.cpu.esp [load s.mem (s.reg .esp)] := ⟨rfl,trivial⟩
    exact Cpu.push_holds (Cpu.push_holds h₀ u (by simp)) w (by simp)
  · exact (Cpu.push_reg_of_ne _ hr).trans (Cpu.push_reg_of_ne _ hr)
  · simp only [Below,Span] at hx
    have h₁ : ¬Span ((s.push u).reg .esp-4) 4 x := by
      rw [hesp]
      simp only [Span]
      bv_omega
    have h₂ : ¬Span (s.reg .esp-4) 4 x := by
      simp only [Span]
      bv_omega
    exact (Cpu.push_mem h₁).trans (Cpu.push_mem h₂)

variable {u w : Word} {s₁ : Pc}

theorem Pushed.arg (h : Pushed s u w s₁) : s₁.arg = u := h.stack.2.1

theorem Pushed.apart (h : Pushed s u w s₁) {k : ℕ} (ha : StackApart s 40 k) :
    StackApart s₁ 32 4 := by
  intro x hx
  rw [h.esp] at hx
  refine ha x ?_
  simp only [Span] at hx ⊢
  bv_omega

/-- The two words are scratch memory. -/
theorem Pushed.prints (h : Pushed s u w s₁) {n k : ℕ} (hn : 8 ≤ n) (hn' : n < 2^32)
    (ha : StackApart s n k) : Prints (Below s n) [] s s₁ := by
  refine .nil (fun x => ha.below) h.vga fun x hx => h.frame x fun h' => hx ?_
  simp only [Below,Span] at h' ⊢
  bv_omega

/-- A call of put_char, with the character in cl. -/
theorem callPutChar (next : Word) {k : ℕ} (ha : StackApart s 40 k) :
    EndsIf (Fits s.vga.cursor (low8 (s.reg .ecx))) (fun s' =>
      (s'.addEsp 4).cpu.reg = s.cpu.reg ∧
        Prints (Below s 40) [low8 (s.reg .ecx)] s (s'.addEsp 4))
      .protection ((s.push (s.reg .ecx)).call next putChar) := by
  have he := pushed s (s.reg .ecx) next
  unfold call
  generalize (s.push (s.reg .ecx)).push next = s₁ at he ⊢
  have ha₁ := he.apart ha
  rw [← he.vga,← he.arg]
  refine ⟨fun hf => ?_,fun hf => ?_⟩
  · have hprints := putChar_prints ha₁ hf
    refine ⟨_,(bind_of_ok ((putChar_eq ha₁).trans (if_pos hf))).trans (if_pos he.stack.1),?_,?_⟩
    · funext r
      by_cases hr : r = .esp
      · subst hr
        have hesp : s.reg .esp-8+4+4 = s.reg .esp := by bv_omega
        simp only [addEsp,Cpu.addEsp,returned,Cpu.esp,Function.update_self,he.esp,hesp]
        rfl
      · simp only [addEsp,Cpu.addEsp,returned,Function.update_of_ne hr,he.reg r hr]
    · have hbelow : ∀ x, Below s₁ 32 x → Below s 40 x := by
        intro x hx
        simp only [Below,Span,he.esp] at hx ⊢
        bv_omega
      exact (he.prints (by decide) (by decide) ha).trans ((hprints.mono hbelow).addEsp 4)
  · rw [putChar_eq ha₁,if_neg hf]
    rfl

/-- The string at an address, with the zero that ends it. -/
def StringAt (m : Mem) (a : Word) : List (BitVec 8) → Prop
  | [] => m a = 0
  | c::cs => m a = c ∧ c ≠ 0 ∧ StringAt m (a+1) cs

theorem StringAt.congr {m m' : Mem} {a : Word} (h : StringAt m a cs)
    (hm : ∀ x, Span a (cs.length+1) x → m' x = m x) : StringAt m' a cs := by
  have hfirst : m' a = m a := hm a (by simp [Span])
  induction cs generalizing a with
  | nil => exact hfirst.trans h
  | cons c cs ih =>
    have hrest : ∀ x, Span (a+1) (cs.length+1) x → m' x = m x := by
      intro x hx
      by_cases he : x = a
      · rw [he,hfirst]
      · refine hm x ?_
        simp only [Span,List.length_cons] at hx ⊢
        bv_omega
    exact ⟨hfirst.trans h.1,h.2.1,ih h.2.2 hrest (hrest _ (by simp [Span]))⟩

/-- The part of the loop of put_str that prints the character in cl. -/
def goonChar (l : Link) (s : Pc) : Except Fault Pc :=
  (s.push (s.reg .ecx)).call l.putStrNext putChar >>= fun s =>
    .ok ((s.addEsp 4).setReg .ebx ((s.addEsp 4).reg .ebx+1))

theorem goon_succ (l : Link) (s : Pc) (rounds : ℕ) (hc : s.mem (s.reg .ebx) ≠ 0) :
    goon l s (rounds+1) = (goonChar l (s.movLow8 .ecx (s.mem (s.reg .ebx))) >>= fun s =>
      goon l s rounds) := by
  have hlow : low8 ((s.movLow8 .ecx (s.mem (s.reg .ebx))).reg .ecx) ≠ 0 := by simpa using hc
  rw [goon,goonChar,bind_ok_bind]
  exact if_neg hlow

theorem goon_end (l : Link) (s : Pc) (rounds : ℕ) (hc : s.mem (s.reg .ebx) = 0) :
    goon l s (rounds+1) = .ok (s.movLow8 .ecx (s.mem (s.reg .ebx))).strOver := by
  have hlow : low8 ((s.movLow8 .ecx (s.mem (s.reg .ebx))).reg .ecx) = 0 := by simpa using hc
  rw [goon]
  exact if_pos hlow

theorem goonChar_prints (l : Link) {k : ℕ} (ha : StackApart s 40 k) :
    EndsIf (Fits s.vga.cursor (low8 (s.reg .ecx))) (fun s' =>
      s'.reg .ebx = s.reg .ebx+1 ∧ (∀ r, r ≠ .ebx → s'.reg r = s.reg r) ∧
        Prints (Below s 40) [low8 (s.reg .ecx)] s s') .protection (goonChar l s) := by
  refine ((callPutChar l.putStrNext ha).bind fun s₁ h₁ => ?_).congr (iff_of_eq (and_true _))
  obtain ⟨hreg,hp⟩ := h₁
  refine ⟨fun _ => ⟨_,rfl,?_,fun r hr => ?_,hp.setReg _ _⟩,fun h => absurd trivial h⟩
  · rw [reg_setReg,if_pos rfl]
    exact congrArg (·+1) (congrFun hreg .ebx)
  · rw [reg_setReg,if_neg hr]
    exact congrFun hreg r

/-- The loop of put_str: the characters up to the zero. -/
theorem goon_prints (l : Link) {n k : ℕ} (hn : cs.length < n) (ha : StackApart s 40 k)
    (hstr : StringAt s.mem (s.reg .ebx) cs)
    (hapart : ∀ x, Span (s.reg .ebx) (cs.length+1) x → ¬Below s 40 x ∧ ¬InVideo x) :
    EndsIf (FitsAll s.vga.cursor cs) (fun t => ∃ s', t = s'.strOver ∧
      (∀ r, r ∉ [.ebx,.ecx] → s'.reg r = s.reg r) ∧ Prints (Below s 40) cs s s')
      .protection (goon l s n) := by
  induction cs generalizing s n with
  | nil =>
    obtain ⟨n,rfl⟩ := Nat.exists_eq_succ_of_ne_zero (Nat.ne_zero_of_lt hn)
    have hself : Prints (Below s 40) [] s s := .nil (fun x hx => ha.below hx) rfl fun x _ => rfl
    refine ⟨fun _ => ⟨_,goon_end l s n hstr,_,rfl,fun r hr => ?_,hself.setReg _ _⟩,
      fun hf => absurd trivial hf⟩
    rw [reg_movLow8,if_neg fun h => hr (by simp [h])]
  | cons c cs ih =>
    obtain ⟨n,rfl⟩ := Nat.exists_eq_succ_of_ne_zero (Nat.ne_zero_of_lt hn)
    obtain ⟨hc,hne,htail⟩ := hstr
    have hcl : low8 ((s.movLow8 .ecx (s.mem (s.reg .ebx))).reg .ecx) = c := by simp [hc]
    have hchar := goonChar_prints (s := s.movLow8 .ecx (s.mem (s.reg .ebx))) l (k := k) ha
    rw [hcl] at hchar
    rw [goon_succ l s n (hc ▸ hne)]
    refine hchar.bind fun s₁ h₁ => ?_
    obtain ⟨hbx,hreg,hp⟩ := h₁
    have hreg₁ : ∀ r, r ∉ [.ebx,.ecx] → s₁.reg r = s.reg r := by
      intro r hr
      simp only [List.mem_cons,List.not_mem_nil,or_false,not_or] at hr
      rw [hreg r hr.1,reg_movLow8,if_neg hr.2]
    have hp₁ : Prints (Below s 40) [c] s s₁ := ⟨hp.cursor,hp.text,hp.frame⟩
    have hbx₁ : s₁.reg .ebx = s.reg .ebx+1 := hbx
    have hesp : s₁.reg .esp = s.reg .esp := hreg₁ _ (by decide)
    have hbelow := below_congr hesp 40
    have hrest : ∀ x, Span (s₁.reg .ebx) (cs.length+1) x → ¬Below s 40 x ∧ ¬InVideo x := by
      intro x hx
      refine hapart x ?_
      simp only [Span,List.length_cons,hbx₁] at hx ⊢
      bv_omega
    have hstr₁ : StringAt s₁.mem (s₁.reg .ebx) cs := by
      have h : StringAt s.mem (s₁.reg .ebx) cs := hbx₁ ▸ htail
      exact h.congr fun x hx => hp₁.frame x (hrest x hx).2 (hrest x hx).1
    have hrun := ih (n := n) (by simpa using hn) (ha.congr hesp) hstr₁ (hbelow ▸ hrest)
    rw [hbelow,hp₁.cursor] at hrun
    refine hrun.mono fun t h => ?_
    obtain ⟨s',ht,hr,hp'⟩ := h
    exact ⟨s',ht,fun r hr' => (hr r hr').trans (hreg₁ r hr'),hp₁.trans hp'⟩

/-- Back behind the call: the stack pointer and the registers that a caller relies on are those
before the call. -/
structure Returns (s s' : Pc) : Prop where
  eip : s'.cpu.eip = load s.mem (s.reg .esp)
  esp : s'.reg .esp = s.reg .esp+4
  saved : ∀ r ∈ [Reg.ebx,.ebp,.esi,.edi], s'.reg r = s.reg r

theorem returned_reg (s : Pc) (m : Mem) (bx : BitVec 16) (r : Reg) :
    (returned s m bx).reg r = if r = .esp then s.reg .esp+4 else s.reg r :=
  Function.update_apply _ _ _ _

theorem returned_returns (s : Pc) (m : Mem) (bx : BitVec 16) : Returns s (returned s m bx) := by
  refine ⟨rfl,(returned_reg _ _ _ _).trans (if_pos rfl),fun r hr => ?_⟩
  rw [returned_reg,if_neg]
  rintro rfl
  simp at hr

/-- The end of put_str pops what its start has pushed. -/
theorem strOver_returns (hesp : s'.reg .esp = s.reg .esp-8)
    (hstack : Holds s'.mem (s'.reg .esp) [s.reg .ecx,s.reg .ebx,load s.mem (s.reg .esp)])
    (hreg : ∀ r ∈ [Reg.ebp,.esi,.edi], s'.reg r = s.reg r) : Returns s s'.strOver := by
  obtain ⟨-,hbx,hret,-⟩ := hstack
  have h4 : (s'.pop .ecx).cpu.top = s.reg .ebx := hbx
  have h8 : ((s'.pop .ecx).pop .ebx).cpu.top = load s.mem (s.reg .esp) := hret
  refine ⟨h8,?_,fun r hr => ?_⟩
  · show s'.reg .esp+4+4+4 = s.reg .esp+4
    rw [hesp]
    bv_omega
  · fin_cases hr
    · exact h4
    · exact hreg .ebp (by decide)
    · exact hreg .esi (by decide)
    · exact hreg .edi (by decide)

/-- put_str prints the string that it gets. -/
theorem putStr_prints (l : Link) {n : ℕ} (hn : cs.length < n) (ha : StackApart s 48 4)
    (hstr : StringAt s.mem s.arg cs)
    (hapart : ∀ x, Span s.arg (cs.length+1) x → ¬Below s 48 x ∧ ¬InVideo x) :
    EndsIf (FitsAll s.vga.cursor cs) (fun s' => Returns s s' ∧ Prints (Below s 48) cs s s')
      .protection (s.putStr l n) := by
  have he := pushed s (s.reg .ebx) (s.reg .ecx)
  have hs : s.putStr l n = goon l ((((s.push (s.reg .ebx)).push (s.reg .ecx)).setReg .ecx
    0).setReg .ebx (load ((s.push (s.reg .ebx)).push (s.reg .ecx)).mem
      (((s.push (s.reg .ebx)).push (s.reg .ecx)).reg .esp+12))) n := rfl
  generalize (s.push (s.reg .ebx)).push (s.reg .ecx) = p at he hs
  have hbelow' : ∀ x, Below s 8 x → Below s 48 x := by
    intro x hx
    simp only [Below,Span] at hx ⊢
    bv_omega
  have harg : load p.mem (p.reg .esp+12) = s.arg := by
    have ha : p.reg .esp+12 = s.reg .esp+4 := by
      rw [he.esp]
      bv_omega
    rw [ha]
    refine load_congr fun x hx => he.frame x ?_
    simp only [Below,Span] at hx ⊢
    bv_omega
  rw [harg] at hs
  have hbelow : ∀ x, Below p 40 x → Below s 48 x := by
    intro x hx
    simp only [Below,Span,he.esp] at hx ⊢
    bv_omega
  have hp₁ : StackApart ((p.setReg .ecx 0).setReg .ebx s.arg) 40 12 := by
    intro x hx
    refine ha x ?_
    have hx' : Span (p.reg .esp-40) 52 x := hx
    simp only [Span,he.esp] at hx' ⊢
    bv_omega
  have hstr₁ : StringAt p.mem s.arg cs :=
    hstr.congr fun x hx => he.frame x fun h => (hapart x hx).1 (hbelow' x h)
  have hrun := goon_prints l hn hp₁ hstr₁ fun x hx =>
    ⟨fun h => (hapart x hx).1 (hbelow x h),(hapart x hx).2⟩
  rw [hs]
  refine (hrun.congr (iff_of_eq (congrArg (fun v : Vga => FitsAll v.cursor cs) he.vga))).mono
    fun t h => ?_
  obtain ⟨s',ht,hreg,hp⟩ := h
  have hesp : s'.reg .esp = p.reg .esp := hreg _ (by decide)
  have hstack : Holds s'.mem (s'.reg .esp) [s.reg .ecx,s.reg .ebx,load s.mem (s.reg .esp)] := by
    rw [hesp]
    refine he.stack.congr (by simp) fun x hx => hp.frame x (hp₁ x ?_) ?_
    · have h : Span (p.reg .esp) 12 x := hx
      show Span (p.reg .esp-40) 52 x
      simp only [Span] at h ⊢
      bv_omega
    · have h : Span (p.reg .esp) 12 x := hx
      show ¬Span (p.reg .esp-40) 40 x
      simp only [Span] at h ⊢
      bv_omega
  have hp' : Prints (Below s 48) cs p s' := ⟨hp.cursor,hp.text,(hp.mono hbelow).frame⟩
  have hprints := (he.prints (by decide) (by decide) ha).trans hp'
  subst ht
  refine ⟨strOver_returns (hesp.trans he.esp) hstack fun r hr => ?_,
    ⟨hprints.cursor,hprints.text,hprints.frame⟩⟩
  have hne : r ≠ .esp ∧ r ∉ [Reg.ebx,.ecx] := by
    fin_cases hr <;> decide
  refine (hreg r hne.2).trans (Eq.trans ?_ (he.reg r hne.1))
  fin_cases hr <;> rfl

end Pc
end OsKernel

import OsKernel.Print.Calls

/-! put_int: the digits of a number in put_int_buffer, and the printing of those after the leading
zeros. -/
namespace OsKernel
open X86

/-- The character of the last hexadecimal digit. -/
def hexDigit (n : Word) : BitVec 8 :=
  low8 (if BitVec.slt 9 (n &&& 15) then (n &&& 15)-10+0x41 else (n &&& 15)+0x30)

/-- The last k hexadecimal digits, the most significant one first. -/
def hexText (n : Word) : ℕ → List (BitVec 8)
  | 0 => []
  | k+1 => hexText (n >>> 4) k ++ [hexDigit n]

/-- Leading zeros are left out, but not all digits. -/
def stripZeros : List (BitVec 8) → List (BitVec 8)
  | [] => [0x30]
  | c::cs => if c = 0x30 then stripZeros cs else c::cs

/-- The text that put_int prints. -/
def intText (n : Word) : List (BitVec 8) := stripZeros (hexText n 8)

/-- The last k digits have been written from an address on, the last one first. -/
def putDigits (m : Mem) (a n : Word) : ℕ → Mem
  | 0 => m
  | k+1 => putDigits (Function.update m (a+BitVec.ofNat 32 k) (hexDigit n)) a (n >>> 4) k

/-- The bytes from an address on are those of the list. -/
def BytesAt (m : Mem) (a : Word) (cs : List (BitVec 8)) : Prop :=
  ∀ k (hk : k < cs.length), m (a+BitVec.ofNat 32 k) = cs[k]

section Digits
variable {m : Mem} {a n x : Word} {k : ℕ}

@[simp] theorem hexText_length (n : Word) (k : ℕ) : (hexText n k).length = k := by
  induction k generalizing n with
  | zero => rfl
  | succ k ih => simp [hexText,ih]

theorem putDigits_of_not_span (hk : k ≤ 2^32) (hx : ¬Span a k x) : putDigits m a n k x = m x := by
  induction k generalizing m n with
  | zero => rfl
  | succ k ih =>
    simp only [Span] at hx
    have hne : x ≠ a+BitVec.ofNat 32 k := by
      rintro rfl
      exact hx (by bv_omega)
    have hx' : ¬Span a k x := fun h => hx (Nat.lt_succ_of_lt h)
    rw [putDigits,ih (by omega) hx',Function.update_of_ne hne]

theorem bytesAt_putDigits (hk : k ≤ 2^32) : BytesAt (putDigits m a n k) a (hexText n k) := by
  induction k generalizing m n with
  | zero => exact fun k hk => absurd hk (Nat.not_lt_zero k)
  | succ k ih =>
    intro i hi
    simp only [hexText_length] at hi
    by_cases hlast : i = k
    · subst hlast
      have hx : ¬Span a i (a+BitVec.ofNat 32 i) := by
        simp only [Span]
        bv_omega
      rw [putDigits,putDigits_of_not_span (by omega) hx,Function.update_self]
      simp [hexText]
    · have hlt : i < (hexText (n >>> 4) k).length := by
        rw [hexText_length]
        omega
      rw [putDigits,ih (by omega) i hlt]
      simp only [hexText]
      rw [List.getElem_append_left hlt]

variable {c : BitVec 8} {rest cs : List (BitVec 8)} {m' : Mem}

theorem BytesAt.head (h : BytesAt m a (c::rest)) : m a = c := by
  have h₀ : m (a+0#32) = c := h 0 (Nat.succ_pos _)
  rwa [BitVec.add_zero] at h₀

theorem BytesAt.tail (h : BytesAt m a (c::rest)) : BytesAt m (a+1) rest := by
  intro k hk
  have ha : a+1+BitVec.ofNat 32 k = a+BitVec.ofNat 32 (k+1) := by bv_omega
  rw [ha]
  exact h (k+1) (Nat.succ_lt_succ hk)

theorem BytesAt.congr (h : BytesAt m a cs)
    (hm : ∀ k < cs.length, m' (a+BitVec.ofNat 32 k) = m (a+BitVec.ofNat 32 k)) :
    BytesAt m' a cs :=
  fun k hk => (hm k hk).trans (h k hk)

end Digits

namespace Pc
variable {s s' : Pc}

/-- One round of the conversion. -/
theorem based16_round (s : Pc) : ∃ s', s.based16 = .ok s' ∧
    s'.reg .eax = s.reg .eax >>> 4 ∧ s'.reg .edx = s.reg .eax >>> 4 ∧
    s'.reg .edi = s.reg .edi-1 ∧ Moves [.eax,.edx,.edi] s
      (Function.update s.mem (s.reg .ebx+s.reg .edi) (hexDigit (s.reg .edx))) s' := by
  obtain ⟨w,hw,hs⟩ : ∃ w, low8 w = hexDigit (s.reg .edx) ∧ s.based16 = .ok
      (((((s.setReg .edx w).storeByte (s.reg .ebx+s.reg .edi) (low8 w)).setReg .edi
        (s.reg .edi-1)).setReg .eax (s.reg .eax >>> 4)).setReg .edx (s.reg .eax >>> 4)) := by
    have hdx : (s.setReg .edx (s.reg .edx &&& 0x0000000f)).reg .edx = s.reg .edx &&& 15 := by simp
    unfold based16 hexDigit
    dsimp only
    rw [hdx]
    by_cases h : BitVec.slt 9 (s.reg .edx &&& 15)
    · refine ⟨(s.reg .edx &&& 15)-10+0x41,?_,?_⟩
      · rw [if_pos h]
      · rw [if_pos h]
        simp [storeByte]
    · refine ⟨(s.reg .edx &&& 15)+0x30,?_,?_⟩
      · rw [if_neg h]
      · rw [if_neg h]
        simp [storeByte]
  have hmoves : Moves [.eax,.edx,.edi] s s.mem (s.setReg .edx w) :=
    ((Moves.refl s).mono (by simp)).setReg (by simp) w
  refine ⟨_,hs,?_,?_,?_,?_⟩
  · simp
  · simp
  · simp
  · rw [← hw]
    exact (((hmoves.setMem _).setReg (by simp) _).setReg (by simp) _).setReg (by simp) _

/-- The conversion with k rounds to come: what they do to the memory ends in m. -/
structure Based16Rounds (s₀ : Pc) (m : Mem) (k : ℕ) (s : Pc) : Prop where
  moves : Moves [.eax,.ecx,.edx,.edi] s₀ s.mem s
  edx : s.reg .edx = s.reg .eax
  edi : s.reg .edi = BitVec.ofNat 32 k-1
  rest : putDigits s.mem (s.reg .ebx) (s.reg .eax) k = m

/-- The loop of the conversion. -/
theorem loop_based16 (hcx : s.reg .ecx = 8) (hdi : s.reg .edi = 7)
    (hdx : s.reg .edx = s.reg .eax) : ∃ s', loop based16 s 8 = .ok s' ∧ s'.reg .edi = -1 ∧
      Moves [.eax,.ecx,.edx,.edi] s (putDigits s.mem (s.reg .ebx) (s.reg .eax) 8) s' := by
  have hround : ∀ k s', Based16Rounds s (putDigits s.mem (s.reg .ebx) (s.reg .eax) 8) (k+1) s' →
      ∃ s'', s'.based16 = .ok s'' ∧ s''.reg .ecx = s'.reg .ecx ∧ Based16Rounds s
        (putDigits s.mem (s.reg .ebx) (s.reg .eax) 8) k (s''.setReg .ecx (s''.reg .ecx-1)) := by
    intro k s' h
    obtain ⟨s'',hs,hax,hdx,hdi,hm⟩ := s'.based16_round
    have hm' : Moves [.eax,.ecx,.edx,.edi] s' _ s'' := hm.mono (by simp)
    have hidx : s'.reg .edi = BitVec.ofNat 32 k := by
      rw [h.edi]
      bv_omega
    have hmem : (s''.setReg .ecx (s''.reg .ecx-1)).mem = s''.mem := rfl
    have hbx : (s''.setReg .ecx (s''.reg .ecx-1)).reg .ebx = s'.reg .ebx :=
      hm.reg .ebx (by decide)
    have hax' : (s''.setReg .ecx (s''.reg .ecx-1)).reg .eax = s'.reg .eax >>> 4 := hax
    refine ⟨s'',hs,hm.reg .ecx (by decide),?_,?_,?_,?_⟩
    · rw [hmem,hm.mem]
      exact (h.moves.trans hm').setReg (by simp) _
    · exact hdx.trans hax.symm
    · exact hdi.trans (by rw [hidx])
    · rw [hmem,hm.mem,hbx,hax',h.edx,hidx]
      exact h.rest
  have hself : Moves [.eax,.ecx,.edx,.edi] s s.mem s := (Moves.refl s).mono (by simp)
  obtain ⟨s',hs,h⟩ := loop_run hround (by omega) hcx ⟨hself,hdx,hdi,rfl⟩
  have hmem : s'.mem = _ := h.rest
  exact ⟨s',hs,h.edi,hmem ▸ h.moves⟩

/-- The part of .put_each_num that prints the character in cl and fetches the next one. -/
def numChar (l : Link) (s : Pc) : Except Fault Pc :=
  (s.push (s.reg .ecx)).call l.putIntNext putChar >>= fun s =>
    .ok (((s.addEsp 4).setReg .edi ((s.addEsp 4).reg .edi+1)).movLow8 .ecx
      (s.mem (l.putIntBuffer+((s.addEsp 4).reg .edi+1))))

theorem putEachNum_succ (l : Link) (s : Pc) (rounds : ℕ) : putEachNum l s (rounds+1) =
    numChar l s >>= fun s =>
      if (s.reg .edi).slt 8 then putEachNum l s rounds else .ok s.popad.ret := by
  rw [putEachNum,numChar,bind_ok_bind]
  rfl

theorem numChar_prints (l : Link) {k : ℕ} (ha : StackApart s 40 k) :
    EndsIf (Fits s.vga.cursor (low8 (s.reg .ecx))) (fun s' =>
      s'.reg .edi = s.reg .edi+1 ∧ s'.reg .esp = s.reg .esp ∧
        low8 (s'.reg .ecx) = s'.mem (l.putIntBuffer+s'.reg .edi) ∧
        Prints (Below s 40) [low8 (s.reg .ecx)] s s') .protection (numChar l s) := by
  refine ((callPutChar l.putIntNext ha).bind fun s₁ h₁ => ?_).congr (iff_of_eq (and_true _))
  obtain ⟨hreg,hp⟩ := h₁
  refine ⟨fun _ => ⟨_,rfl,?_,?_,?_,⟨hp.cursor,hp.text,hp.frame⟩⟩,fun h => absurd trivial h⟩
  · exact congrArg (·+1) (congrFun hreg .edi)
  · exact congrFun hreg .esp
  · simp
    rfl

/-- The rest of the digits stands in the buffer behind the one at edi. -/
structure DigitsAhead (l : Link) (rest : List (BitVec 8)) (s : Pc) : Prop where
  index : (s.reg .edi).toNat ≤ 8
  length : rest.length = 8-((s.reg .edi).toNat+1)
  bytes : BytesAt s.mem (l.putIntBuffer+(s.reg .edi+1)) rest

/-- The buffer lies neither in the text memory nor in the given stretch of stack. -/
def BufferApart (l : Link) (s : Pc) (below above : ℕ) : Prop :=
  ∀ x, Span l.putIntBuffer 8 x →
    ¬Span (s.reg .esp-BitVec.ofNat 32 below) (below+above) x ∧ ¬InVideo x

variable {l : Link} {c : BitVec 8} {rest : List (BitVec 8)}

/-- A digit from the buffer is printed, and the others stay ahead. -/
theorem DigitsAhead.next (hd : DigitsAhead l (c::rest) s) (hb : BufferApart l s 40 0)
    {cs : List (BitVec 8)} (hp : Prints (Below s 40) cs s s') (hdi : s'.reg .edi = s.reg .edi+1) :
    s'.mem (l.putIntBuffer+s'.reg .edi) = c ∧ DigitsAhead l rest s' := by
  have hlen := hd.length
  simp only [List.length_cons] at hlen
  have hidx := hd.index
  have hdi' : (s.reg .edi+1).toNat = (s.reg .edi).toNat+1 := by bv_omega
  have hkeep : ∀ k ≤ rest.length, s'.mem (l.putIntBuffer+(s.reg .edi+1)+BitVec.ofNat 32 k) =
      s.mem (l.putIntBuffer+(s.reg .edi+1)+BitVec.ofNat 32 k) := by
    intro k hk
    have hx : Span l.putIntBuffer 8 (l.putIntBuffer+(s.reg .edi+1)+BitVec.ofNat 32 k) := by
      simp only [Span]
      bv_omega
    exact hp.frame _ (hb _ hx).2 (hb _ hx).1
  have hbytes : BytesAt s'.mem (l.putIntBuffer+(s.reg .edi+1)) (c::rest) :=
    hd.bytes.congr fun k hk => hkeep k (Nat.le_of_lt_succ hk)
  rw [hdi]
  refine ⟨hbytes.head,by rw [hdi]; omega,by rw [hdi]; omega,?_⟩
  rw [hdi,← BitVec.add_assoc]
  exact hbytes.tail

theorem BufferApart.congr (hb : BufferApart l s 40 0) (hesp : s'.reg .esp = s.reg .esp) :
    BufferApart l s' 40 0 := by
  unfold BufferApart
  rw [hesp]
  exact hb

theorem DigitsAhead.last (hd : DigitsAhead l [] s) (hdi : s'.reg .edi = s.reg .edi+1) :
    ¬(s'.reg .edi).slt 8 := by
  have hidx := hd.index
  have hlen := hd.length
  simp only [List.length_nil] at hlen
  rw [slt_eq_decide (by rw [hdi]; bv_omega) (by decide),decide_eq_true_iff,hdi]
  bv_omega

theorem DigitsAhead.more (hd : DigitsAhead l (c::rest) s) (hdi : s'.reg .edi = s.reg .edi+1) :
    (s'.reg .edi).slt 8 := by
  have hlen := hd.length
  simp only [List.length_cons] at hlen
  rw [slt_eq_decide (by rw [hdi]; bv_omega) (by decide),decide_eq_true_iff,hdi]
  bv_omega

/-- The loop at .put_each_num: the digit in cl and those ahead. -/
theorem putEachNum_prints {n k : ℕ} (hn : rest.length < n) (ha : StackApart s 40 k)
    (hb : BufferApart l s 40 0) (hd : DigitsAhead l rest s) :
    EndsIf (FitsAll s.vga.cursor (low8 (s.reg .ecx)::rest)) (fun t => ∃ s', t = s'.popad.ret ∧
      s'.reg .esp = s.reg .esp ∧ Prints (Below s 40) (low8 (s.reg .ecx)::rest) s s')
      .protection (putEachNum l s n) := by
  have hidx := hd.index
  have hlen := hd.length
  induction rest generalizing s n with
  | nil =>
    obtain ⟨n,rfl⟩ := Nat.exists_eq_succ_of_ne_zero (Nat.ne_zero_of_lt hn)
    rw [putEachNum_succ]
    refine (numChar_prints l ha).bind fun s₁ h₁ => ?_
    obtain ⟨hdi,hesp,-,hp⟩ := h₁
    rw [if_neg (hd.last hdi)]
    exact ⟨fun _ => ⟨_,rfl,s₁,rfl,hesp,hp⟩,fun h => absurd trivial h⟩
  | cons d rest ih =>
    obtain ⟨n,rfl⟩ := Nat.exists_eq_succ_of_ne_zero (Nat.ne_zero_of_lt hn)
    rw [putEachNum_succ]
    refine (numChar_prints l ha).bind fun s₁ h₁ => ?_
    obtain ⟨hdi,hesp,hcl,hp⟩ := h₁
    obtain ⟨hd₁,hahead⟩ := hd.next hb hp hdi
    rw [if_pos (hd.more hdi)]
    have hrun := ih (n := n) (by simpa using hn) (ha.congr hesp) (hb.congr hesp) hahead hahead.index
      hahead.length
    rw [hcl,hd₁,below_congr hesp,hp.cursor] at hrun
    refine hrun.mono fun t h => ?_
    obtain ⟨s',ht,hesp',hp'⟩ := h
    exact ⟨s',ht,hesp'.trans hesp,hp.trans hp'⟩

/-- The state in which .skip_prefix_0 jumps to .put_each_num. -/
def skipTo (l : Link) (s : Pc) : ℕ → Except Fault Pc
  | 0 => .error .unfinished
  | rounds+1 =>
    if s.reg .edi = 8 then .ok (s.movLow8 .ecx 0x30)
    else
      let s := s.movLow8 .ecx (s.mem (l.putIntBuffer+s.reg .edi))
      let s := s.setReg .edi (s.reg .edi+1)
      if low8 (s.reg .ecx) = 0x30 then skipTo l s rounds
      else .ok (s.setReg .edi (s.reg .edi-1))

theorem skipPrefix0_eq (l : Link) (s : Pc) (n : ℕ) :
    skipPrefix0 l s n = skipTo l s n >>= fun s => putEachNum l s 8 := by
  induction n generalizing s with
  | zero => rfl
  | succ n ih =>
    rw [skipPrefix0,skipTo]
    dsimp only
    split
    · rfl
    · split
      · exact ih _
      · rfl

/-- The search for the first digit that is not zero. -/
theorem skipTo_digits {ds : List (BitVec 8)} {n : ℕ} (hn : ds.length < n)
    (hidx : (s.reg .edi).toNat+ds.length = 8)
    (hbytes : BytesAt s.mem (l.putIntBuffer+s.reg .edi) ds) :
    ∃ s' rest, skipTo l s n = .ok s' ∧ low8 (s'.reg .ecx)::rest = stripZeros ds ∧
      DigitsAhead l rest s' ∧ Moves [.ecx,.edi] s s.mem s' := by
  induction ds generalizing s n with
  | nil =>
    obtain ⟨n,rfl⟩ := Nat.exists_eq_succ_of_ne_zero (Nat.ne_zero_of_lt hn)
    have hdi : (s.reg .edi).toNat = 8 := hidx
    have hm : Moves [.ecx,.edi] s s.mem (s.movLow8 .ecx 0x30) :=
      ((Moves.refl s).mono (by simp)).setReg (by simp) _
    refine ⟨_,[],if_pos (BitVec.eq_of_toNat_eq hdi),?_,⟨hdi.le,?_,?_⟩,hm⟩
    · simp [stripZeros]
    · have hdi' : ((s.movLow8 .ecx 0x30).reg .edi).toNat = 8 := hdi
      rw [hdi']
      rfl
    · exact fun k hk => absurd hk (Nat.not_lt_zero k)
  | cons c cs ih =>
    obtain ⟨n,rfl⟩ := Nat.exists_eq_succ_of_ne_zero (Nat.ne_zero_of_lt hn)
    simp only [List.length_cons] at hidx
    have hc := hbytes.head
    have htail := hbytes.tail
    rw [BitVec.add_assoc] at htail
    have hdi' : (s.reg .edi+1).toNat = (s.reg .edi).toNat+1 := by bv_omega
    have hne : s.reg .edi ≠ 8 := by
      intro he
      have h8 : (s.reg .edi).toNat = 8 := congrArg BitVec.toNat he
      omega
    have hm : Moves [.ecx,.edi] s s.mem
        ((s.movLow8 .ecx c).setReg .edi (s.reg .edi+1)) :=
      (((Moves.refl s).mono (by simp)).setReg (by simp) _).setReg (by simp) _
    have hskip : skipTo l s (n+1) = if c = 0x30 then
        skipTo l ((s.movLow8 .ecx c).setReg .edi (s.reg .edi+1)) n
        else .ok (((s.movLow8 .ecx c).setReg .edi (s.reg .edi+1)).setReg .edi
          (s.reg .edi+1-1)) := by
      rw [skipTo,if_neg hne,hc]
      simp
    rw [hskip]
    by_cases hz : c = 0x30
    · rw [if_pos hz]
      obtain ⟨s',rest,hs,htext,hd,hm'⟩ := ih (n := n)
        (s := (s.movLow8 .ecx c).setReg .edi (s.reg .edi+1)) (by simpa using hn)
        (by rw [reg_setReg,if_pos rfl]; omega) (by rw [reg_setReg,if_pos rfl]; exact htail)
      refine ⟨s',rest,hs,?_,hd,hm.trans hm'⟩
      rw [htext,stripZeros,if_pos hz]
    · rw [if_neg hz]
      have hback : s.reg .edi+1-1 = s.reg .edi := by bv_omega
      have hdi₁ : (((s.movLow8 .ecx c).setReg .edi (s.reg .edi+1)).setReg .edi
        (s.reg .edi+1-1)).reg .edi = s.reg .edi := by rw [reg_setReg,if_pos rfl,hback]
      refine ⟨_,cs,rfl,?_,⟨?_,?_,?_⟩,hm.setReg (by simp) _⟩
      · rw [stripZeros,if_neg hz]
        simp
      · rw [hdi₁]
        omega
      · rw [hdi₁]
        omega
      · rw [hdi₁]
        exact htail

/-- The scratch memory of put_int. -/
def NumberScratch (l : Link) (s : Pc) (x : Word) : Prop :=
  Below s 72 x ∨ Span l.putIntBuffer 8 x

/-- put_int when all its digits stand in the buffer: the digit to start with is in cl. -/
structure NumberReady (l : Link) (s : Pc) (rest : List (BitVec 8)) (s' : Pc) : Prop where
  esp : s'.reg .esp = s.reg .esp-32
  text : low8 (s'.reg .ecx)::rest = intText s.arg
  ahead : DigitsAhead l rest s'
  mem : s'.mem = putDigits s.pushad.mem l.putIntBuffer s.arg 8
  vga : s'.vga = s.vga

theorem NumberReady.stackApart (h : NumberReady l s rest s') (ha : StackApart s 72 4) :
    StackApart s' 40 36 := by
  intro x hx
  refine ha x ?_
  simp only [Span,h.esp] at hx ⊢
  bv_omega

theorem NumberReady.bufferApart (h : NumberReady l s rest s') (hb : BufferApart l s 72 4) :
    BufferApart l s' 40 0 := by
  refine fun x hx => ⟨fun hx' => (hb x hx).1 ?_,(hb x hx).2⟩
  simp only [Span,h.esp] at hx' ⊢
  bv_omega

/-- The state at the label .16based_4bits for the first time. -/
def numberStart (l : Link) (s : Pc) (n : Word) : Pc :=
  (((((s.setReg .ebp (s.reg .esp)).setReg .eax n).setReg .edx n).setReg .edi 7).setReg .ecx
    8).setReg .ebx l.putIntBuffer

/-- The part of put_int before .put_each_num. -/
def putIntDigits (l : Link) (s : Pc) : Except Fault Pc :=
  loop based16 (numberStart l s.pushad s.arg) 8 >>= fun s =>
    skipTo l (s.setReg .edi (s.reg .edi+1)) 9

theorem putInt_eq (l : Link) (s : Pc) :
    s.putInt l = putIntDigits l s >>= fun s => putEachNum l s 8 := by
  have hesp : s.pushad.reg .esp = s.reg .esp-32 := Cpu.pushad_esp
  have hload : load s.pushad.mem (s.pushad.reg .esp+36) = s.arg := by
    rw [hesp]
    exact load_pushad_arg s
  have hbp : (s.pushad.setReg .ebp (s.pushad.reg .esp)).reg .ebp = s.pushad.reg .esp := by
    rw [reg_setReg,if_pos rfl]
  unfold putInt putIntDigits numberStart
  dsimp only
  rw [hbp,mem_setReg,hload,reg_setReg,if_pos rfl,bind_assoc]
  simp only [skipPrefix0_eq]

theorem putInt_ready (l : Link) (s : Pc) : ∃ s' rest, putIntDigits l s = .ok s' ∧
    NumberReady l s rest s' := by
  have hs : putIntDigits l s = loop based16 (numberStart l s.pushad s.arg) 8 >>= fun s =>
    skipTo l (s.setReg .edi (s.reg .edi+1)) 9 := rfl
  have hesp₁ : (numberStart l s.pushad s.arg).reg .esp = s.reg .esp-32 := by
    simp only [numberStart,reg_setReg,reduceCtorEq,if_false]
    exact Cpu.pushad_esp
  have hax : (numberStart l s.pushad s.arg).reg .eax = s.arg := by
    simp only [numberStart,reg_setReg,reduceCtorEq,if_false,if_true]
  have hdx : (numberStart l s.pushad s.arg).reg .edx = s.arg := by
    simp only [numberStart,reg_setReg,reduceCtorEq,if_false,if_true]
  have hdi : (numberStart l s.pushad s.arg).reg .edi = 7 := by
    simp only [numberStart,reg_setReg,reduceCtorEq,if_false,if_true]
  have hcx : (numberStart l s.pushad s.arg).reg .ecx = 8 := by
    simp only [numberStart,reg_setReg,reduceCtorEq,if_false,if_true]
  have hbx : (numberStart l s.pushad s.arg).reg .ebx = l.putIntBuffer := by
    simp only [numberStart,reg_setReg,if_true]
  have hmem : (numberStart l s.pushad s.arg).mem = s.pushad.mem := by
    simp only [numberStart,mem_setReg]
  have hvga : (numberStart l s.pushad s.arg).vga = s.vga := by
    simp only [numberStart,vga_setReg]
    rfl
  generalize numberStart l s.pushad s.arg = s₁ at hs hesp₁ hax hdx hdi hcx hbx hmem hvga
  obtain ⟨s₂,hs₂,hdi₂,hm₂⟩ := loop_based16 hcx hdi (hdx.trans hax.symm)
  rw [hbx,hmem,hax] at hm₂
  have hdi₃ : (s₂.setReg .edi (s₂.reg .edi+1)).reg .edi = 0 := by
    rw [reg_setReg,if_pos rfl,hdi₂]
    decide
  have hbytes : BytesAt (s₂.setReg .edi (s₂.reg .edi+1)).mem
      (l.putIntBuffer+(s₂.setReg .edi (s₂.reg .edi+1)).reg .edi) (hexText s.arg 8) := by
    have hz : l.putIntBuffer+(0 : Word) = l.putIntBuffer := by bv_omega
    have hmem₃ : (s₂.setReg .edi (s₂.reg .edi+1)).mem = s₂.mem := rfl
    rw [hdi₃,hz,hmem₃,hm₂.mem]
    exact bytesAt_putDigits (by decide)
  obtain ⟨s₄,rest,hs₄,htext,hd,hm₄⟩ := skipTo_digits (n := 9)
    (by rw [hexText_length]; decide) (by rw [hdi₃,hexText_length]; decide) hbytes
  refine ⟨s₄,rest,(hs.trans (bind_of_ok hs₂)).trans hs₄,?_,htext,hd,?_,?_⟩
  · exact (hm₄.reg .esp (by decide)).trans ((hm₂.reg .esp (by decide)).trans hesp₁)
  · exact hm₄.mem.trans hm₂.mem
  · exact hm₄.vga.trans (hm₂.vga.trans hvga)

/-- put_int prints the digits of its argument. -/
theorem putInt_prints (ha : StackApart s 72 4) (hb : BufferApart l s 72 4) :
    EndsIf (FitsAll s.vga.cursor (intText s.arg)) (fun s' =>
      Returns s s' ∧ Prints (NumberScratch l s) (intText s.arg) s s') .protection (s.putInt l) := by
  obtain ⟨s₁,rest,hs₁,hr⟩ := putInt_ready l s
  have hs : s.putInt l = putEachNum l s₁ 8 := (putInt_eq l s).trans (bind_of_ok hs₁)
  have hbelow : ∀ x, Below s₁ 40 x → Below s 72 x := by
    intro x hx
    simp only [Below,Span,hr.esp] at hx ⊢
    bv_omega
  have ha₁ := hr.stackApart ha
  have hb₁ := hr.bufferApart hb
  have hprepare : Prints (NumberScratch l s) [] s s₁ := by
    refine .nil (fun x hx => hx.elim (fun h => ha.below h) fun h => (hb x h).2) hr.vga ?_
    intro x hx
    obtain ⟨hx₁,hx₂⟩ := not_or.mp hx
    rw [hr.mem,putDigits_of_not_span (by decide) hx₂]
    refine Cpu.pushad_mem fun h => hx₁ ?_
    have h' : Span (s.reg .esp-32) 32 x := h
    simp only [Below,Span] at h' ⊢
    bv_omega
  have hrun := putEachNum_prints (n := 8) (by have := hr.ahead.length; omega) ha₁ hb₁ hr.ahead
  rw [hr.text,hr.vga] at hrun
  rw [hs]
  refine hrun.mono fun t h => ?_
  obtain ⟨s',ht,hesp,hp⟩ := h
  have hesp' : s'.cpu.esp = s.cpu.esp-32 := hesp.trans hr.esp
  have hframe : Holds s'.cpu.mem s'.cpu.esp (s.cpu.saved++[load s.mem (s.reg .esp)]) := by
    rw [hesp']
    refine Holds.congr (framed_pushad s) (by simp [Cpu.saved]) fun x hx => ?_
    have hx' : Span (s.reg .esp-32) 36 x := hx
    have hvideo : ¬InVideo x := by
      refine ha x ?_
      simp only [Span] at hx' ⊢
      bv_omega
    have hscratch : ¬Below s₁ 40 x := by
      unfold Below
      rw [hr.esp]
      simp only [Span] at hx' ⊢
      bv_omega
    have hbuffer : ¬Span l.putIntBuffer 8 x := fun h => (hb x h).1 (by
      simp only [Span] at hx' ⊢
      bv_omega)
    have hmem : s'.cpu.mem x = s₁.mem x := hp.frame x hvideo hscratch
    rw [hmem,hr.mem,putDigits_of_not_span (by decide) hbuffer]
  have hprints := hprepare.trans (hp.mono fun x h => Or.inl (hbelow x h))
  have hcpu : s'.popad.ret.cpu = _ := Cpu.popad_ret hesp' hframe
  have hreg : ∀ r, s'.popad.ret.reg r = if r = .esp then s.reg .esp+4 else s.reg r := fun r =>
    (congrFun (congrArg Cpu.reg hcpu) r).trans (Function.update_apply _ _ _ _)
  subst ht
  refine ⟨⟨congrArg Cpu.eip hcpu,(hreg _).trans (if_pos rfl),fun r hr' => ?_⟩,
    ⟨hprints.cursor,hprints.text,hprints.frame⟩⟩
  rw [hreg,if_neg]
  rintro rfl
  simp at hr'

end Pc
end OsKernel

import OsKernel.Print.Convention
import OsKernel.Lib.Itoa

/-! put_int and itoa agree. The characters that put_int hands to put_char are the numeral that
itoa writes in base 16. -/
namespace OsKernel
open X86 ByteMemory

namespace Pc

/-- The characters in cl at the calls of put_char, from .put_each_num on. A call that faults is
the last one. -/
def sentFrom (l : Link) (s : Pc) : ℕ → List (BitVec 8)
  | 0 => []
  | rounds+1 => low8 (s.reg .ecx)::
    match numChar l s with
    | .ok s => if (s.reg .edi).slt 8 then sentFrom l s rounds else []
    | .error _ => []

/-- The characters that put_int sends to put_char. -/
def putIntSent (l : Link) (s : Pc) : List (BitVec 8) :=
  match putIntDigits l s with
  | .ok s => sentFrom l s 8
  | .error _ => []

section Sent
variable {l : Link} {s s₁ : Pc} {rest : List (BitVec 8)} {n k : ℕ}

theorem sentFrom_succ (h : numChar l s = .ok s₁) : sentFrom l s (n+1) =
    low8 (s.reg .ecx)::if (s₁.reg .edi).slt 8 then sentFrom l s₁ n else [] := by
  rw [sentFrom,h]

/-- Without a fault, all digits ahead are sent. -/
theorem sentFrom_eq (hn : rest.length < n) (ha : StackApart s 40 k) (hb : BufferApart l s 40 0)
    (hd : DigitsAhead l rest s) (hf : FitsAll s.vga.cursor (low8 (s.reg .ecx)::rest)) :
    sentFrom l s n = low8 (s.reg .ecx)::rest := by
  induction rest generalizing s n with
  | nil =>
    obtain ⟨n,rfl⟩ := Nat.exists_eq_succ_of_ne_zero (Nat.ne_zero_of_lt hn)
    obtain ⟨s₁,hs,hdi,-⟩ := (numChar_prints l ha).ok hf.1
    rw [sentFrom_succ hs,if_neg (hd.last hdi)]
  | cons d rest ih =>
    obtain ⟨n,rfl⟩ := Nat.exists_eq_succ_of_ne_zero (Nat.ne_zero_of_lt hn)
    obtain ⟨s₁,hs,hdi,hesp,hcl,hp⟩ := (numChar_prints l ha).ok hf.1
    obtain ⟨hd₁,hahead⟩ := hd.next hb hp hdi
    have hf₁ : FitsAll s₁.vga.cursor (low8 (s₁.reg .ecx)::rest) := by
      rw [hcl,hd₁,hp.cursor]
      exact hf.2
    rw [sentFrom_succ hs,if_pos (hd.more hdi),
      ih (by simpa using hn) (ha.congr hesp) (hb.congr hesp) hahead hf₁,hcl,hd₁]

/-- When put_int returns, it has sent all its digits. -/
theorem putIntSent_eq {s' : Pc} (ha : StackApart s 72 4) (hb : BufferApart l s 72 4)
    (hs : s.putInt l = .ok s') : s.putIntSent l = intText s.arg := by
  have hf : FitsAll s.vga.cursor (intText s.arg) := by
    by_contra hf
    rw [(putInt_prints ha hb).error hf] at hs
    cases hs
  obtain ⟨s₁,rest,hs₁,hr⟩ := putInt_ready l s
  rw [← hr.text,← hr.vga] at hf
  have hlen := hr.ahead.length
  rw [putIntSent,hs₁,← hr.text]
  exact sentFrom_eq (by omega) (hr.stackApart ha) (hr.bufferApart hb) hr.ahead hf

end Sent
end Pc

section Digits
variable {n : Word} {k : ℕ} {ds : List (BitVec 8)} {c : BitVec 8}

theorem hexDigit_eq (n : Word) : hexDigit n = digitChar (n.toNat % 16) := by
  have hlow : n &&& 15 = BitVec.ofNat 32 (n.toNat % 16) := by
    apply BitVec.eq_of_toNat_eq
    rw [BitVec.toNat_and,BitVec.toNat_ofNat]
    change n.toNat &&& 2^4-1 = _
    rw [Nat.and_two_pow_sub_one_eq_mod]
    omega
  have hlt := Nat.mod_lt n.toNat (show 0 < 16 by decide)
  unfold hexDigit
  rw [hlow]
  generalize n.toNat % 16 = m at hlt
  interval_cases m <;> decide

theorem stripZeros_of_all (h : ∀ b ∈ ds, b = 0x30) : stripZeros (ds++[c]) = [c] := by
  induction ds with
  | nil =>
    by_cases hc : c = 0x30
    · rw [List.nil_append,stripZeros,if_pos hc,hc]
      rfl
    · rw [List.nil_append,stripZeros,if_neg hc]
  | cons b ds ih =>
    rw [List.cons_append,stripZeros,if_pos (h b List.mem_cons_self)]
    exact ih fun b hb => h b (List.mem_cons_of_mem _ hb)

theorem stripZeros_append (h : ¬∀ b ∈ ds, b = 0x30) :
    stripZeros (ds++[c]) = stripZeros ds++[c] := by
  induction ds with
  | nil => exact absurd (by simp) h
  | cons b ds ih =>
    rw [List.cons_append,stripZeros,stripZeros]
    split
    · refine ih fun hall => h fun d hd => ?_
      rcases List.mem_cons.mp hd with rfl | hd
      · assumption
      · exact hall d hd
    · rfl

theorem toNat_shift (n : Word) : (n >>> 4).toNat = n.toNat/16 := by
  rw [BitVec.toNat_ushiftRight,Nat.shiftRight_eq_div_pow]

/-- The digits are all zero for zero only. -/
theorem hexText_all_iff : (∀ b ∈ hexText n k, b = 0x30) ↔ n.toNat % 16^k = 0 := by
  induction k generalizing n with
  | zero => simp [hexText,Nat.mod_one]
  | succ k ih =>
    have hdigit : hexDigit n = 0x30 ↔ n.toNat % 16 = 0 := by
      rw [hexDigit_eq]
      have hlt := Nat.mod_lt n.toNat (show 0 < 16 by decide)
      generalize n.toNat % 16 = m at hlt
      interval_cases m <;> decide
    have hquot := toNat_shift n
    have hpow : n.toNat % 16^(k+1) = n.toNat % 16+16*(n.toNat/16 % 16^k) := by
      rw [Nat.pow_succ',Nat.mod_mul]
    simp only [hexText,List.mem_append,List.mem_singleton,or_imp,forall_and,forall_eq]
    rw [ih,hdigit,hquot,hpow]
    omega

/-- Without its leading zeros, a row of hexadecimal digits is the numeral. -/
theorem stripZeros_hexText (hn : n.toNat < 16^k) : stripZeros (hexText n k) =
    numeral 16 n.toNat := by
  induction k generalizing n with
  | zero =>
    have h0 : n.toNat = 0 := by simpa using hn
    rw [h0]
    rfl
  | succ k ih =>
    have hquot := toNat_shift n
    have hlt : n.toNat/16 < 16^k := by
      rw [Nat.pow_succ] at hn
      omega
    have hall := hexText_all_iff (n := n >>> 4) (k := k)
    rw [hquot,Nat.mod_eq_of_lt hlt] at hall
    rw [numeral_eq (by decide),hexText,hexDigit_eq]
    by_cases hq : n.toNat/16 = 0
    · rw [if_pos hq,stripZeros_of_all (hall.mpr hq),List.nil_append]
    · rw [if_neg hq,stripZeros_append fun h => hq (hall.mp h),ih (hquot ▸ hlt),hquot]

theorem intText_eq (n : Word) : intText n = numeral 16 n.toNat :=
  stripZeros_hexText (by simpa using n.isLt)

theorem digitChar_ne_backspace {m : ℕ} (hm : m < 16) : digitChar m ≠ 0x08 := by
  interval_cases m <;> decide

/-- A text without backspaces fits on every screen. -/
theorem fitsAll_of_ne {cs : List (BitVec 8)} {bx : BitVec 16} (hbx : bx.toNat < 2000)
    (hcs : ∀ b ∈ cs, b ≠ 0x08) : FitsAll bx cs := by
  have htame (t : Terminal) : t.Tame cs := by
    induction cs generalizing t with
    | nil => trivial
    | cons b cs ih =>
      exact ⟨fun h => hcs b List.mem_cons_self h.1,
        ih (fun d hd => hcs d (List.mem_cons_of_mem _ hd)) _⟩
  exact (fitsAll_iff_tame (t := ⟨fun _ => ⟨0,0⟩,⟨bx.toNat,hbx⟩⟩) rfl).mpr (htame _)

theorem intText_ne_backspace (n : Word) : ∀ b ∈ intText n, b ≠ 0x08 := by
  intro b hb
  rw [intText_eq,numeral] at hb
  split at hb
  · rw [List.mem_singleton.mp hb]
    decide
  · obtain ⟨m,hm,rfl⟩ := List.mem_map.mp hb
    exact digitChar_ne_backspace (Nat.digits_lt_base (by decide) (List.mem_reverse.mp hm))

end Digits

/-- Both renderers give the canonical numeral: itoa writes it in every base up to 36, and put_int
sends what itoa writes in base 16 whenever its calls of put_char return. They do so on a screen. -/
theorem renderers_agree (l : Link) (s : Pc) (ha : s.StackApart 72 4) (hb : s.BufferApart l 72 4) :
    (∀ (base : ℕ) (hbase : 1 < base) (_ : base ≤ 36) (v : BitVec 32) (buf : Buffer),
      ∃ cs, Canonical base v.toNat cs ∧
        itoa base hbase v.toNat buf = ⟨write buf.mem buf.ptr cs,buf.ptr+cs.length⟩) ∧
    (∀ buf : Buffer, itoa 16 (by decide) s.arg.toNat buf =
      ⟨write buf.mem buf.ptr (intText s.arg),buf.ptr+(intText s.arg).length⟩) ∧
    (∀ s', s.putInt l = .ok s' → s.putIntSent l = intText s.arg) ∧
    (s.vga.cursor.toNat < 2000 → ∃ s', s.putInt l = .ok s' ∧ s.Returns s' ∧
      Pc.Prints (s.NumberScratch l) (intText s.arg) s s') := by
  refine ⟨fun base hbase hle v buf => itoa_canonical hbase hle v.toNat buf,fun buf => ?_,
    fun s' hs => Pc.putIntSent_eq ha hb hs,fun hcursor => ?_⟩
  · rw [intText_eq]
    exact itoa_eq (by decide) (by decide) _ buf
  · exact (Pc.putInt_prints ha hb).ok (fitsAll_of_ne hcursor (intText_ne_backspace s.arg))

theorem atHome_bufferApart (c : BitVec 8) : (atHome c).BufferApart ⟨0xc0001500,0,0⟩ 72 4 := by
  intro x hx
  have hx' : Span 0xc0001500 8 x := hx
  have hl : videoLimit = 0x7fff := rfl
  constructor
  · intro h
    have h' : Span (0xc009ef00-72) 76 x := h
    simp only [Span] at hx' h'
    bv_omega
  · intro h
    simp only [InVideo,Span,hl,videoBase] at hx' h
    bv_omega

/-- The number 0xf0 is sent as F and 0. -/
theorem renderers_agree_at_home :
    (atHome 0xf0).putIntSent ⟨0xc0001500,0,0⟩ = [ascii 'F',ascii '0'] := by
  obtain ⟨-,-,hsent,hret⟩ := renderers_agree ⟨0xc0001500,0,0⟩ (atHome 0xf0) (atHome_apart _)
    (atHome_bufferApart _)
  obtain ⟨s',hs,-⟩ := hret (by decide)
  rw [hsent s' hs]
  decide

end OsKernel

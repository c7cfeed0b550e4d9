import OsKernel.Lib.Format

/-! The numbers that itoa writes. In every base up to 36 they are the canonical numerals: digits
below the base, no leading zero, and the value that is read back is the one that was written. -/
namespace OsKernel
open ByteMemory

/-- The digits of the bases up to 36 in ascending order. -/
def alphabet : List (BitVec 8) := "0123456789ABCDEFGHIJKLMNOPQRSTUVWXYZ".toList.map ascii

/-- The value of a numeral, the most significant digit of which comes first. -/
def readDigits (base : ℕ) (cs : List (BitVec 8)) : ℕ :=
  cs.foldl (fun v c => base*v+alphabet.idxOf c) 0

/-- The numeral of a value. -/
structure Canonical (base v : ℕ) (cs : List (BitVec 8)) : Prop where
  digits : ∀ c ∈ cs, alphabet.idxOf c < base
  leading : v ≠ 0 → cs.head? ≠ some (ascii '0')
  zero : v = 0 → cs = [ascii '0']
  value : readDigits base cs = v

/-- The character that itoa puts for a remainder. -/
def remainderChar (m : ℕ) : BitVec 8 :=
  if m < 10 then BitVec.ofNat 8 (m+ '0'.toNat) else BitVec.ofNat 8 (m+ 'A'.toNat-10)

section Itoa
variable {base v m : ℕ} {cs : List (BitVec 8)} {c : BitVec 8}

theorem idxOf_remainderChar (hm : m < 36) : alphabet.idxOf (remainderChar m) = m := by
  interval_cases m <;> decide

@[simp] theorem readDigits_append : readDigits base (cs++[c]) =
    base*readDigits base cs+alphabet.idxOf c := by
  simp [readDigits]

/-- A value below the base has one digit. -/
theorem Canonical.single (hle : base ≤ 36) (hv : v < base) :
    Canonical base v [remainderChar v] := by
  have hidx := idxOf_remainderChar (hv.trans_le hle)
  refine ⟨fun c hc => ?_,fun h0 he => ?_,fun h0 => ?_,?_⟩
  · rw [List.mem_singleton.mp hc,hidx]
    exact hv
  · rw [Option.some.inj he] at hidx
    exact h0 (hidx.symm.trans (by decide))
  · rw [h0]
    rfl
  · simp [readDigits,hidx]

/-- The digits of the quotient, and the remainder behind them. -/
theorem Canonical.append (hle : base ≤ 36) (hb : 0 < base) (hv : v/base ≠ 0)
    (h : Canonical base (v/base) cs) : Canonical base v (cs++[remainderChar (v % base)]) := by
  have hlt := Nat.mod_lt v hb
  have hidx := idxOf_remainderChar (hlt.trans_le hle)
  have hne : cs ≠ [] := by
    rintro rfl
    exact hv h.value.symm
  refine ⟨fun c hc => ?_,fun _ => ?_,fun h0 => ?_,?_⟩
  · rcases List.mem_append.mp hc with hc | hc
    · exact h.digits c hc
    · rw [List.mem_singleton.mp hc,hidx]
      exact hlt
  · rw [List.head?_append_of_ne_nil _ hne]
    exact h.leading hv
  · exact absurd (by rw [h0,Nat.zero_div]) hv
  · rw [readDigits_append,h.value,hidx]
    exact Nat.div_add_mod v base

/-- itoa writes the numeral, and moves the pointer behind it. -/
theorem itoa_canonical (hb : 1 < base) (hle : base ≤ 36) (v : ℕ) (buf : Buffer) :
    ∃ cs, Canonical base v cs ∧
      itoa base hb v buf = ⟨write buf.mem buf.ptr cs,buf.ptr+cs.length⟩ := by
  induction v using Nat.strong_induction_on with
  | _ v ih =>
    have hput (b : Buffer) : (if v % base < 10 then b.put (BitVec.ofNat 8 (v % base+ '0'.toNat))
        else b.put (BitVec.ofNat 8 (v % base+ 'A'.toNat-10))) =
        b.put (remainderChar (v % base)) := by
      unfold remainderChar
      split <;> rfl
    rw [itoa]
    simp only [hput]
    by_cases hq : v/base = 0
    · have hv : v < base := (Nat.div_eq_zero_iff.mp hq).resolve_left (by omega)
      refine ⟨_,.single hle hv,?_⟩
      rw [dif_neg (not_not.mpr hq),Nat.mod_eq_of_lt hv]
      rfl
    · have hv : 0 < v := Nat.pos_of_ne_zero fun he => hq (by simp [he])
      obtain ⟨cs,hcs,heq⟩ := ih _ (Nat.div_lt_self hv hb)
      refine ⟨_,hcs.append hle (by omega) hq,?_⟩
      rw [dif_pos hq,heq,write_append,List.length_append,← Nat.add_assoc]
      rfl

end Itoa
end OsKernel

import OsKernel.Library.X86Narrow
import OsKernel.Memory.PageBoot

/-! The addresses that have a page when kernel_init runs. setup_page does not write all entries of
the page tables; the others are taken as not present. -/
namespace OsKernel
open X86 Paging

/-- The pages of setup_page. The first megabyte is at its own addresses and at 3 GB, and the last
four megabytes show the page tables and the directory. -/
def bootPhys (a : Word) : Option Word :=
  if a < 0x100000 then some a
  else if 0xc0000000 ≤ a ∧ a < 0xc0100000 then some (a-0xc0000000)
  else if 0xffc00000 ≤ a ∧ a < 0xffc01000 then some (a-0xffc00000+0x101000)
  else if 0xfff00000 ≤ a ∧ a < 0xfffff000 then some (a-0xfff00000+0x101000)
  else if 0xfffff000 ≤ a then some (a-0xfffff000+0x100000)
  else none

section Ranges
variable {a x : Word}

/-- A byte that is not one of the page tables lies in the first megabyte. -/
lemma bootPhys_low (h : bootPhys a = some x) (hx : ¬ (0x100000 ≤ x ∧ x < 0x200000)) :
    a < 0x100000 ∧ x = a ∨ 0xc0000000 ≤ a ∧ a < 0xc0100000 ∧ x = a-0xc0000000 := by
  unfold bootPhys at h
  split at h
  · exact .inl ⟨‹_›,(Option.some.inj h).symm⟩
  split at h
  · rename_i hc
    exact .inr ⟨hc.1,hc.2,(Option.some.inj h).symm⟩
  split at h
  · have he := Option.some.inj h
    bv_omega
  split at h
  · have he := Option.some.inj h
    bv_omega
  split at h
  · have he := Option.some.inj h
    bv_omega
  · cases h

end Ranges

section Walk
variable {mem : ByteMemory} {n : ℕ}

/-- The page tables hold nothing but what setup_page writes. -/
def TablesClear (mem : ByteMemory) : Prop := ∀ p, 0x101400 ≤ p → p < 0x200000 → mem p = 0

lemma TablesClear.word_eq (h : TablesClear mem) {f j : ℕ} (hf : f < 0x200) (hj : j < 1024)
    (hfj : 0x102 ≤ f ∨ f = 0x101 ∧ 256 ≤ j) : word (setupPage mem) f j = 0 := by
  rw [setupPage_other hfj hj,word,ByteMemory.load32,h _ (by omega) (by omega),
    h _ (by omega) (by omega),h _ (by omega) (by omega),h _ (by omega) (by omega)]
  rfl

/-- The table of the first entry of the directory, which is also that of the entry 768. -/
lemma TablesClear.first_table (h : TablesClear mem) {j : ℕ} (hj : j < 1024) :
    target (word (setupPage mem) 0x101 j) = if j < 256 then some j else none := by
  split
  · rw [setupPage_low ‹_›,target_entry]
  · rw [h.word_eq (by omega) hj (.inr ⟨rfl,by omega⟩),target_zero]

/-- The entries of the directory. -/
lemma setupPage_dir {i : ℕ} (hi : i < 1024) : target (word (setupPage mem) bootDir i) =
    if i = 0 then some 0x101 else if i < 768 then none
    else if i < 1023 then some (0x101+(i-768)) else some bootDir := by
  split
  · subst i
    rw [setupPage_first,target_entry]
  split
  · rw [setupPage_user (by omega) ‹_›,target_zero]
  split
  · rw [setupPage_kernel (by omega) ‹_›,target_entry]
  · obtain rfl : i = 1023 := by omega
    rw [setupPage_self,target_entry]

lemma TablesClear.lookup_eq (h : TablesClear mem) {v : ℕ} (hv : v < 2^20) :
    lookup (setupPage mem) bootDir v =
      if v < 256 then some v
      else if 0xc0000 ≤ v ∧ v < 0xc0100 then some (v-0xc0000)
      else if v = 0xffc00 then some 0x101
      else if 0xfff00 ≤ v ∧ v < 0xfffff then some (v-0xfff00+0x101)
      else if v = 0xfffff then some 0x100
      else none := by
  rw [lookup,setupPage_dir (by omega)]
  by_cases h₀ : v/1024 = 0
  · rw [if_pos h₀,Option.bind_some,h.first_table (Nat.mod_lt _ (by omega))]
    have hv' : v % 1024 = v := by omega
    rw [hv']
    split_ifs <;> first | omega | rfl
  rw [if_neg h₀]
  by_cases h₁ : v/1024 < 768
  · rw [if_pos h₁,Option.bind_none]
    split_ifs <;> first | omega | rfl
  rw [if_neg h₁]
  by_cases h₂ : v/1024 < 1023
  · rw [if_pos h₂,Option.bind_some]
    by_cases h₃ : v/1024 = 768
    · rw [h₃,Nat.sub_self,Nat.add_zero,h.first_table (Nat.mod_lt _ (by omega))]
      have hv' : v % 1024 = v-0xc0000 := by omega
      rw [hv']
      split_ifs <;> first | omega | rfl
    · rw [h.word_eq (by omega) (Nat.mod_lt _ (by omega)) (.inl (by omega)),target_zero]
      split_ifs <;> first | omega | rfl
  · rw [if_neg h₂,Option.bind_some,setupPage_dir (Nat.mod_lt _ (by omega))]
    by_cases h₄ : v % 1024 < 1023
    · have hv' : v-0xfff00 = v % 1024-768 := by omega
      rw [hv',Nat.add_comm (v % 1024-768)]
      split_ifs <;> first | omega | rfl
    · rw [if_neg (by omega),if_neg (by omega),if_neg h₄]
      split_ifs <;> first | omega | rfl

/-- The walk of the processor through the tables of setup_page. -/
theorem bootPhys_eq_walk (h : TablesClear mem) (a : Word) :
    (walk (setupPage mem) bootDir a.toNat).map (BitVec.ofNat 32) = bootPhys a := by
  have ha := a.isLt
  rw [walk,h.lookup_eq (by omega)]
  unfold bootPhys
  split_ifs <;> first | bv_omega | exact congrArg some (by bv_omega) | rfl

end Walk
end OsKernel

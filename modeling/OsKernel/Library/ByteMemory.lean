import Mathlib.Tactic

/-! A byte-addressed memory with little-endian 32-bit words. -/

/-- The content of every address. -/
abbrev ByteMemory := ℕ → BitVec 8

namespace ByteMemory

/-- The bytes of the first n addresses from a on, the least significant one first. -/
def load32 (mem : ByteMemory) (a : ℕ) : ℕ :=
  (mem a).toNat+2^8*(mem (a+1)).toNat+2^16*(mem (a+2)).toNat+2^24*(mem (a+3)).toNat

def store8 (mem : ByteMemory) (a : ℕ) (b : BitVec 8) : ByteMemory := Function.update mem a b

def store32 (mem : ByteMemory) (a v : ℕ) : ByteMemory := fun p =>
  if a ≤ p ∧ p < a+4 then BitVec.ofNat 8 (v/2^(8*(p-a))) else mem p

/-- The n bytes from a on get the value b. -/
def fill (mem : ByteMemory) (a n : ℕ) (b : BitVec 8) : ByteMemory := fun p =>
  if a ≤ p ∧ p < a+n then b else mem p

/-- The n bytes from a on get the values of those from b on. -/
def copy (mem : ByteMemory) (a b n : ℕ) : ByteMemory := fun p =>
  if a ≤ p ∧ p < a+n then mem (b+(p-a)) else mem p

variable {mem mem' : ByteMemory} {a b v n : ℕ} {x : BitVec 8}

theorem load32_lt (mem : ByteMemory) (a : ℕ) : load32 mem a < 2^32 := by
  have h₀ := (mem a).isLt
  have h₁ := (mem (a+1)).isLt
  have h₂ := (mem (a+2)).isLt
  have h₃ := (mem (a+3)).isLt
  unfold load32
  omega

theorem load32_congr (h : ∀ p, a ≤ p → p < a+4 → mem' p = mem p) :
    load32 mem' a = load32 mem a := by
  simp only [load32,h a (by omega) (by omega),h (a+1) (by omega) (by omega),
    h (a+2) (by omega) (by omega),h (a+3) (by omega) (by omega)]

theorem store32_of_not_mem {p : ℕ} (h : p < a ∨ a+4 ≤ p) : store32 mem a v p = mem p :=
  if_neg (by omega)

@[simp] theorem load32_store32_self (hv : v < 2^32) : load32 (store32 mem a v) a = v := by
  have h₀ : store32 mem a v a = BitVec.ofNat 8 v := by simp [store32]
  have h₁ : store32 mem a v (a+1) = BitVec.ofNat 8 (v/2^8) := by simp [store32]
  have h₂ : store32 mem a v (a+2) = BitVec.ofNat 8 (v/2^16) := by simp [store32]
  have h₃ : store32 mem a v (a+3) = BitVec.ofNat 8 (v/2^24) := by simp [store32]
  simp only [load32,h₀,h₁,h₂,h₃,BitVec.toNat_ofNat]
  omega

theorem load32_store32_of_disjoint (h : b+4 ≤ a ∨ a+4 ≤ b) :
    load32 (store32 mem a v) b = load32 mem b :=
  load32_congr fun _ _ _ => store32_of_not_mem (by omega)

theorem fill_of_mem {p : ℕ} (h₁ : a ≤ p) (h₂ : p < a+n) : fill mem a n x p = x := if_pos ⟨h₁,h₂⟩

theorem fill_of_not_mem {p : ℕ} (h : p < a ∨ a+n ≤ p) : fill mem a n x p = mem p :=
  if_neg (by omega)

theorem load32_fill_zero (h₁ : a ≤ b) (h₂ : b+4 ≤ a+n) : load32 (fill mem a n 0) b = 0 := by
  simp only [load32,fill_of_mem h₁ (show b < a+n by omega),
    fill_of_mem (show a ≤ b+1 by omega) (show b+1 < a+n by omega),
    fill_of_mem (show a ≤ b+2 by omega) (show b+2 < a+n by omega),
    fill_of_mem (show a ≤ b+3 by omega) (show b+3 < a+n by omega)]
  rfl

theorem load32_fill_of_disjoint (h : b+4 ≤ a ∨ a+n ≤ b) :
    load32 (fill mem a n x) b = load32 mem b :=
  load32_congr fun _ _ _ => fill_of_not_mem (by omega)

@[simp] theorem fill_zero (mem : ByteMemory) (a : ℕ) (x : BitVec 8) : fill mem a 0 x = mem := by
  funext p
  exact fill_of_not_mem (by omega)

/-- One more byte at the front. -/
theorem fill_succ (mem : ByteMemory) (a n : ℕ) (x : BitVec 8) :
    fill mem a (n+1) x = fill (store8 mem a x) (a+1) n x := by
  funext p
  simp only [fill,store8]
  by_cases h : p = a
  · subst h
    simp
  · rw [Function.update_of_ne h]
    by_cases h₁ : a ≤ p ∧ p < a+(n+1)
    · rw [if_pos h₁,if_pos (by omega)]
    · rw [if_neg h₁,if_neg (by omega)]

@[simp] theorem copy_zero (mem : ByteMemory) (a b : ℕ) : copy mem a b 0 = mem := by
  funext p
  exact if_neg (by omega)

theorem copy_of_mem {k : ℕ} (h : k < n) : copy mem a b n (a+k) = mem (b+k) := by
  rw [copy,if_pos (by omega),Nat.add_sub_cancel_left]

theorem load32_copy {k : ℕ} (hk : k+4 ≤ n) : load32 (copy mem a b n) (a+k) = load32 mem (b+k) := by
  simp only [load32,Nat.add_assoc,copy_of_mem (show k < n by omega),
    copy_of_mem (show k+1 < n by omega),copy_of_mem (show k+2 < n by omega),
    copy_of_mem (show k+3 < n by omega)]

theorem load32_copy_of_disjoint {c : ℕ} (h : c+4 ≤ a ∨ a+n ≤ c) :
    load32 (copy mem a b n) c = load32 mem c :=
  load32_congr fun _ _ _ => if_neg (by omega)

/-- One more byte at the front, for disjoint regions. -/
theorem copy_succ (h : a+(n+1) ≤ b ∨ b+(n+1) ≤ a) :
    copy mem a b (n+1) = copy (store8 mem a (mem b)) (a+1) (b+1) n := by
  funext p
  simp only [copy,store8]
  by_cases hp : p = a
  · subst hp
    simp
  · rw [Function.update_of_ne hp]
    by_cases h₁ : a ≤ p ∧ p < a+(n+1)
    · rw [if_pos h₁,if_pos (by omega),Function.update_of_ne (by omega),
        show b+1+(p-(a+1)) = b+(p-a) by omega]
    · rw [if_neg h₁,if_neg (by omega)]

end ByteMemory

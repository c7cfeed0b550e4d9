import OsKernel.Memory.Access
import OsKernel.Memory.Heap

/-! The words of descriptors, arena headers and list nodes through a window of the address space:
aligned words of pages that the window shows. -/
namespace OsKernel
open Paging ByteMemory Exec KernelM

theorem field_eq {p k : ℕ} (h : p+k < 2^32) : field p k = p+k := Nat.mod_eq_of_lt h

section Words
variable {m : Machine} {τ : ℕ → Option ℕ} {W : Set ℕ} {V : ByteMemory} {a v : ℕ}

/-- A word that the window shows, and that can be written. -/
structure WordIn (τ : ℕ → Option ℕ) (W : Set ℕ) (a : ℕ) : Prop where
  page : (τ (a/4096)).isSome
  write : a/4096 ∈ W
  aligned : a % 4 = 0
  lt : a < 2^32

theorem loadWord_of_aligned (ha : a % 4 = 0) : loadWord a = load a := by
  rw [loadWord,pageSize,if_pos (by omega)]

theorem storeWord_of_aligned (ha : a % 4 = 0) : storeWord a v = store a v := by
  rw [storeWord,pageSize,if_pos (by omega)]

theorem Acts.loadWord (h : Window (m.cr3/pageSize) m.mem τ W) (hf : (τ (a/4096)).isSome)
    (ha : a % 4 = 0) : Acts m τ W (loadWord a) V (load32 V a) V := by
  rw [loadWord_of_aligned ha]
  exact Acts.load h hf ha

theorem Acts.storeWord (h : Window (m.cr3/pageSize) m.mem τ W) (ha : WordIn τ W a) :
    Acts m τ W (storeWord a v) V () (store32 V a v) := by
  rw [storeWord_of_aligned ha.aligned]
  exact Acts.store h ha.page ha.aligned ha.write

end Words

/-! The stores of the functions, as functions of the memory. -/

def listInitMem (V : ByteMemory) (plist : ℕ) : ByteMemory :=
  store32 (store32 (store32 (store32 V plist 0) (plist+4) (plist+8)) (plist+8) plist) (plist+12) 0

/-- The descriptors from descIdx on. -/
def blockDescInitMem (descArray : ℕ) : ℕ → ℕ → ℕ → ByteMemory → ByteMemory
  | 0, _, _, V => V
  | left+1, descIdx, blockSize, V =>
    let desc := descArray+24*descIdx
    blockDescInitMem descArray left (descIdx+1) (blockSize*2 % 2^16)
      (listInitMem (store32 (store32 V desc blockSize) (desc+4) ((pageSize-arenaSize)/blockSize))
        (desc+8))

section Init
variable {m : Machine} {τ : ℕ → Option ℕ} {W : Set ℕ} {V : ByteMemory} {a v n : ℕ}

/-- The words from a on, up to n bytes. -/
def WordsIn (τ : ℕ → Option ℕ) (W : Set ℕ) (a n : ℕ) : Prop :=
  ∀ k, k < n → k % 4 = 0 → WordIn τ W (a+k)

theorem WordsIn.word (h : WordsIn τ W a n) (hn : 0 < n) : WordIn τ W a := h 0 hn rfl

theorem WordsIn.sub {k l : ℕ} (h : WordsIn τ W a n) (hk : k % 4 = 0) (hl : k+l ≤ n) :
    WordsIn τ W (a+k) l := by
  intro j hj h4
  rw [Nat.add_assoc]
  exact h (k+j) (by omega) (by omega)

theorem WordsIn.field_eq {k : ℕ} (h : WordsIn τ W a n) (hk : k < n) (h4 : k % 4 = 0) :
    field a k = a+k :=
  OsKernel.field_eq (h k hk h4).lt

theorem Acts.listInit (h : Window (m.cr3/pageSize) m.mem τ W) (ha : WordsIn τ W a 16) :
    Acts m τ W (listInit a) V () (listInitMem V a) := by
  have h₄ := ha.field_eq (k := 4) (by decide) rfl
  have h₈ := ha.field_eq (k := 8) (by decide) rfl
  have h₁₂ : field (a+8) 4 = a+12 := OsKernel.field_eq (ha 12 (by decide) rfl).lt
  simp only [OsKernel.listInit,prevField,nextField,tailElem,h₄,h₈,h₁₂]
  exact .bind (.storeWord h (ha.word (by decide)))
    (.bind (.storeWord h (ha 4 (by decide) rfl))
      (.bind (.storeWord h (ha 8 (by decide) rfl)) (.storeWord h (ha 12 (by decide) rfl))))

theorem Acts.blockDescInitLoop (h : Window (m.cr3/pageSize) m.mem τ W) {left descIdx : ℕ}
    (ha : WordsIn τ W a (24*(descIdx+left))) :
    Acts m τ W (blockDescInitLoop a left descIdx v) V () (blockDescInitMem a left descIdx v V) := by
  induction left generalizing descIdx v V with
  | zero => exact .pure ()
  | succ left ih =>
    have hdesc : WordsIn τ W (a+24*descIdx) 24 := ha.sub (by omega) (by omega)
    have h₀ : descAt a descIdx = a+24*descIdx :=
      OsKernel.field_eq (hdesc.word (by decide)).lt
    have h₄ := hdesc.field_eq (k := 4) (by decide) rfl
    have h₈ := hdesc.field_eq (k := 8) (by decide) rfl
    simp only [OsKernel.blockDescInitLoop,blockSizeField,blocksPerArenaField,freeListField,h₀,
      h₄,h₈]
    refine .bind (.storeWord h (hdesc.word (by decide)))
      (.bind (.storeWord h (hdesc 4 (by decide) rfl))
        (.bind (.listInit h (hdesc.sub rfl (by decide))) (ih ?_)))
    rwa [show descIdx+1+left = descIdx+(left+1) by omega]

theorem Acts.blockDescInit (h : Window (m.cr3/pageSize) m.mem τ W) (ha : WordsIn τ W a (24*7)) :
    Acts m τ W (blockDescInit a) V () (blockDescInitMem a 7 0 16 V) :=
  .blockDescInitLoop h ha

end Init
end OsKernel

import OsKernel.Library.ByteMemory

/-! Strings in a byte memory: lists of bytes at an address, zero-terminated strings, and the
writing of a list byte by byte. -/

namespace ByteMemory

/-- The bytes from a on are those of the list. -/
def Bytes (mem : ByteMemory) (a : ℕ) : List (BitVec 8) → Prop
  | [] => True
  | b::bs => mem a = b ∧ Bytes mem (a+1) bs

/-- A string without zeros, and the zero that ends it. -/
structure CString (mem : ByteMemory) (a : ℕ) (text : List (BitVec 8)) : Prop where
  bytes : Bytes mem a (text++[0])
  nonzero : ∀ b ∈ text, b ≠ 0

/-- The bytes of a list are written one after the other. -/
def write (mem : ByteMemory) (a : ℕ) : List (BitVec 8) → ByteMemory
  | [] => mem
  | b::bs => write (store8 mem a b) (a+1) bs

section Bytes
variable {mem mem' : ByteMemory} {a p : ℕ} {b : BitVec 8} {l l' text : List (BitVec 8)}

theorem Bytes.congr (h : Bytes mem a l) (hm : ∀ p, a ≤ p → p < a+l.length → mem' p = mem p) :
    Bytes mem' a l := by
  induction l generalizing a with
  | nil => trivial
  | cons b bs ih =>
    simp only [List.length_cons] at hm
    exact ⟨(hm a (by omega) (by omega)).trans h.1,
      ih h.2 fun p h₁ h₂ => hm p (by omega) (by omega)⟩

theorem bytes_append : Bytes mem a (l++l') ↔ Bytes mem a l ∧ Bytes mem (a+l.length) l' := by
  induction l generalizing a with
  | nil => simp [Bytes]
  | cons b bs ih =>
    simp only [List.cons_append,Bytes,ih,List.length_cons,and_assoc]
    rw [show a+1+bs.length = a+(bs.length+1) by omega]

theorem CString.congr (h : CString mem a text)
    (hm : ∀ p, a ≤ p → p ≤ a+text.length → mem' p = mem p) : CString mem' a text :=
  ⟨h.bytes.congr fun p h₁ h₂ => hm p h₁ (by simp at h₂; omega),h.nonzero⟩

theorem CString.head (h : CString mem a (b::text)) : mem a = b := h.bytes.1

theorem CString.tail (h : CString mem a (b::text)) : CString mem (a+1) text :=
  ⟨h.bytes.2,fun c hc => h.nonzero c (List.mem_cons_of_mem _ hc)⟩

theorem CString.end (h : CString mem a []) : mem a = 0 := h.bytes.1

theorem CString.ne_zero (h : CString mem a (b::text)) : b ≠ 0 := h.nonzero b List.mem_cons_self

end Bytes

section Write
variable {mem : ByteMemory} {a p : ℕ} {b : BitVec 8} {l l' : List (BitVec 8)}

theorem store8_of_ne (h : p ≠ a) : store8 mem a b p = mem p := Function.update_of_ne h _ _

theorem write_append : write mem a (l++l') = write (write mem a l) (a+l.length) l' := by
  induction l generalizing mem a with
  | nil => rfl
  | cons b bs ih =>
    simp only [List.cons_append,write,ih,List.length_cons]
    rw [show a+1+bs.length = a+(bs.length+1) by omega]

theorem write_of_not_mem (h : p < a ∨ a+l.length ≤ p) : write mem a l p = mem p := by
  induction l generalizing mem a with
  | nil => rfl
  | cons b bs ih =>
    simp only [List.length_cons] at h
    rw [write,ih (by omega),store8_of_ne (by omega)]

theorem store8_write_of_not_mem (h : p < a ∨ a+l.length ≤ p) :
    store8 (write mem a l) p b = write (store8 mem p b) a l := by
  induction l generalizing mem a with
  | nil => rfl
  | cons c cs ih =>
    simp only [List.length_cons] at h
    rw [write,ih (by omega),write]
    congr 1
    exact Function.update_comm (by omega) _ _ _

theorem bytes_write : Bytes (write mem a l) a l := by
  induction l generalizing mem a with
  | nil => trivial
  | cons b bs ih =>
    refine ⟨?_,ih⟩
    rw [write,write_of_not_mem (by omega),store8,Function.update_self]

/-- A text that is written before a zero is a string. -/
theorem cString_write (hz : mem (a+l.length) = 0) (hn : ∀ b ∈ l, b ≠ 0) :
    CString (write mem a l) a l := by
  refine ⟨bytes_append.mpr ⟨bytes_write,?_,trivial⟩,hn⟩
  rw [write_of_not_mem (by omega),hz]

end Write
end ByteMemory

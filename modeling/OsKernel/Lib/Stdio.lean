import OsKernel.Debug
import OsKernel.Library.CString

/-! Formatted output: strcpy, strlen, itoa and vsprintf on the memory of the caller. A loop that
looks for the end of a string gets the number of rounds after which it is given up. -/
namespace OsKernel
open ByteMemory

def ascii (c : Char) : BitVec 8 := BitVec.ofNat 8 c.toNat

def strcpyLoop (mem : ByteMemory) (dsc src : ℕ) : ℕ → Except Panic ByteMemory
  | 0 => .error (.undefined "strcpy")
  | rounds+1 =>
    let c := mem src
    let mem := store8 mem dsc c
    if c ≠ 0 then strcpyLoop mem (dsc+1) (src+1) rounds else .ok mem

def strcpy (mem : ByteMemory) (dsc src rounds : ℕ) : Except Panic ByteMemory :=
  assert (dsc ≠ 0 ∧ src ≠ 0) "strcpy" "dsc_ != NULL && src_ != NULL" >>= fun _ =>
    strcpyLoop mem dsc src rounds

/-- The pointer after the loop of strlen, which is one past the zero. -/
def strlenLoop (mem : ByteMemory) (ptr : ℕ) : ℕ → Except Panic ℕ
  | 0 => .error (.undefined "strlen")
  | rounds+1 => if mem ptr ≠ 0 then strlenLoop mem (ptr+1) rounds else .ok (ptr+1)

def strlen (mem : ByteMemory) (str rounds : ℕ) : Except Panic ℕ :=
  assert (str ≠ 0) "strlen" "str != NULL" >>= fun _ =>
    strlenLoop mem str rounds >>= fun ptr => .ok (ptr-str-1)

/-- A memory and the next free position of a buffer in it. -/
structure Buffer where
  mem : ByteMemory
  ptr : ℕ

/-- The assignment *(buf_ptr++) = c. -/
def Buffer.put (buf : Buffer) (c : BitVec 8) : Buffer := ⟨store8 buf.mem buf.ptr c,buf.ptr+1⟩

/-- The recursion ends for the bases that its callers pass. -/
def itoa (base : ℕ) (hbase : 1 < base) (value : ℕ) (buf : Buffer) : Buffer :=
  let m := value % base
  let i := value/base
  let buf := if _h : i ≠ 0 then itoa base hbase i buf else buf
  if m < 10 then buf.put (BitVec.ofNat 8 (m+ '0'.toNat))
  else buf.put (BitVec.ofNat 8 (m+ 'A'.toNat-10))
termination_by value
decreasing_by
  exact Nat.div_lt_self (Nat.pos_of_ne_zero fun he => by simp [i,he] at _h) hbase

/-- The variables of vsprintf, and the addresses that index_ptr has been read at. -/
structure Vsprintf where
  buf : Buffer
  indexPtr : ℕ
  indexChar : BitVec 8
  ap : ℕ
  fetched : List ℕ

namespace Vsprintf
variable (s : Vsprintf)

/-- The assignment index_char = *(++index_ptr). -/
def fetch : Vsprintf :=
  { s with
    indexPtr := s.indexPtr+1
    indexChar := s.buf.mem (s.indexPtr+1)
    fetched := s.fetched++[s.indexPtr+1] }

/-- The switch on the character after a percent sign. -/
def convert (rounds : ℕ) : Except Panic Vsprintf :=
  let ap := s.ap+4
  if s.indexChar = ascii 's' then
    let argStr := load32 s.buf.mem ap
    strcpy s.buf.mem s.buf.ptr argStr rounds >>= fun mem =>
      strlen mem argStr rounds >>= fun len =>
        .ok { s with buf := ⟨mem,s.buf.ptr+len⟩, ap := ap }.fetch
  else if s.indexChar = ascii 'x' then
    let argInt := load32 s.buf.mem ap
    .ok { s with buf := itoa 16 (by decide) argInt s.buf, ap := ap }.fetch
  else if s.indexChar = ascii 'd' then
    let argInt := load32 s.buf.mem ap
    let buf :=
      if 2^31 ≤ argInt then itoa 10 (by decide) ((2^32-argInt) % 2^32) (s.buf.put (ascii '-'))
      else itoa 10 (by decide) argInt s.buf
    .ok { s with buf := buf, ap := ap }.fetch
  else if s.indexChar = ascii 'c' then
    .ok { s with buf := s.buf.put (s.buf.mem ap), ap := ap }.fetch
  else .ok s

/-- The loop of vsprintf. -/
def loop (s : Vsprintf) : ℕ → Except Panic Vsprintf
  | 0 => .error (.undefined "vsprintf")
  | rounds+1 =>
    if s.indexChar = 0 then .ok s
    else if s.indexChar ≠ ascii '%' then
      loop { s with buf := s.buf.put s.indexChar }.fetch rounds
    else s.fetch.convert rounds >>= fun s => loop s rounds

end Vsprintf

/-- The length that vsprintf returns, and its variables at the end. -/
def vsprintf (mem : ByteMemory) (str format ap rounds : ℕ) : Except Panic (ℕ × Vsprintf) :=
  Vsprintf.loop ⟨⟨mem,str⟩,format,mem format,ap,[format]⟩ rounds >>= fun s =>
    strlen s.buf.mem str rounds >>= fun len => .ok (len,s)

/-- The buffer of printf is cleared. The result is the length and the text that write gets. -/
def printf (mem : ByteMemory) (buf format args rounds : ℕ) : Except Panic (ℕ × Vsprintf) :=
  vsprintf (fill mem buf 1024 0) buf format args rounds

section Strings
variable {mem : ByteMemory} {a dsc src rounds : ℕ} {text : List (BitVec 8)}

/-- strcpy writes the text and its zero. -/
theorem strcpyLoop_eq (h : CString mem src text) (hr : text.length < rounds)
    (hd : src+text.length < dsc ∨ dsc+text.length < src) :
    strcpyLoop mem dsc src rounds = .ok (write mem dsc (text++[0])) := by
  induction text generalizing mem dsc src rounds with
  | nil =>
    obtain ⟨rounds,rfl⟩ := Nat.exists_eq_succ_of_ne_zero (Nat.ne_of_gt hr)
    simp only [strcpyLoop,h.end,ne_eq,not_true_eq_false,if_false]
    rfl
  | cons b text ih =>
    obtain ⟨rounds,rfl⟩ := Nat.exists_eq_succ_of_ne_zero (Nat.ne_of_gt (Nat.zero_lt_of_lt hr))
    simp only [List.length_cons] at hr hd
    have htail : CString (store8 mem dsc b) (src+1) text :=
      h.tail.congr fun p h₁ h₂ => store8_of_ne (by omega)
    simp only [strcpyLoop,h.head,ne_eq,h.ne_zero,not_false_eq_true,if_true]
    rw [ih htail (by omega) (by omega)]
    rfl

theorem strlenLoop_eq (h : CString mem a text) (hr : text.length < rounds) :
    strlenLoop mem a rounds = .ok (a+text.length+1) := by
  induction text generalizing a rounds with
  | nil =>
    obtain ⟨rounds,rfl⟩ := Nat.exists_eq_succ_of_ne_zero (Nat.ne_of_gt hr)
    simp only [strlenLoop,h.end,ne_eq,not_true_eq_false,if_false]
    rfl
  | cons b text ih =>
    obtain ⟨rounds,rfl⟩ := Nat.exists_eq_succ_of_ne_zero (Nat.ne_of_gt (Nat.zero_lt_of_lt hr))
    simp only [List.length_cons] at hr
    simp only [strlenLoop,h.head,ne_eq,h.ne_zero,not_false_eq_true,if_true]
    rw [ih h.tail (by omega),List.length_cons]
    congr 1
    omega

theorem strcpy_eq (h : CString mem src text) (hr : text.length < rounds)
    (hd : src+text.length < dsc ∨ dsc+text.length < src) (hdsc : dsc ≠ 0) (hsrc : src ≠ 0) :
    strcpy mem dsc src rounds = .ok (write mem dsc (text++[0])) := by
  rw [strcpy,assert_of ⟨hdsc,hsrc⟩,bind_of_ok rfl,strcpyLoop_eq h hr hd]

theorem strlen_eq (h : CString mem a text) (hr : text.length < rounds) (ha : a ≠ 0) :
    strlen mem a rounds = .ok text.length := by
  rw [strlen,assert_of ha,bind_of_ok rfl,strlenLoop_eq h hr,bind_of_ok rfl]
  congr 1
  omega

end Strings
end OsKernel

import OsKernel.Library.X86Narrow
import Mathlib.Order.Bounds.Basic

/-! The detection of the memory in loader.S. The loader asks the BIOS with int 0x15 for the function
0xe820, then 0xe801, and leaves the size at an address where mem_init reads it. -/
namespace OsKernel
open X86

/-- The loader lies at 0x900, and the size behind the 64 descriptors of the GDT. -/
def totalMemBytes : Word := 0x900+4*8+60*8

def ardsBuf : Word := totalMemBytes+4+6

def ardsNr : Word := ardsBuf+244

/-- The letters SMAP. -/
def smap : Word := 0x534d4150

def load16 (m : Mem) (a : Word) : BitVec 16 := m (a+1) ++ m a

def store16 (m : Mem) (a : Word) (v : BitVec 16) : Mem := fun x =>
  if (x-a).toNat < 2 then v.extractLsb' (8*(x-a).toNat) 8 else m x

/-- An address range descriptor. -/
structure Ards where
  baseLow : Word
  baseHigh : Word
  lengthLow : Word
  lengthHigh : Word
  type : Word

namespace Ards

def words (d : Ards) : List Word := [d.baseLow,d.baseHigh,d.lengthLow,d.lengthHigh,d.type]

/-- The end of the range, if it lies below 4 GB. -/
def size (d : Ards) : ℕ := d.baseLow.toNat+d.lengthLow.toNat

def store (m : Mem) (a : Word) (d : Ards) : Mem :=
  X86.store (X86.store (X86.store (X86.store (X86.store m a d.baseLow) (a+4) d.baseHigh) (a+8)
    d.lengthLow) (a+12) d.lengthHigh) (a+16) d.type

end Ards

/-- What the BIOS returns for 0xe801: kilobytes up to 16 MB, and 64 kilobyte blocks above. -/
structure E801 where
  ax : BitVec 16
  bx : BitVec 16
  cx : BitVec 16
  dx : BitVec 16

/-- The answers of the BIOS. For 0xe820, these are descriptors with the value for the next call,
which is not zero, and then the last descriptor. Without an answer the carry flag is set. -/
structure Bios where
  more : List (Ards × { ebx : Word // ebx ≠ 0 })
  last : Option Ards
  e801 : Option E801
  /-- Function 0x88: kilobytes above 1 MB. -/
  e88 : Option (BitVec 16)
  other : BitVec 16 → Option (BitVec 16)

/-- All descriptors that the BIOS returns. -/
def Bios.ards (b : Bios) : List Ards := b.more.map Prod.fst++b.last.toList

/-- The registers and the memory in real mode, where the segments start at 0, and the addresses
where the BIOS has stored a descriptor. -/
structure RealMode where
  eax : Word
  ebx : Word
  ecx : Word
  edx : Word
  esi : Word
  edi : Word
  mem : Mem
  stores : List Word

namespace RealMode

/-- The instruction mul cx. -/
def mulCx (s : RealMode) : RealMode :=
  let p : BitVec 32 := (low16 s.eax).setWidth 32*(low16 s.ecx).setWidth 32
  { s with eax := withLow16 s.eax (p.setWidth 16), edx := withLow16 s.edx (p.extractLsb' 16 16) }

/-- The instruction mul ecx. -/
def mulEcx (s : RealMode) : RealMode :=
  let p : BitVec 64 := s.eax.setWidth 64*s.ecx.setWidth 64
  { s with eax := p.setWidth 32, edx := p.extractLsb' 32 32 }

/-- A descriptor at es:di, and the registers that go with it. -/
def answerE820 (s : RealMode) (d : Ards) (ebx : Word) : RealMode :=
  { s with
    eax := smap
    ebx := ebx
    ecx := 20
    mem := d.store s.mem ((low16 s.edi).setWidth 32)
    stores := s.stores++[(low16 s.edi).setWidth 32] }

def answerE801 (s : RealMode) (a : E801) : RealMode :=
  { s with
    eax := withLow16 s.eax a.ax
    ebx := withLow16 s.ebx a.bx
    ecx := withLow16 s.ecx a.cx
    edx := withLow16 s.edx a.dx }

def answerAx (s : RealMode) (ax : BitVec 16) : RealMode := { s with eax := withLow16 s.eax ax }

end RealMode

/-- The carry flag after int 0x15, what the BIOS still answers, and the registers. -/
structure Int15 where
  carry : Bool
  bios : Bios
  regs : RealMode

/-- The interrupt int 0x15. -/
def int15 (b : Bios) (s : RealMode) : Int15 :=
  if low16 s.eax = 0xe820 ∧ s.edx = smap ∧ 20 ≤ s.ecx.toNat then
    match b.more,b.last with
    | (d,ebx)::more,_ => ⟨false,{ b with more := more },s.answerE820 d ebx⟩
    | [],some d => ⟨false,b,s.answerE820 d 0⟩
    | [],none => ⟨true,b,s⟩
  else if low16 s.eax = 0xe801 then
    match b.e801 with
    | some a => ⟨false,b,s.answerE801 a⟩
    | none => ⟨true,b,s⟩
  else
    match if high8 s.eax = 0x88 then b.e88 else b.other (low16 s.eax) with
    | some ax => ⟨false,b,s.answerAx ax⟩
    | none => ⟨true,b,s⟩

/-- Where the detection ends. -/
inductive MemDetected
  | memGetOk (s : RealMode)
  | errorHlt (s : RealMode)

def MemDetected.state : MemDetected → RealMode
  | .memGetOk s => s
  | .errorHlt s => s

/-- What follows the interrupt in e820_get_loop: the next place, and the count. -/
def RealMode.nextArds (s : RealMode) : RealMode :=
  let s := { s with edi := withLow16 s.edi (low16 s.edi+low16 s.ecx) }
  { s with mem := store16 s.mem ardsNr (load16 s.mem ardsNr+1) }

/-- The loop e820_get_loop. It ends with the carry flag or with ebx = 0. -/
def e820GetLoop : ℕ → Bios → RealMode → Option Int15
  | 0,_,_ => none
  | rounds+1,b,s =>
    let s := { s with eax := 0xe820, ecx := 20 }
    let r := int15 b s
    if r.carry then some r
    else
      let s := r.regs.nextArds
      if s.ebx ≠ 0 then e820GetLoop rounds r.bios s else some { r with regs := s }

/-- The body of find_max_mem, and the count of the instruction loop. -/
def RealMode.maxRound (s : RealMode) : RealMode :=
  let s := { s with eax := load s.mem s.ebx }
  let s := { s with eax := s.eax+load s.mem (s.ebx+8) }
  let s := { s with ebx := s.ebx+20 }
  -- jge compares two numbers with sign
  let s := if s.eax.sle s.edx then s else { s with edx := s.eax }
  { s with ecx := withLow16 s.ecx (low16 s.ecx-1) }

def findMaxMem : ℕ → RealMode → Option RealMode
  | 0,_ => none
  | rounds+1,s =>
    let s := s.maxRound
    if low16 s.ecx ≠ 0 then findMaxMem rounds s else some s

/-- The label mem_get_ok, up to the store of the size. -/
def memGetOk (s : RealMode) : MemDetected :=
  .memGetOk { s with mem := store s.mem totalMemBytes s.edx }

def e801FailedTry88 (b : Bios) (s : RealMode) : MemDetected :=
  let s := { s with eax := withHigh8 s.eax 0x55 }
  let r := int15 b s
  if r.carry then .errorHlt r.regs
  else
    let s := r.regs
    let s := { s with eax := s.eax &&& 0x0000ffff }
    let s := { s with ecx := withLow16 s.ecx 0x400 }
    let s := s.mulCx
    let s := { s with edx := s.edx <<< 16 }
    let s := { s with edx := s.edx ||| s.eax }
    let s := { s with edx := s.edx+0x100000 }
    -- no jump stands before the label error_hlt
    .errorHlt s

/-- The code that adds up the answer of 0xe801. -/
def addE801 (s : RealMode) : RealMode :=
  let s := { s with ecx := withLow16 s.ecx 0x400 }
  let s := s.mulCx
  let s := { s with edx := s.edx <<< 16 }
  let s := { s with eax := s.eax &&& 0x0000ffff }
  let s := { s with edx := s.edx ||| s.eax }
  let s := { s with edx := s.edx+0x100000 }
  let s := { s with esi := s.edx }
  let s := { s with eax := s.eax ^^^ s.eax }
  let s := { s with eax := withLow16 s.eax (low16 s.ebx) }
  let s := { s with ecx := 0x10000 }
  let s := s.mulEcx
  let s := { s with esi := s.esi+s.eax }
  { s with edx := s.esi }

def e820FailedTryE801 (b : Bios) (s : RealMode) : MemDetected :=
  let s := { s with eax := withLow16 s.eax 0xe801 }
  let r := int15 b s
  if r.carry then e801FailedTry88 r.bios r.regs else memGetOk (addE801 r.regs)

/-- The code between the two loops. The count of the descriptors is the count of the rounds. -/
def startMax (s : RealMode) : RealMode :=
  let s := { s with ecx := withLow16 s.ecx (load16 s.mem ardsNr) }
  let s := { s with ebx := ardsBuf }
  { s with edx := s.edx ^^^ s.edx }

/-- The label loader_start. A round of the first loop takes one answer, and a counter of 16 bits
bounds the second one. -/
def loaderStart (b : Bios) (s : RealMode) : Option MemDetected :=
  let s := { s with ebx := s.ebx ^^^ s.ebx }
  let s := { s with edx := smap }
  let s := { s with edi := withLow16 s.edi (low16 ardsBuf) }
  e820GetLoop (b.more.length+1) b s >>= fun r =>
    if r.carry then some (e820FailedTryE801 r.bios r.regs)
    else (findMaxMem (2^16) (startMax r.regs)).map memGetOk

/-- The data of the loader as the assembler has laid them out. -/
structure Loaded (s : RealMode) : Prop where
  ardsNr : load16 s.mem ardsNr = 0
  stores : s.stores = []

/-- The size that the first service to succeed reports. -/
inductive Reports (b : Bios) : ℕ → Prop
  | e820 {n : ℕ} (h : b.last.isSome) (hn : IsGreatest {k | ∃ d ∈ b.ards, d.size = k} n) :
      Reports b n
  | e801 {a : E801} (h : b.last = none) (ha : b.e801 = some a) :
      Reports b (2^20+2^10*a.ax.toNat+2^16*a.bx.toNat)
  | e88 {ax : BitVec 16} (h : b.last = none) (ha : b.e801 = none) (hax : b.e88 = some ax) :
      Reports b (2^20+2^10*ax.toNat)

/-- All sums of 0xe820 fit into a register. -/
def SumsFit (b : Bios) : Prop := b.last.isSome → ∀ d ∈ b.ards, d.size < 2^32

/-- A descriptor at this address lies in ards_buf. -/
def InArdsBuf (a : Word) : Prop := ardsBuf.toNat ≤ a.toNat ∧ a.toNat+20 ≤ ardsBuf.toNat+244

/-- The reported size is stored, and the descriptors stay in their buffer. -/
structure Detects (b : Bios) (s : RealMode) : Prop where
  reaches : ∀ n, Reports b n → ∃ s', loaderStart b s = some (.memGetOk s') ∧
    (SumsFit b → (load s'.mem totalMemBytes).toNat = n)
  inside : ∀ e, loaderStart b s = some e → ∀ a ∈ e.state.stores, InArdsBuf a

/-- What the BIOS has to answer. The loader compares with sign, has room for 12 descriptors, adds
modulo 2^32 and never gets a size from function 0x88. -/
structure Supported (b : Bios) : Prop where
  count : b.ards.length ≤ 12
  sums : b.last.isSome → SumsFit b → ∀ d ∈ b.ards, d.size < 2^31
  e801 : b.last = none → ∀ a, b.e801 = some a → 2^20+2^10*a.ax.toNat+2^16*a.bx.toNat < 2^32
  e88 : b.last = none → b.e801 = none → b.e88 = none

end OsKernel

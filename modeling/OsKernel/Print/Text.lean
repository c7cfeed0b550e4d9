import OsKernel.Library.Outcome
import OsKernel.Library.X86Narrow

/-! The text of print.S. Every line is one instruction, labels are functions, and jumps are tail
calls. Flags live from a comparison to the jump after it only, so that they are not kept. -/
namespace OsKernel
open X86

/-- How a routine can stop in the middle. -/
inductive Fault
  /-- An access beyond the limit of a segment. -/
  | protection
  | divide
  /-- A call came back to another address than the one after it. -/
  | stray (eip : Word)
  /-- A loop was given up. -/
  | unfinished
  deriving DecidableEq, Repr

/-- The index register and the data registers of the display controller. -/
structure Vga where
  index : BitVec 8
  data : BitVec 8 → BitVec 8

structure Pc where
  cpu : Cpu
  vga : Vga

/-- The addresses that the linker chooses: of put_int_buffer, and of the instructions after the
calls of put_char. -/
structure Link where
  putIntBuffer : Word
  putStrNext : Word
  putIntNext : Word

/-- The entry of the GDT that the loader makes for the text memory. -/
def selectorVideo : BitVec 16 := 0x18
def videoBase : Word := 0xc00b8000
def videoLimit : ℕ := 0x7fff

namespace Pc
variable (s : Pc)

def reg (r : Reg) : Word := s.cpu.reg r
def mem : Mem := s.cpu.mem

def setReg (r : Reg) (w : Word) : Pc := { s with cpu := s.cpu.setReg r w }
def mov16 (r : Reg) (v : BitVec 16) : Pc := s.setReg r (withLow16 (s.reg r) v)
def movLow8 (r : Reg) (b : BitVec 8) : Pc := s.setReg r (withLow8 (s.reg r) b)
def movHigh8 (r : Reg) (b : BitVec 8) : Pc := s.setReg r (withHigh8 (s.reg r) b)
def movSeg (r : Seg) (v : BitVec 16) : Pc := { s with cpu := s.cpu.setSeg r v }
def push (w : Word) : Pc := { s with cpu := s.cpu.push w }
def pop (r : Reg) : Pc := { s with cpu := (s.cpu.addEsp 4).setReg r s.cpu.top }
def addEsp (n : Word) : Pc := { s with cpu := s.cpu.addEsp n }
def pushad : Pc := { s with cpu := s.cpu.pushad }
def popad : Pc := { s with cpu := s.cpu.popad }
def ret : Pc := { s with cpu := s.cpu.ret }

def setMem (m : Mem) : Pc := { s with cpu := { s.cpu with mem := m } }
def storeByte (a : Word) (b : BitVec 8) : Pc := s.setMem (Function.update s.mem a b)

/-- The port that dx names gets al. -/
def outDxAl : Pc :=
  let dx := low16 (s.reg .edx)
  let al := low8 (s.reg .eax)
  if dx = 0x03d4 then { s with vga := { s.vga with index := al } }
  else if dx = 0x03d5 then
    { s with vga := { s.vga with data := Function.update s.vga.data s.vga.index al } }
  else s

def inAlDx : Pc :=
  s.movLow8 .eax (if low16 (s.reg .edx) = 0x03d5 then s.vga.data s.vga.index else s.vga.index)

/-- A store at an offset into the segment in gs. -/
def gsStore8 (off : Word) (b : BitVec 8) : Except Fault Pc :=
  if s.cpu.seg .gs = selectorVideo ∧ off.toNat ≤ videoLimit then
    .ok (s.storeByte (videoBase+off) b)
  else .error .protection

def gsStore16 (off : Word) (v : BitVec 16) : Except Fault Pc :=
  if s.cpu.seg .gs = selectorVideo ∧ off.toNat+1 ≤ videoLimit then
    .ok ((s.storeByte (videoBase+off) (v.setWidth 8)).storeByte (videoBase+off+1)
      (v.extractLsb' 8 8))
  else .error .protection

/-- The division of dx:ax by a 16-bit register. -/
def div16 (r : Reg) : Except Fault Pc :=
  let dividend := (low16 (s.reg .edx)).toNat*2^16+(low16 (s.reg .eax)).toNat
  let divisor := (low16 (s.reg r)).toNat
  if divisor = 0 ∨ 2^16 ≤ dividend/divisor then .error .divide
  else .ok ((s.mov16 .eax (BitVec.ofNat 16 (dividend/divisor))).mov16 .edx
    (BitVec.ofNat 16 (dividend % divisor)))

def movsd : Pc :=
  ((s.setMem (store s.mem (s.reg .edi) (load s.mem (s.reg .esi)))).setReg .esi
    (s.reg .esi+4)).setReg .edi (s.reg .edi+4)

def repMovsdRounds (s : Pc) : ℕ → Pc
  | 0 => s
  | rounds+1 => (s.movsd.setReg .ecx (s.reg .ecx-1)).repMovsdRounds rounds

/-- The prefix rep counts ecx down to zero. -/
def repMovsd : Pc := s.repMovsdRounds (s.reg .ecx).toNat

/-- The instruction loop at the end of a body, for at most the given number of rounds. -/
def loop (body : Pc → Except Fault Pc) (s : Pc) : ℕ → Except Fault Pc
  | 0 => .error .unfinished
  | rounds+1 =>
    body s >>= fun s =>
      let s := s.setReg .ecx (s.reg .ecx-1)
      if s.reg .ecx ≠ 0 then loop body s rounds else .ok s

/-- A near call: the code goes on where the callee returns to. -/
def call (next : Word) (callee : Pc → Except Fault Pc) : Except Fault Pc :=
  callee (s.push next) >>= fun s =>
    if s.cpu.eip = next then .ok s else .error (.stray s.cpu.eip)

def setCursor : Pc :=
  let s := s.mov16 .edx 0x03d4
  let s := s.movLow8 .eax 0x0e
  let s := s.outDxAl
  let s := s.mov16 .edx 0x03d5
  let s := s.movLow8 .eax (high8 (s.reg .ebx))
  let s := s.outDxAl
  let s := s.mov16 .edx 0x03d4
  let s := s.movLow8 .eax 0x0f
  let s := s.outDxAl
  let s := s.mov16 .edx 0x03d5
  let s := s.movLow8 .eax (low8 (s.reg .ebx))
  let s := s.outDxAl
  let s := s.popad
  s.ret

/-- The loop body at both labels .cls. -/
def cls : Except Fault Pc :=
  s.gsStore16 (s.reg .ebx) 0x0720 >>= fun s => .ok (s.setReg .ebx (s.reg .ebx+2))

def rollScreen : Except Fault Pc :=
  let s := s.setReg .ecx 960
  let s := s.setReg .esi 0xc00b80a0
  let s := s.setReg .edi 0xc00b8000
  let s := s.repMovsd
  let s := s.setReg .ebx 3840
  let s := s.setReg .ecx 80
  loop cls s 80 >>= fun s =>
    let s := s.mov16 .ebx 1920
    .ok s.setCursor

/-- The labels .is_line_feed and .is_carriage_return. -/
def isLineFeed : Except Fault Pc :=
  let s := s.mov16 .edx 0
  let s := s.mov16 .eax (low16 (s.reg .ebx))
  let s := s.mov16 .esi 80
  s.div16 .esi >>= fun s =>
    let s := s.mov16 .ebx (low16 (s.reg .ebx)-low16 (s.reg .edx))
    let s := s.mov16 .ebx (low16 (s.reg .ebx)+80)
    if (low16 (s.reg .ebx)).slt 2000 then .ok s.setCursor else s.rollScreen

def isBackspace : Except Fault Pc :=
  let s := s.mov16 .ebx (low16 (s.reg .ebx)-1)
  let s := s.mov16 .ebx (low16 (s.reg .ebx) <<< 1)
  s.gsStore8 ((low16 (s.reg .ebx)).setWidth 32) 0x20 >>= fun s =>
    let s := s.mov16 .ebx (low16 (s.reg .ebx)+1)
    s.gsStore8 ((low16 (s.reg .ebx)).setWidth 32) 0x07 >>= fun s =>
      let s := s.mov16 .ebx (low16 (s.reg .ebx) >>> 1)
      .ok s.setCursor

def putOther : Except Fault Pc :=
  let s := s.mov16 .ebx (low16 (s.reg .ebx) <<< 1)
  s.gsStore8 ((low16 (s.reg .ebx)).setWidth 32) (low8 (s.reg .ecx)) >>= fun s =>
    let s := s.mov16 .ebx (low16 (s.reg .ebx)+1)
    s.gsStore8 ((low16 (s.reg .ebx)).setWidth 32) 0x07 >>= fun s =>
      let s := s.mov16 .ebx (low16 (s.reg .ebx) >>> 1)
      let s := s.mov16 .ebx (low16 (s.reg .ebx)+1)
      if (low16 (s.reg .ebx)).slt 2000 then .ok s.setCursor else s.isLineFeed

/-- The part of put_char that reads the cursor into bx. -/
def getCursor : Pc :=
  let s := s.mov16 .edx 0x03d4
  let s := s.movLow8 .eax 0x0e
  let s := s.outDxAl
  let s := s.mov16 .edx 0x03d5
  let s := s.inAlDx
  let s := s.movHigh8 .eax (low8 (s.reg .eax))
  let s := s.mov16 .edx 0x03d4
  let s := s.movLow8 .eax 0x0f
  let s := s.outDxAl
  let s := s.mov16 .edx 0x03d5
  let s := s.inAlDx
  s.mov16 .ebx (low16 (s.reg .eax))

def putChar : Except Fault Pc :=
  let s := s.pushad
  let s := s.mov16 .eax selectorVideo
  let s := s.movSeg .gs (low16 (s.reg .eax))
  let s := s.getCursor
  let s := s.setReg .ecx (load s.mem (s.reg .esp+36))
  if low8 (s.reg .ecx) = 0x0d then s.isLineFeed
  else if low8 (s.reg .ecx) = 0x0a then s.isLineFeed
  else if low8 (s.reg .ecx) = 0x08 then s.isBackspace
  else s.putOther

def strOver : Pc :=
  let s := s.pop .ecx
  let s := s.pop .ebx
  s.ret

/-- The label .goon. -/
def goon (l : Link) (s : Pc) : ℕ → Except Fault Pc
  | 0 => .error .unfinished
  | rounds+1 =>
    let s := s.movLow8 .ecx (s.mem (s.reg .ebx))
    if low8 (s.reg .ecx) = 0 then .ok s.strOver
    else
      let s := s.push (s.reg .ecx)
      s.call l.putStrNext putChar >>= fun s =>
        let s := s.addEsp 4
        let s := s.setReg .ebx (s.reg .ebx+1)
        goon l s rounds

def putStr (l : Link) (rounds : ℕ) : Except Fault Pc :=
  let s := s.push (s.reg .ebx)
  let s := s.push (s.reg .ecx)
  let s := s.setReg .ecx 0
  let s := s.setReg .ebx (load s.mem (s.reg .esp+12))
  goon l s rounds

/-- The label .16based_4bits. -/
def based16 : Except Fault Pc :=
  let s := s.setReg .edx (s.reg .edx &&& 0x0000000f)
  let s :=
    if BitVec.slt 9 (s.reg .edx) then
      let s := s.setReg .edx (s.reg .edx-10)
      s.setReg .edx (s.reg .edx+0x41)
    else s.setReg .edx (s.reg .edx+0x30)
  let s := s.storeByte (s.reg .ebx+s.reg .edi) (low8 (s.reg .edx))
  let s := s.setReg .edi (s.reg .edi-1)
  let s := s.setReg .eax (s.reg .eax >>> 4)
  .ok (s.setReg .edx (s.reg .eax))

/-- The label .put_each_num. -/
def putEachNum (l : Link) (s : Pc) : ℕ → Except Fault Pc
  | 0 => .error .unfinished
  | rounds+1 =>
    let s := s.push (s.reg .ecx)
    s.call l.putIntNext putChar >>= fun s =>
      let s := s.addEsp 4
      let s := s.setReg .edi (s.reg .edi+1)
      let s := s.movLow8 .ecx (s.mem (l.putIntBuffer+s.reg .edi))
      if (s.reg .edi).slt 8 then putEachNum l s rounds
      else .ok s.popad.ret

/-- The label .skip_prefix_0. -/
def skipPrefix0 (l : Link) (s : Pc) : ℕ → Except Fault Pc
  | 0 => .error .unfinished
  | rounds+1 =>
    if s.reg .edi = 8 then putEachNum l (s.movLow8 .ecx 0x30) 8
    else
      let s := s.movLow8 .ecx (s.mem (l.putIntBuffer+s.reg .edi))
      let s := s.setReg .edi (s.reg .edi+1)
      if low8 (s.reg .ecx) = 0x30 then skipPrefix0 l s rounds
      else putEachNum l (s.setReg .edi (s.reg .edi-1)) 8

def putInt (l : Link) : Except Fault Pc :=
  let s := s.pushad
  let s := s.setReg .ebp (s.reg .esp)
  let s := s.setReg .eax (load s.mem (s.reg .ebp+36))
  let s := s.setReg .edx (s.reg .eax)
  let s := s.setReg .edi 7
  let s := s.setReg .ecx 8
  let s := s.setReg .ebx l.putIntBuffer
  loop based16 s 8 >>= fun s =>
    let s := s.setReg .edi (s.reg .edi+1)
    skipPrefix0 l s 9

def clsScreen : Except Fault Pc :=
  let s := s.pushad
  let s := s.mov16 .eax selectorVideo
  let s := s.movSeg .gs (low16 (s.reg .eax))
  let s := s.setReg .ebx 0
  let s := s.setReg .ecx 2000
  loop cls s 2000 >>= fun s =>
    let s := s.setReg .ebx 0
    .ok s.setCursor

end Pc
end OsKernel

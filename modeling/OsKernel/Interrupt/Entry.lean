import OsKernel.Library.X86Call

/-! The text of kernel.S: the stub of each interrupt vector, the common exit and
the system call entry, with the layout their pushes give to the stack. -/
namespace OsKernel
open X86

/-- The second argument of VECTOR. -/
inductive VectorKind
  | errorCode
  | zero
  deriving DecidableEq

def VectorKind.instr : VectorKind → Instr
  | .errorCode => .nop
  | .zero => .pushImm 0

/-- The uses of VECTOR, in order. -/
def vectors : List (BitVec 8 × VectorKind) :=
  [(0x0,.zero),(0x1,.zero),(0x2,.zero),(0x3,.zero),(0x4,.zero),(0x5,.zero),(0x6,.zero),(0x7,.zero),
    (0x8,.errorCode),(0x9,.zero),(0xa,.errorCode),(0xb,.errorCode),(0xc,.errorCode),
    (0xd,.errorCode),(0xe,.errorCode),(0xf,.zero),(0x10,.zero),(0x11,.errorCode),(0x12,.zero),
    (0x13,.zero),(0x14,.zero),(0x15,.zero),(0x16,.zero),(0x17,.zero),(0x18,.zero),(0x19,.zero),
    (0x1a,.zero),(0x1b,.zero),(0x1c,.zero),(0x1d,.zero),(0x1e,.errorCode),(0x1f,.zero),(0x20,.zero),
    (0x21,.zero),(0x22,.zero),(0x23,.zero),(0x24,.zero),(0x25,.zero),(0x26,.zero),(0x27,.zero),
    (0x28,.zero),(0x29,.zero),(0x2a,.zero),(0x2b,.zero),(0x2c,.zero),(0x2d,.zero),(0x2e,.zero),
    (0x2f,.zero),(0x30,.zero),(0x31,.zero),(0x32,.zero),(0x33,.zero),(0x34,.zero),(0x35,.zero),
    (0x36,.zero),(0x37,.zero),(0x38,.zero),(0x39,.zero),(0x3a,.zero),(0x3b,.zero),(0x3c,.zero),
    (0x3d,.zero),(0x3e,.zero),(0x3f,.zero),(0x40,.zero),(0x41,.zero),(0x42,.zero),(0x43,.zero),
    (0x44,.zero),(0x45,.zero),(0x46,.zero),(0x47,.zero),(0x48,.zero),(0x49,.zero),(0x4a,.zero),
    (0x4b,.zero),(0x4c,.zero),(0x4d,.zero),(0x4e,.zero),(0x4f,.zero),(0x50,.zero),(0x51,.zero),
    (0x52,.zero),(0x53,.zero),(0x54,.zero),(0x55,.zero),(0x56,.zero),(0x57,.zero),(0x58,.zero),
    (0x59,.zero),(0x5a,.zero),(0x5b,.zero),(0x5c,.zero),(0x5d,.zero),(0x5e,.zero),(0x5f,.zero),
    (0x61,.zero),(0x62,.zero),(0x63,.zero),(0x64,.zero),(0x65,.zero),(0x66,.zero),(0x67,.zero),
    (0x68,.zero),(0x69,.zero),(0x6a,.zero),(0x6b,.zero),(0x6c,.zero),(0x6d,.zero),(0x6e,.zero),
    (0x6f,.zero),(0x70,.zero),(0x71,.zero),(0x72,.zero),(0x73,.zero),(0x74,.zero),(0x75,.zero),
    (0x76,.zero),(0x77,.zero),(0x78,.zero),(0x79,.zero),(0x7a,.zero),(0x7b,.zero),(0x7c,.zero),
    (0x7d,.zero),(0x7e,.zero),(0x7f,.zero),(0x80,.zero)]

def intrExitPops : List Instr :=
  [.addEsp 4,.popad,.popSeg .gs,.popSeg .fs,.popSeg .es,.popSeg .ds,.addEsp 4]

def intrExit : List Instr := intrExitPops++[.iretd]

def pushContext : List Instr := [.pushSeg .ds,.pushSeg .es,.pushSeg .fs,.pushSeg .gs,.pushad]

/-- A stub up to its call. -/
def intrEntryPushes (n : BitVec 8) (kind : VectorKind) : List Instr :=
  kind.instr::pushContext++[.movAl 0x20,.out 0xa0,.out 0x20,.pushImm (n.setWidth 32)]

/-- The stub that VECTOR makes for a vector; its jump goes on with the exit. -/
def intrEntry (idtTable : Word) (n : BitVec 8) (kind : VectorKind) : List Instr :=
  intrEntryPushes n kind++.call ⟨idtTable+4*n.setWidth 32,none⟩::intrExit

def syscallPushes : List Instr :=
  .pushImm 0::pushContext++[.pushImm 0x80,.pushReg .edx,.pushReg .ecx,.pushReg .ebx]

/-- What follows the call: the result replaces the saved eax. -/
def syscallReturn : List Instr := [.addEsp 12,.store .esp 32 .eax]

def syscallHandler (syscallTable : Word) : List Instr :=
  syscallPushes++.call ⟨syscallTable,some .eax⟩::(syscallReturn++intrExit)

structure IntrStack where
  vecNo : Word
  edi : Word
  esi : Word
  ebp : Word
  espDummy : Word
  ebx : Word
  edx : Word
  ecx : Word
  eax : Word
  gs : Word
  fs : Word
  es : Word
  ds : Word
  errCode : Word
  eip : Word
  cs : Word
  eflags : Word
  esp : Word
  ss : Word

namespace IntrStack

/-- The fields in the order in which they stand in memory. -/
def words (s : IntrStack) : List Word :=
  [s.vecNo,s.edi,s.esi,s.ebp,s.espDummy,s.ebx,s.edx,s.ecx,s.eax,s.gs,s.fs,s.es,s.ds,s.errCode,
    s.eip,s.cs,s.eflags,s.esp,s.ss]

/-- The last two fields are there only when the stack changed. -/
def saved (s : IntrStack) (c : Cpu) : List Word := s.words.take (if c.Outer then 19 else 17)

lemma length_saved (s : IntrStack) (c : Cpu) : (s.saved c).length ≤ 19 := by
  simp only [saved,List.length_take]
  exact Nat.min_le_right _ _

def setEax (s : IntrStack) (w : Word) : IntrStack := {s with eax := w}

@[simp] lemma setEax_setEax (s : IntrStack) (u w : Word) : (s.setEax u).setEax w = s.setEax w := rfl

end IntrStack

end OsKernel

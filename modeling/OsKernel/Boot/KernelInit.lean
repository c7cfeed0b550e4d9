import OsKernel.Boot.BootPages

/-! kernel_init in loader.S, which installs the segments of the kernel image. It runs behind the
page tables of setup_page: two addresses can stand for the same byte, and most stand for none. -/
namespace OsKernel
open X86

def kernelBinBaseAddr : Word := 0x70000

/-- The stack of the loader, moved above 3 GB. -/
def loaderStackTop : Word := 0x900+0xc0000000

def ptNull : BitVec 8 := 0

/-- The registers in protected mode, and the memory. -/
structure Protected where
  eax : Word
  ebx : Word
  ecx : Word
  edx : Word
  esi : Word
  edi : Word
  ebp : Word
  esp : Word
  eip : Word
  mem : Mem

section Memory
variable (pages : Word → Option Word) (m : Mem)

/-- The byte at a linear address. An access without a page is a page fault, and nothing handles it:
the loader has no interrupt descriptors. -/
def readByte (a : Word) : Option (BitVec 8) := (pages a).map m

def readWord (a : Word) : Option (BitVec 16) := do
  let low ← readByte pages m a
  let high ← readByte pages m (a+1)
  return high ++ low

def readDword (a : Word) : Option Word := do
  let b₀ ← readByte pages m a
  let b₁ ← readByte pages m (a+1)
  let b₂ ← readByte pages m (a+2)
  let b₃ ← readByte pages m (a+3)
  return b₃ ++ b₂ ++ b₁ ++ b₀

def writeByte (a : Word) (b : BitVec 8) : Option Mem :=
  (pages a).map fun x => Function.update m x b

def writeDword (a w : Word) : Option Mem := do
  let m ← writeByte pages m a (w.extractLsb' 0 8)
  let m ← writeByte pages m (a+1) (w.extractLsb' 8 8)
  let m ← writeByte pages m (a+2) (w.extractLsb' 16 8)
  writeByte pages m (a+3) (w.extractLsb' 24 8)

end Memory

namespace Protected
variable (pages : Word → Option Word) (s : Protected)

def push (w : Word) : Option Protected := do
  let mem ← writeDword pages s.mem (s.esp-4) w
  return { s with esp := s.esp-4, mem := mem }

/-- The word on the stack, which a pop takes. -/
def top : Option Word := readDword pages s.mem s.esp

/-- One byte of rep movsb, with the direction flag cleared. -/
def movsb : Option Protected := do
  let b ← readByte pages s.mem s.esi
  let mem ← writeByte pages s.mem s.edi b
  return { s with mem := mem, esi := s.esi+1, edi := s.edi+1, ecx := s.ecx-1 }

def repMovsb : ℕ → Option Protected
  | 0 => some s
  | n+1 => repMovsb n >>= movsb pages

/-- mem_cpy up to its copy. -/
def enterMemCpy : Option Protected := do
  let s ← s.push pages s.ebp
  let s := { s with ebp := s.esp }
  let s ← s.push pages s.ecx
  let dst ← readDword pages s.mem (s.ebp+8)
  let s := { s with edi := dst }
  let src ← readDword pages s.mem (s.ebp+12)
  let s := { s with esi := src }
  let size ← readDword pages s.mem (s.ebp+16)
  return { s with ecx := size }

def leaveMemCpy : Option Protected := do
  let ecx ← s.top pages
  let s := { s with ecx := ecx, esp := s.esp+4 }
  let ebp ← s.top pages
  let s := { s with ebp := ebp, esp := s.esp+4 }
  let eip ← s.top pages
  return { s with eip := eip, esp := s.esp+4 }

/-- The function mem_cpy. -/
def memCpy : Option Protected := do
  let s ← s.enterMemCpy pages
  let s ← s.repMovsb pages s.ecx.toNat
  s.leaveMemCpy pages

/-- The arguments of mem_cpy and its return address. -/
def pushArgs (next : Word) : Option Protected := do
  let size ← readDword pages s.mem (s.ebx+16)
  let s ← s.push pages size
  let offset ← readDword pages s.mem (s.ebx+4)
  let s := { s with eax := offset }
  let s := { s with eax := s.eax+kernelBinBaseAddr }
  let s ← s.push pages s.eax
  let vaddr ← readDword pages s.mem (s.ebx+8)
  let s ← s.push pages vaddr
  s.push pages next

/-- The call of mem_cpy. The code goes on if mem_cpy returns behind the call. -/
def copySegment (next : Word) : Option Protected := do
  let s ← s.pushArgs pages next
  let s ← s.memCpy pages
  if s.eip = next then some { s with esp := s.esp+12 } else none

/-- One round of each_segment, with the count of the instruction loop. -/
def segmentRound (next : Word) : Option Protected := do
  let type ← readByte pages s.mem s.ebx
  let s ← (if type = ptNull then some s else s.copySegment pages next)
  return { s with ebx := s.ebx+s.edx, ecx := s.ecx-1 }

def eachSegment (next : Word) : ℕ → Protected → Option Protected
  | 0,_ => none
  | rounds+1,s => s.segmentRound pages next >>= fun s =>
    if s.ecx ≠ 0 then eachSegment next rounds s else some s

/-- The registers at the beginning of each_segment. -/
def startSegments : Option Protected := do
  let s := { s with eax := 0, ebx := 0, ecx := 0, edx := 0 }
  let phentsize ← readWord pages s.mem (kernelBinBaseAddr+42)
  let s := { s with edx := withLow16 s.edx phentsize }
  let phoff ← readDword pages s.mem (kernelBinBaseAddr+28)
  let s := { s with ebx := phoff }
  let s := { s with ebx := s.ebx+kernelBinBaseAddr }
  let phnum ← readWord pages s.mem (kernelBinBaseAddr+44)
  return { s with ecx := withLow16 s.ecx phnum }

/-- The call of kernel_init and its return. -/
def kernelInit (back next : Word) : Option Protected := do
  let s ← s.push pages back
  let s ← s.startSegments pages
  let s ← eachSegment pages next (2^32) s
  let eip ← s.top pages
  if eip = back then some { s with eip := eip, esp := s.esp+4 } else none

end Protected

/-! What the headers of the image say. -/

section Fields
variable (pages : Word → Option Word) (m : Mem)

/-- A byte of the image, all of which has pages. -/
def byteAt (a : Word) : BitVec 8 := (readByte pages m a).getD 0

def wordAt (a : Word) : BitVec 16 := byteAt pages m (a+1) ++ byteAt pages m a

def dwordAt (a : Word) : Word :=
  byteAt pages m (a+3) ++ byteAt pages m (a+2) ++ byteAt pages m (a+1) ++ byteAt pages m a

end Fields

/-- The fields of a program header that the loader reads, and the size in memory. -/
structure Phdr where
  type : Word
  offset : Word
  vaddr : Word
  filesz : Word
  memsz : Word
  deriving DecidableEq

namespace Phdr
variable (pages : Word → Option Word) (m : Mem) (e : Phdr)

/-- The program header at an address. -/
def read (a : Word) : Phdr :=
  ⟨dwordAt pages m a,dwordAt pages m (a+4),dwordAt pages m (a+8),dwordAt pages m (a+16),
    dwordAt pages m (a+20)⟩

def Loadable : Prop := e.type = 1

/-- The loader looks at the first byte of the type only. -/
def Copied : Prop := e.type.setWidth 8 ≠ ptNull

instance : DecidablePred Copied := fun _ => inferInstanceAs (Decidable (_ ≠ _))
instance : DecidablePred Loadable := fun _ => inferInstanceAs (Decidable (_ = _))

/-- A byte of the segment in the file. -/
def file (i : ℕ) : BitVec 8 := byteAt pages m (kernelBinBaseAddr+e.offset+BitVec.ofNat 32 i)

/-- Where a byte of the segment belongs, if its address is mapped. -/
def place (i : ℕ) : Option Word := pages (e.vaddr+BitVec.ofNat 32 i)

/-- A byte of the segment in memory. -/
def content (i : ℕ) : BitVec 8 := if i < e.filesz.toNat then e.file pages m i else 0

/-- The bytes that the loader writes for a header. -/
def Covers (x : Word) : Prop := ∃ i < e.filesz.toNat, e.place pages i = some x

/-- The bytes that belong to a loadable segment. -/
def Occupies (x : Word) : Prop := ∃ i < e.memsz.toNat, e.place pages i = some x

/-- The size of the destination of a header. -/
def extent : ℕ := if e.Loadable then e.memsz.toNat else e.filesz.toNat

end Phdr

section Image
variable (pages : Word → Option Word) (m : Mem)

def ePhoff : Word := dwordAt pages m (kernelBinBaseAddr+28)

def ePhentsize : BitVec 16 := wordAt pages m (kernelBinBaseAddr+42)

def ePhnum : BitVec 16 := wordAt pages m (kernelBinBaseAddr+44)

/-- The program headers of the image in memory. -/
def phdrs : List Phdr :=
  (List.range (ePhnum pages m).toNat).map fun k => Phdr.read pages m
    (kernelBinBaseAddr+(ePhoff pages m+BitVec.ofNat 32 (k*(ePhentsize pages m).toNat)))

/-- A byte of an image of this size. -/
def ImageByte (size : ℕ) (x : Word) : Prop :=
  ∃ i < size, pages (kernelBinBaseAddr+BitVec.ofNat 32 i) = some x

/-- A byte of the stack that the loader uses. -/
def StackByte (x : Word) : Prop :=
  ∃ k, 1 ≤ k ∧ k ≤ 28 ∧ pages (loaderStackTop-BitVec.ofNat 32 k) = some x

/-- A byte of the code and the data of the loader, or of its page tables. -/
def LoaderByte (x : Word) : Prop :=
  (∃ j < 0x800, pages (0x900+BitVec.ofNat 32 j) = some x) ∨ 0x100000 ≤ x ∧ x < 0x200000

/-- The headers, the program headers and the segments lie in the file. -/
structure ElfImage (size : ℕ) : Prop where
  header : 52 ≤ size
  phnum : 0 < (ePhnum pages m).toNat
  phentsize : 32 ≤ (ePhentsize pages m).toNat
  table : (ePhoff pages m).toNat+(ePhnum pages m).toNat*(ePhentsize pages m).toNat ≤ size
  file : ∀ e ∈ phdrs pages m, e.Copied → e.offset.toNat+e.filesz.toNat ≤ size
  memsz : ∀ e ∈ phdrs pages m, e.Loadable → e.filesz.toNat ≤ e.memsz.toNat

/-- The destinations are apart from each other, from the image, from the loader and its stack. -/
structure SegmentsApart (size : ℕ) : Prop where
  dest : ∀ e ∈ phdrs pages m, e.Copied → ∀ i < e.extent, ∀ x, e.place pages i = some x →
    ¬ ImageByte pages size x ∧ ¬ StackByte pages x ∧ ¬ LoaderByte pages x
  loadable : (phdrs pages m).Pairwise fun e f => e.Loadable → f.Loadable →
    ∀ x, e.Occupies pages x → ¬ f.Occupies pages x

/-- The image and the stack have pages and are apart. The bytes of the stack are apart from each
other, and so are those of a destination. -/
structure PagesApart (size : ℕ) : Prop where
  imageMaps : ∀ i < size, (pages (kernelBinBaseAddr+BitVec.ofNat 32 i)).isSome
  image : ∀ x, ImageByte pages size x → ¬ StackByte pages x
  stackMaps : ∀ k, 1 ≤ k → k ≤ 28 → (pages (loaderStackTop-BitVec.ofNat 32 k)).isSome
  stack : ∀ k l, 1 ≤ k → k ≤ 28 → 1 ≤ l → l ≤ 28 →
    pages (loaderStackTop-BitVec.ofNat 32 k) = pages (loaderStackTop-BitVec.ofNat 32 l) → k = l
  place : ∀ e ∈ phdrs pages m, e.Copied → ∀ i < e.extent, ∀ j < e.extent, ∀ x,
    e.place pages i = some x → e.place pages j = some x → i = j

structure Bootable (size : ℕ) : Prop extends
  ElfImage pages m size, SegmentsApart pages m size, PagesApart pages m size

/-- The memory after kernel_init, compared with the memory before. -/
structure Installs (m' : Mem) : Prop where
  loads : ∀ e ∈ phdrs pages m, e.Loadable → ∀ i < e.memsz.toNat,
    ∃ x, e.place pages i = some x ∧ m' x = e.content pages m i
  nulls : ∀ x, ¬ StackByte pages x → m' x ≠ m x →
    ∃ e ∈ phdrs pages m, e.type ≠ 0 ∧ e.Covers pages x
  others : ∀ x, ¬ StackByte pages x → (∀ e ∈ phdrs pages m, e.Loadable → ¬ e.Occupies pages x) →
    m' x = m x

/-- The byte that the headers want at an address. -/
structure Wanted (x : Word) (b : BitVec 8) : Prop where
  load : ∀ e ∈ phdrs pages m, e.Loadable → ∀ i < e.memsz.toNat, e.place pages i = some x →
    b = e.content pages m i
  other : (∀ e ∈ phdrs pages m, e.Loadable → ¬ e.Occupies pages x) → b = m x

/-- Every destination is mapped: those of the copies, and those of the segments in memory. -/
def Placed : Prop :=
  ∀ e ∈ phdrs pages m, e.Copied → ∀ i < e.extent, (e.place pages i).isSome

/-- The memory that no file byte is copied to is zero already where a segment wants zeros, and the
other entries that the loader copies do not leave a wrong byte. -/
structure Unspoiled : Prop where
  bss : ∀ e ∈ phdrs pages m, e.Loadable → ∀ i, e.filesz.toNat ≤ i → i < e.memsz.toNat →
    ∀ x, e.place pages i = some x → (∀ f ∈ phdrs pages m, f.Copied → ¬ f.Covers pages x) → m x = 0
  entries : ∀ before e after, phdrs pages m = before++e::after → e.Copied → ¬ e.Loadable →
    ∀ i < e.filesz.toNat, ∀ x, e.place pages i = some x →
    (∀ f ∈ after, f.Copied → ¬ f.Covers pages x) → Wanted pages m x (e.file pages m i)

end Image
end OsKernel

import OsKernel.Memory.Page

/-! What the bitmaps, the page directories and the page tables stand for: a map from the uses of
frames to frames. A frame is used by a heap page of the kernel, by a page of a process, or by
a page table that page_table_add has made. -/
namespace OsKernel
open Paging

/-- What a frame is used for. The space none is the kernel half, common to all directories. -/
inductive Use
  | page (space : Option TaskId) (vpn : ℕ)
  | table (t : TaskId) (pde : ℕ)
  deriving DecidableEq

abbrev FrameMap : Type := Use → Option ℕ

/-- The pool that the frame of a use is taken from. -/
def Use.pool : Use → PoolFlags
  | .page none _ => .kernel
  | .page (some _) _ => .user
  | .table _ _ => .kernel

def kernelHeapPage : ℕ := 0xc0100
def userStartPage : ℕ := 0x8048
def kernelHalf : ℕ := 0xc0000
def recursivePage : ℕ := 0xffc00
def bootDir : ℕ := 0x100
def firstPoolFrame : ℕ := 0x200

/-- The frame of the page table of a page in the kernel half, as the loader has placed it. -/
@[irreducible] def kernelTable (vpn : ℕ) : ℕ := 0x101+(vpn/1024-768)

theorem kernelTable_eq (vpn : ℕ) : kernelTable vpn = 0x101+(vpn/1024-768) := by
  unfold kernelTable
  rfl

/-- The first page that the bitmap of an address space covers. -/
def firstPage : Option TaskId → ℕ
  | none => kernelHeapPage
  | some _ => userStartPage

namespace Machine
variable (m : Machine) (A : FrameMap)

def len (pf : PoolFlags) : ℕ := (m.pool pf).poolBitmap.btmpBytesLen
def start (pf : PoolFlags) : ℕ := (m.pool pf).phyAddrStart/pageSize
def bit (pf : PoolFlags) (i : ℕ) : Bool := (m.pool pf).poolBitmap.bitmapScanTest i
def free (pf : PoolFlags) : ℕ := (m.pool pf).poolBitmap.free

/-- The frame lies in the range of a pool. -/
def InPool (pf : PoolFlags) (f : ℕ) : Prop := m.start pf ≤ f ∧ f < m.start pf+8*m.len pf

/-- The thread is a user process. -/
def IsProc (t : TaskId) : Prop := (m.task t).pgdir ≠ 0

instance (t : TaskId) : Decidable (m.IsProc t) := inferInstanceAs (Decidable (_ ≠ _))

/-- The page of the page directory of a process. -/
def dirPage (t : TaskId) : ℕ := (m.task t).pgdir/pageSize

/-- The frame of the page directory that is active while the thread runs. -/
def dirOf (t : TaskId) : Option ℕ :=
  if m.IsProc t then A (.page none (m.dirPage t)) else some bootDir

/-- The frame is the page directory of the kernel threads or of a process. -/
def Dir (d : ℕ) : Prop := d = bootDir ∨ ∃ t, m.IsProc t ∧ A (.page none (m.dirPage t)) = some d

/-- The address space whose pages the running thread allocates from a pool. -/
def space : PoolFlags → Option TaskId
  | .kernel => none
  | .user => some m.runningThread

/-- The bitmap of the pages of an address space. -/
def vaddr : Option TaskId → VirtualAddr
  | none => m.kernelVaddr
  | some t => (m.task t).userprogVaddr

end Machine

/-- The entries that page directories and page tables must have: entry i of the frame g points
to the frame o, or is not present. -/
inductive TableSpec (m : Machine) (A : FrameMap) : ℕ → ℕ → Option ℕ → Prop
  /-- The first megabyte is mapped to itself. -/
  | low {j} (hj : j < 256) : TableSpec m A 0x101 j (some j)
  | kernelPte {v} (h₁ : kernelHeapPage ≤ v) (h₂ : v < recursivePage) :
    TableSpec m A (kernelTable v) (v % 1024) (A (.page none v))
  | kernelPde {t d i} (hd : m.dirOf A t = some d) (h₁ : 768 ≤ i) (h₂ : i < 1023) :
    TableSpec m A d i (some (0x101+(i-768)))
  | self {t d} (hd : m.dirOf A t = some d) : TableSpec m A d 1023 (some d)
  | pde {t d i} (ht : m.IsProc t) (hd : m.dirOf A t = some d) (hi : i < 768) :
    TableSpec m A d i (A (.table t i))
  | pte {t i f j} (hf : A (.table t i) = some f) (hj : j < 1024) :
    TableSpec m A f j (A (.page (some t) (1024*i+j)))

/-- The ranges that mem_pool_init sets up. -/
structure Layout (m : Machine) : Prop where
  kernelStart : (m.pool .kernel).phyAddrStart = pageSize*firstPoolFrame
  userAligned : (m.pool .user).phyAddrStart = pageSize*m.start .user
  disjoint : firstPoolFrame+8*m.len .kernel ≤ m.start .user
  bound : m.start .user+8*m.len .user ≤ 2^20
  vaddrStart : m.kernelVaddr.vaddrStart = kHeapStart
  vaddrLen : 8*m.kernelVaddr.vaddrBitmap.btmpBytesLen ≤ 2^15

/-- Every frame has at most one use, and the bitmaps mark the frames in use. The frames in F
are marked though nothing uses them yet. -/
structure Frames (m : Machine) (A : FrameMap) (F : Set ℕ) : Prop where
  inj : ∀ x y f, A x = some f → A y = some f → x = y
  reserved : ∀ x f, A x = some f → f ∉ F
  inPool : ∀ x f, A x = some f → m.InPool x.pool f
  reservedInPool : ∀ f, f ∈ F → ∃ pf, m.InPool pf f
  bits : ∀ pf i, i < 8*m.len pf →
    (m.bit pf i = true ↔ m.start pf+i ∈ F ∨ ∃ x, A x = some (m.start pf+i))

/-- Which uses there can be. -/
structure Shape (m : Machine) (A : FrameMap) : Prop where
  kernelPage : ∀ v f, A (.page none v) = some f → kernelHeapPage ≤ v ∧
    v < kernelHeapPage+8*m.kernelVaddr.vaddrBitmap.btmpBytesLen
  userPage : ∀ t v f, A (.page (some t) v) = some f →
    m.IsProc t ∧ userStartPage ≤ v ∧ v < kernelHalf ∧ (A (.table t (v/1024))).isSome
  table : ∀ t i f, A (.table t i) = some f → m.IsProc t ∧ i < 768
  dir : ∀ t, m.IsProc t → (m.task t).pgdir = pageSize*m.dirPage t ∧
    (A (.page none (m.dirPage t))).isSome
  dirInj : ∀ t u, m.IsProc t → m.IsProc u → m.dirPage t = m.dirPage u → t = u

/-- The tables in memory say what the map says, the entries of the kernel half are those of
the loader, and cr3 is the directory of the running thread. -/
structure Tables (m : Machine) (A : FrameMap) : Prop where
  spec : ∀ g i o, TableSpec m A g i o → target (word m.mem g i) = o
  kernelWord : ∀ d i, m.Dir A d → 768 ≤ i → i < 1023 → word m.mem d i = 4096*(0x101+(i-768))+7
  cr3 : ∃ d, m.dirOf A m.runningThread = some d ∧ m.cr3 = pageSize*d

/-- The state represents the map. -/
structure PageRep (m : Machine) (A : FrameMap) (F : Set ℕ) : Prop
    extends Layout m, Frames m A F, Shape m A, Tables m A

/-- The bitmaps of virtual addresses mark the mapped pages, and those in P. A running kernel
thread has an empty bitmap. -/
structure VaddrRep (m : Machine) (A : FrameMap) (P : Set (Option TaskId × ℕ)) : Prop where
  bits : ∀ s k, k < 8*(m.vaddr s).vaddrBitmap.btmpBytesLen →
    ((m.vaddr s).vaddrBitmap.bitmapScanTest k = true ↔
      (A (.page s (firstPage s+k))).isSome ∨ (s,firstPage s+k) ∈ P)
  userStart : ∀ t, m.IsProc t → (m.task t).userprogVaddr.vaddrStart = userVaddrStart
  userLen : ∀ t, m.IsProc t → (m.task t).userprogVaddr.vaddrBitmap.btmpBytesLen = 94199
  kernelLen : ¬ m.IsProc m.runningThread →
    (m.task m.runningThread).userprogVaddr.vaddrBitmap.btmpBytesLen = 0
  pending : ∀ s v, (s,v) ∈ P → A (.page s v) = none

section Lookup
variable {m : Machine} {A : FrameMap} {F : Set ℕ} {t : TaskId} {d v i f : ℕ} {o : Option ℕ}

theorem TableSpec.index_lt {g : ℕ} (h : TableSpec m A g i o) : i < 1024 := by
  cases h with
  | low hj => omega
  | kernelPte h₁ h₂ => exact Nat.mod_lt _ (by decide)
  | kernelPde hd h₁ h₂ => omega
  | self hd => decide
  | pde ht hd hi => omega
  | pte hf hj => exact hj

theorem Machine.dirOf_of_proc (h : m.IsProc t) : m.dirOf A t = A (.page none (m.dirPage t)) :=
  if_pos h

theorem Machine.dirOf_of_not_proc (h : ¬ m.IsProc t) : m.dirOf A t = some bootDir := if_neg h

theorem Machine.dir_of_dirOf (hd : m.dirOf A t = some d) : m.Dir A d := by
  by_cases ht : m.IsProc t
  · rw [Machine.dirOf_of_proc ht] at hd
    exact .inr ⟨t,ht,hd⟩
  · rw [Machine.dirOf_of_not_proc ht] at hd
    exact .inl (Option.some.inj hd).symm

theorem Layout.start_kernel (h : Layout m) : m.start .kernel = firstPoolFrame := by
  rw [Machine.start,h.kernelStart,pageSize,Nat.mul_div_cancel_left _ (by decide)]

/-- The frames of the pools lie above those of the loader. -/
theorem Layout.le_of_inPool (h : Layout m) {pf : PoolFlags} (hf : m.InPool pf f) :
    firstPoolFrame ≤ f := by
  have hs := h.start_kernel
  have hp := hf.1
  have hd := h.disjoint
  cases pf with
  | kernel => rwa [hs] at hp
  | user => omega

theorem Layout.lt_of_inPool (h : Layout m) {pf : PoolFlags} (hf : m.InPool pf f) : f < 2^20 := by
  have hs := h.start_kernel
  have hp := hf.2
  have hd := h.disjoint
  have hb := h.bound
  cases pf with
  | kernel => omega
  | user => omega

theorem PageRep.le_of_use (h : PageRep m A F) {x : Use} (hx : A x = some f) :
    firstPoolFrame ≤ f :=
  h.le_of_inPool (h.inPool x f hx)

/-- A directory is the boot directory or a frame of the kernel pool. -/
theorem PageRep.dir_cases (h : PageRep m A F) (hd : m.Dir A d) :
    d = bootDir ∨ firstPoolFrame ≤ d := by
  obtain rfl | ⟨t,-,hd⟩ := hd
  · exact .inl rfl
  · exact .inr (h.le_of_use hd)

theorem Tables.selfMapped (h : Tables m A) (hd : m.dirOf A t = some d) : SelfMapped m.mem d :=
  h.spec _ _ _ (.self hd)

/-- The kernel half is the same under every directory. -/
theorem Tables.lookup_kernel (h : Tables m A) (hd : m.dirOf A t = some d)
    (h₁ : kernelHeapPage ≤ v) (h₂ : v < recursivePage) :
    lookup m.mem d v = A (.page none v) := by
  have hpte := h.spec _ _ _ (.kernelPte h₁ h₂)
  unfold kernelHeapPage at h₁
  unfold recursivePage at h₂
  unfold kernelTable at hpte
  rw [lookup,h.spec _ _ _ (.kernelPde hd (by omega) (by omega)),Option.bind_some]
  exact hpte

theorem Tables.lookup_low (h : Tables m A) (hd : m.dirOf A t = some d) {j : ℕ} (hj : j < 256) :
    lookup m.mem d (kernelHalf+j) = some j := by
  have hdiv : (kernelHalf+j)/1024 = 768 := by
    simp only [kernelHalf]
    omega
  have hmod : (kernelHalf+j) % 1024 = j := by
    simp only [kernelHalf]
    omega
  rw [lookup,hdiv,hmod,h.spec _ _ _ (.kernelPde hd (by omega) (by omega)),Option.bind_some]
  exact h.spec _ _ _ (.low hj)

theorem PageRep.lookup_user (h : PageRep m A F) (ht : m.IsProc t) (hd : m.dirOf A t = some d)
    (hv : v < kernelHalf) : lookup m.mem d v = A (.page (some t) v) := by
  simp only [kernelHalf] at hv
  rw [lookup,h.spec _ _ _ (.pde ht hd (by omega))]
  cases hf : A (.table t (v/1024)) with
  | none =>
    cases hp : A (.page (some t) v) with
    | none => rfl
    | some f =>
      have hs := (h.userPage t v f hp).2.2.2
      rw [hf] at hs
      contradiction
  | some f =>
    have hv' : 1024*(v/1024)+v % 1024 = v := Nat.div_add_mod v 1024
    rw [Option.bind_some,h.spec _ _ _ (.pte hf (Nat.mod_lt _ (by decide))),hv']

end Lookup
end OsKernel

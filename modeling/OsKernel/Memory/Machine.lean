import OsKernel.Debug
import OsKernel.Library.Exec
import OsKernel.Library.Paging
import OsKernel.Memory.Bitmap
import OsKernel.Thread.Scheduler

/-! The state of the memory manager, and the accesses to memory through the page tables of the
running thread. Page directories, page tables, arenas and user data are bytes of the physical
memory. The bitmaps and the fields of a PCB that the memory manager reads are kept as values. -/
namespace OsKernel
open ByteMemory

/-- An enum pool_flags, which also names one of kernel_pool and user_pool. -/
inductive PoolFlags
  | kernel | user
  deriving DecidableEq, Repr

structure VirtualAddr where
  vaddrBitmap : Bitmap
  vaddrStart : ℕ

/-- A struct lock without its semaphore. -/
structure PoolLock where
  holder : Option TaskId
  holderRepeatNr : ℕ
  deriving DecidableEq, Repr

structure Pool where
  poolBitmap : Bitmap
  phyAddrStart : ℕ
  poolSize : ℕ
  lock : PoolLock

/-- The fields of a PCB that the memory manager reads. A kernel thread has pgdir NULL. -/
structure TaskVm where
  pgdir : ℕ
  userprogVaddr : VirtualAddr

/-- The uses of shared bitmaps. -/
inductive EventKind
  | palloc | pfree | vaddrScan | vaddrSet
  deriving DecidableEq, Repr

/-- One use of the bitmap of a pool, or of kernel_vaddr in the case of the last two kinds, and
whether the running thread held the lock of the pool. -/
structure Event where
  kind : EventKind
  pool : PoolFlags
  held : Bool
  deriving DecidableEq, Repr

/-- The state. The translation cache and the list of events are not read by the code. -/
structure Machine where
  mem : ByteMemory
  /-- The physical address of the page directory. -/
  cr3 : ℕ
  /-- The running thread is the page of the stack pointer. -/
  runningThread : TaskId
  pool : PoolFlags → Pool
  kernelVaddr : VirtualAddr
  task : TaskId → TaskVm
  /-- The address of the array k_block_desc. -/
  kBlockDesc : ℕ
  /-- The cached translations of the processor, from pages to frames. -/
  tlb : ℕ → Option ℕ
  events : List Event

abbrev KernelM (α : Type) : Type := Exec Machine Panic α

def pageSize : ℕ := 4096

namespace Machine

def setPool (m : Machine) (pf : PoolFlags) (f : Pool → Pool) : Machine :=
  { m with pool := Function.update m.pool pf (f (m.pool pf)) }

def setBitmap (m : Machine) (pf : PoolFlags) (btmp : Bitmap) : Machine :=
  m.setPool pf fun p => { p with poolBitmap := btmp }

def setLock (m : Machine) (pf : PoolFlags) (lock : PoolLock) : Machine :=
  m.setPool pf fun p => { p with lock := lock }

def setKernelVaddr (m : Machine) (btmp : Bitmap) : Machine :=
  { m with kernelVaddr := { m.kernelVaddr with vaddrBitmap := btmp } }

/-- The running thread changes its own bitmap. -/
def setUserprogVaddr (m : Machine) (btmp : Bitmap) : Machine :=
  let p := m.task m.runningThread
  let p := { p with userprogVaddr := { p.userprogVaddr with vaddrBitmap := btmp } }
  { m with task := Function.update m.task m.runningThread p }

def setMem (m : Machine) (mem : ByteMemory) : Machine := { m with mem := mem }

/-- The running thread holds the lock of the pool. -/
def holds (m : Machine) (pf : PoolFlags) : Bool :=
  decide ((m.pool pf).lock.holder = some m.runningThread)

def note (m : Machine) (kind : EventKind) (pf : PoolFlags) : Machine :=
  { m with events := m.events++[⟨kind,pf,m.holds pf⟩] }

/-- The physical address of a virtual address, by the page tables. -/
def translate (m : Machine) (va : ℕ) : Option ℕ := Paging.walk m.mem (m.cr3/pageSize) va

end Machine

namespace KernelM
open Exec

/-- The macro ASSERT. -/
def kassert (condition : Prop) [Decidable condition] (func text : String) : KernelM Unit :=
  lift (OsKernel.assert condition func text)

def note (kind : EventKind) (pf : PoolFlags) : KernelM Unit := modify fun m => m.note kind pf

/-- An access by the processor: the physical address by the page tables as they are, or a page
fault. Translations that are still in the cache when the tables have changed are not used here. -/
def physical (va : ℕ) : KernelM ℕ := fun m =>
  match m.translate va with
  | some pa => (.ok pa,m)
  | none => (.error (.pageFault va),m)

/-- Words are accessed at multiples of four, so that they lie in one page. -/
def load (va : ℕ) : KernelM ℕ := do
  let pa ← physical va
  let m ← get
  return load32 m.mem pa

def store (va v : ℕ) : KernelM Unit := do
  let pa ← physical va
  modify fun m => m.setMem (store32 m.mem pa v)

def loadByte (va : ℕ) : KernelM (BitVec 8) := do
  let pa ← physical va
  let m ← get
  return m.mem pa

def storeByte (va : ℕ) (b : BitVec 8) : KernelM Unit := do
  let pa ← physical va
  modify fun m => m.setMem (store8 m.mem pa b)

/-- The loop of memset. -/
def memsetLoop (dst : ℕ) (value : BitVec 8) : ℕ → KernelM Unit
  | 0 => pure ()
  | size+1 => do
    storeByte dst value
    memsetLoop (dst+1) value size

def memset (dst : ℕ) (value : BitVec 8) (size : ℕ) : KernelM Unit := do
  kassert (dst ≠ 0) "memset" "dst_ != NULL"
  memsetLoop dst value size

/-- The loop of memcpy. -/
def memcpyLoop (dst src : ℕ) : ℕ → KernelM Unit
  | 0 => pure ()
  | size+1 => do
    let b ← loadByte src
    storeByte dst b
    memcpyLoop (dst+1) (src+1) size

def memcpy (dst src size : ℕ) : KernelM Unit := do
  kassert (dst ≠ 0 ∧ src ≠ 0) "memcpy" "dst_ != NULL && src_ != NULL"
  memcpyLoop dst src size

/-- A call of lock_acquire on the lock of a pool, which returns when the lock is free or held by
the caller. -/
def lockAcquire (pf : PoolFlags) : KernelM Unit := do
  let m ← get
  let plock := (m.pool pf).lock
  if plock.holder = some m.runningThread then
    modify fun m => m.setLock pf ⟨plock.holder,(plock.holderRepeatNr+1) % 2^32⟩
  else if plock.holder = none then do
    kassert (plock.holderRepeatNr = 0) "lock_acquire" "!plock->holder_repeat_nr"
    modify fun m => m.setLock pf ⟨some m.runningThread,1⟩
  else throw (.blocked "lock_acquire")

def lockRelease (pf : PoolFlags) : KernelM Unit := do
  let m ← get
  let plock := (m.pool pf).lock
  kassert (plock.holder = some m.runningThread) "lock_release" "plock->holder == running_thread()"
  if 1 < plock.holderRepeatNr then
    modify fun m => m.setLock pf ⟨plock.holder,plock.holderRepeatNr-1⟩
  else do
    kassert (plock.holderRepeatNr = 1) "lock_release" "plock->holder_repeat_nr == 1"
    modify fun m => m.setLock pf ⟨none,0⟩

end KernelM
end OsKernel

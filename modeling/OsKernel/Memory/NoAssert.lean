import OsKernel.Memory.PageHand

/-! The page allocator in a build in which ASSERT checks nothing, so that the returns of NULL behind
the assertions are reached. PANIC still stops. The sums of addresses are taken modulo 2^32. -/
namespace OsKernel.NoAssert
open Exec KernelM

/-- No object is at NULL, and a write through it is undefined. -/
def memset (dst : ℕ) (value : BitVec 8) (size : ℕ) : KernelM Unit :=
  if dst = 0 ∧ 0 < size then throw (.undefined "memset") else memsetLoop dst value size

def lockAcquire (pf : PoolFlags) : KernelM Unit := do
  let m ← get
  let plock := (m.pool pf).lock
  if plock.holder = some m.runningThread then
    modify fun m => m.setLock pf ⟨plock.holder,(plock.holderRepeatNr+1) % 2^32⟩
  else if plock.holder = none then modify fun m => m.setLock pf ⟨some m.runningThread,1⟩
  else throw (.blocked "lock_acquire")

def lockRelease (pf : PoolFlags) : KernelM Unit := do
  let m ← get
  let plock := (m.pool pf).lock
  if 1 < plock.holderRepeatNr then
    modify fun m => m.setLock pf ⟨plock.holder,plock.holderRepeatNr-1⟩
  else modify fun m => m.setLock pf ⟨none,0⟩

def vaddrGet (pf : PoolFlags) (pgCnt : ℕ) : KernelM ℕ :=
  match pf with
  | .kernel => do
    note .vaddrScan .kernel
    let m ← get
    match m.kernelVaddr.vaddrBitmap.bitmapScan pgCnt with
    | none => return 0
    | some bitsIdxStart => do
      note .vaddrSet .kernel
      modify fun m =>
        m.setKernelVaddr (m.kernelVaddr.vaddrBitmap.setRange bitsIdxStart true pgCnt)
      return (m.kernelVaddr.vaddrStart+bitsIdxStart*pageSize) % 2^32
  | .user => do
    let m ← get
    let vaddr := (m.task m.runningThread).userprogVaddr
    match vaddr.vaddrBitmap.bitmapScan pgCnt with
    | none => return 0
    | some bitsIdxStart => do
      modify fun m => m.setUserprogVaddr (vaddr.vaddrBitmap.setRange bitsIdxStart true pgCnt)
      return (vaddr.vaddrStart+bitsIdxStart*pageSize) % 2^32

def palloc (pf : PoolFlags) : KernelM ℕ := do
  note .palloc pf
  let m ← get
  let btmp := (m.pool pf).poolBitmap
  match btmp.bitmapScan 1 with
  | none => return 0
  | some idx => do
    modify fun m => m.setBitmap pf (btmp.bitmapSet idx true)
    return ((m.pool pf).phyAddrStart+idx*pageSize) % 2^32

/-- The branch of page_table_add that makes the page table, which enters what palloc returns also
when that is NULL. -/
def tableAdd (vaddr pagePhyaddr : ℕ) : KernelM Unit := do
  let pdePhyaddr ← palloc .kernel
  store (pdePtr vaddr) (tableEntry pdePhyaddr)
  memset (ptePtr vaddr/pageSize*pageSize) 0 pageSize
  store (ptePtr vaddr) (tableEntry pagePhyaddr)

/-- The branch with a page table has no assertion. -/
def pageTableAdd (vaddr pagePhyaddr : ℕ) : KernelM Unit := do
  let pde ← load (pdePtr vaddr)
  if pde % 2 = 1 then pteAdd vaddr pagePhyaddr else tableAdd vaddr pagePhyaddr

/-- The loop of malloc_page, which stops at the first page for which there is no frame. -/
def mapPages (pf : PoolFlags) (vaddr : ℕ) : ℕ → KernelM Bool
  | 0 => pure true
  | pgCnt+1 => do
    let pagePhyaddr ← palloc pf
    if pagePhyaddr = 0 then return false
    else do
      pageTableAdd vaddr pagePhyaddr
      mapPages pf ((vaddr+pageSize) % 2^32) pgCnt

def mallocPage (pf : PoolFlags) (pgCnt : ℕ) : KernelM ℕ := do
  let vaddrStart ← vaddrGet pf pgCnt
  if vaddrStart = 0 then return 0
  else do
    let mapped ← mapPages pf vaddrStart pgCnt
    return if mapped then vaddrStart else 0

def getKernelPages (pgCnt : ℕ) : KernelM ℕ := do
  lockAcquire .kernel
  let vaddr ← mallocPage .kernel pgCnt
  (if vaddr ≠ 0 then memset vaddr 0 (pgCnt*pageSize % 2^32) else pure ())
  lockRelease .kernel
  return vaddr

/-- The memset does not depend on what malloc_page returns. -/
def getUserPages (pgCnt : ℕ) : KernelM ℕ := do
  lockAcquire .user
  let vaddr ← mallocPage .user pgCnt
  memset vaddr 0 (pgCnt*pageSize % 2^32)
  lockRelease .user
  return vaddr

/-- The part of get_a_page that marks the page. -/
def markPage (pf : PoolFlags) (vaddr : ℕ) : KernelM Unit := do
  let m ← get
  let cur := m.task m.runningThread
  if cur.pgdir ≠ 0 ∧ pf = .user then
    modify fun m => m.setUserprogVaddr (cur.userprogVaddr.vaddrBitmap.bitmapSet
      (pageOffset vaddr cur.userprogVaddr.vaddrStart) true)
  else if cur.pgdir = 0 ∧ pf = .kernel then do
    note .vaddrSet .kernel
    modify fun m => m.setKernelVaddr (m.kernelVaddr.vaddrBitmap.bitmapSet
      (pageOffset vaddr m.kernelVaddr.vaddrStart) true)
  else throw (.panic "get_a_page"
    "get_a_page:not allow kernel alloc userspace or user alloc kernelspace by get_a_page")

def getAPage (pf : PoolFlags) (vaddr : ℕ) : KernelM ℕ := do
  lockAcquire pf
  markPage pf vaddr
  let pagePhyaddr ← palloc pf
  if pagePhyaddr = 0 then return 0
  else do
    pageTableAdd vaddr pagePhyaddr
    lockRelease pf
    return vaddr

inductive PageRequest
  | mallocPage (pf : PoolFlags) (pgCnt : ℕ)
  | getKernelPages (pgCnt : ℕ)
  | getUserPages (pgCnt : ℕ)
  | getAPage (pf : PoolFlags) (vaddr : ℕ)

def PageRequest.call : PageRequest → KernelM ℕ
  | .mallocPage pf pgCnt => NoAssert.mallocPage pf pgCnt
  | .getKernelPages pgCnt => NoAssert.getKernelPages pgCnt
  | .getUserPages pgCnt => NoAssert.getUserPages pgCnt
  | .getAPage pf vaddr => NoAssert.getAPage pf vaddr

/-- One of the pgCnt pages from vaddr on is the first that cannot be had: its own pool is empty,
or it has no page table and the kernel pool is empty. -/
inductive Exhausts (pf : PoolFlags) : (vaddr pgCnt : ℕ) → Machine → Prop
  | frame {vaddr pgCnt : ℕ} {m : Machine}
      (hscan : (m.pool pf).poolBitmap.bitmapScan 1 = none) : Exhausts pf vaddr (pgCnt+1) m
  | table {vaddr pgCnt pa pde : ℕ} {m m' : Machine} (hpage : palloc pf m = (.ok pa,m'))
      (hpa : pa ≠ 0) (hload : load (pdePtr vaddr) m' = (.ok pde,m')) (hpde : pde % 2 = 0)
      (hscan : (m'.pool .kernel).poolBitmap.bitmapScan 1 = none) :
      Exhausts pf vaddr (pgCnt+1) m
  | later {vaddr pgCnt pa : ℕ} {m m₁ m₂ : Machine} (hpage : palloc pf m = (.ok pa,m₁))
      (hpa : pa ≠ 0) (hadd : pageTableAdd vaddr pa m₁ = (.ok (),m₂))
      (hnext : Exhausts pf ((vaddr+pageSize) % 2^32) pgCnt m₂) : Exhausts pf vaddr (pgCnt+1) m

/-- How many times the running thread has acquired the lock of the pool. -/
def heldCount (m : Machine) (pf : PoolFlags) : ℕ :=
  if (m.pool pf).lock.holder = some m.runningThread then (m.pool pf).lock.holderRepeatNr else 0

/-- The bitmaps, the page tables under every directory and the locks are as before. -/
structure Unchanged (m m' : Machine) : Prop where
  poolBitmap : ∀ pf, (m'.pool pf).poolBitmap = (m.pool pf).poolBitmap
  kernelVaddr : m'.kernelVaddr.vaddrBitmap = m.kernelVaddr.vaddrBitmap
  userprogVaddr : ∀ t,
    (m'.task t).userprogVaddr.vaddrBitmap = (m.task t).userprogVaddr.vaddrBitmap
  tables : ∀ dir vpn, Paging.lookup m'.mem dir vpn = Paging.lookup m.mem dir vpn
  heldCount : ∀ pf, heldCount m' pf = heldCount m pf

end OsKernel.NoAssert

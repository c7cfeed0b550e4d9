import OsKernel.Memory.Machine

/-! The page allocator. Masks and shifts of addresses are written as divisions by powers of two,
and NULL is the address 0. -/
namespace OsKernel
open Exec KernelM

def pdeIdx (addr : ℕ) : ℕ := addr/2^22
def pteIdx (addr : ℕ) : ℕ := addr/2^12 % 2^10

def ptePtr (vaddr : ℕ) : ℕ := 0xffc00000+pdeIdx vaddr*2^12+pteIdx vaddr*4
def pdePtr (vaddr : ℕ) : ℕ := 0xfffff000+pdeIdx vaddr*4

def pgP1 : ℕ := 1
def pgRwW : ℕ := 2
def pgUsU : ℕ := 4

/-- The table entry for a frame. -/
def tableEntry (phyaddr : ℕ) : ℕ := phyaddr ||| pgUsU ||| pgRwW ||| pgP1

def kHeapStart : ℕ := 0xc0100000
def userVaddrStart : ℕ := 0x8048000

/-- The difference of two addresses as the code computes it, in pages. -/
def pageOffset (addr start : ℕ) : ℕ := (addr+2^32-start) % 2^32/pageSize

/-- Finds pg_cnt free virtual pages in a row. -/
def vaddrGet (pf : PoolFlags) (pgCnt : ℕ) : KernelM ℕ :=
  match pf with
  | .kernel => do
    note .vaddrScan .kernel
    let m ← get
    match m.kernelVaddr.vaddrBitmap.bitmapScan pgCnt with
    | none => throw (.assert "vaddr_get" "bits_idx_start!=-1")
    | some bitsIdxStart => do
      note .vaddrSet .kernel
      modify fun m =>
        m.setKernelVaddr (m.kernelVaddr.vaddrBitmap.setRange bitsIdxStart true pgCnt)
      return m.kernelVaddr.vaddrStart+bitsIdxStart*pageSize
  | .user => do
    let m ← get
    let vaddr := (m.task m.runningThread).userprogVaddr
    match vaddr.vaddrBitmap.bitmapScan pgCnt with
    | none => return 0
    | some bitsIdxStart => do
      modify fun m => m.setUserprogVaddr (vaddr.vaddrBitmap.setRange bitsIdxStart true pgCnt)
      let vaddrStart := vaddr.vaddrStart+bitsIdxStart*pageSize
      kassert (vaddrStart < 0xc0000000-pageSize) "vaddr_get"
        "(uint32_t)vaddr_start<(0xc0000000-PG_SIZE)"
      return vaddrStart

/-- Takes one frame from a pool. -/
def palloc (pf : PoolFlags) : KernelM ℕ := do
  note .palloc pf
  let m ← get
  let btmp := (m.pool pf).poolBitmap
  match btmp.bitmapScan 1 with
  | none => throw (.assert "palloc" "idx!=-1")
  | some idx => do
    modify fun m => m.setBitmap pf (btmp.bitmapSet idx true)
    return (m.pool pf).phyAddrStart+idx*pageSize

/-- The branch of page_table_add in which the page table exists. -/
def pteAdd (vaddr pagePhyaddr : ℕ) : KernelM Unit := do
  let pte ← load (ptePtr vaddr)
  if pte % 2 = 0 then store (ptePtr vaddr) (tableEntry pagePhyaddr)
  else throw (.panic "page_table_add" "PTE REPEAT")

/-- The branch of page_table_add that makes the page table, after its frame has been taken. -/
def tableEnter (vaddr pagePhyaddr pdePhyaddr : ℕ) : KernelM Unit := do
  store (pdePtr vaddr) (tableEntry pdePhyaddr)
  let addr := ptePtr vaddr/pageSize*pageSize
  kassert (addr ≠ 0) "page_table_add" "addr!=NULL"
  memset addr 0 pageSize
  let pte ← load (ptePtr vaddr)
  kassert (pte % 2 = 0) "page_table_add" "!(*pte&0x00000001)"
  store (ptePtr vaddr) (tableEntry pagePhyaddr)

def tableAdd (vaddr pagePhyaddr : ℕ) : KernelM Unit := do
  let pdePhyaddr ← palloc .kernel
  tableEnter vaddr pagePhyaddr pdePhyaddr

def pageTableAdd (vaddr pagePhyaddr : ℕ) : KernelM Unit := do
  let pde ← load (pdePtr vaddr)
  if pde % 2 = 1 then pteAdd vaddr pagePhyaddr else tableAdd vaddr pagePhyaddr

/-- The loop of malloc_page. -/
def mapPages (pf : PoolFlags) (vaddr : ℕ) : ℕ → KernelM Unit
  | 0 => pure ()
  | pgCnt+1 => do
    let pagePhyaddr ← palloc pf
    kassert (pagePhyaddr ≠ 0) "malloc_page" "page_phyaddr!=NULL"
    pageTableAdd vaddr pagePhyaddr
    mapPages pf (vaddr+pageSize) pgCnt

def mallocPage (pf : PoolFlags) (pgCnt : ℕ) : KernelM ℕ := do
  kassert (0 < pgCnt ∧ pgCnt < 3840) "malloc_page" "pg_cnt>0&&pg_cnt<3840"
  let vaddrStart ← vaddrGet pf pgCnt
  kassert (vaddrStart ≠ 0) "malloc_page" "vaddr_start!=NULL"
  mapPages pf vaddrStart pgCnt
  return vaddrStart

/-- The common body of get_kernel_pages and get_user_pages, which differ in the pool. -/
def getPages (pf : PoolFlags) (func : String) (pgCnt : ℕ) : KernelM ℕ := do
  lockAcquire pf
  let vaddr ← mallocPage pf pgCnt
  kassert (vaddr ≠ 0) func "vaddr!=NULL"
  memset vaddr 0 (pgCnt*pageSize)
  lockRelease pf
  return vaddr

def getKernelPages (pgCnt : ℕ) : KernelM ℕ := getPages .kernel "get_kernel_pages" pgCnt
def getUserPages (pgCnt : ℕ) : KernelM ℕ := getPages .user "get_user_pages" pgCnt

/-- The part of get_a_page that marks the page in the bitmap of the running thread. -/
def markPage (pf : PoolFlags) (vaddr : ℕ) : KernelM Unit := do
  let m ← get
  let cur := m.task m.runningThread
  if cur.pgdir ≠ 0 ∧ pf = .user then do
    let bitIdx := pageOffset vaddr cur.userprogVaddr.vaddrStart
    kassert (0 < bitIdx) "get_a_page" "bit_idx > 0"
    modify fun m => m.setUserprogVaddr (cur.userprogVaddr.vaddrBitmap.bitmapSet bitIdx true)
  else if cur.pgdir = 0 ∧ pf = .kernel then do
    let bitIdx := pageOffset vaddr m.kernelVaddr.vaddrStart
    kassert (0 < bitIdx) "get_a_page" "bit_idx > 0"
    note .vaddrSet .kernel
    modify fun m => m.setKernelVaddr (m.kernelVaddr.vaddrBitmap.bitmapSet bitIdx true)
  else throw (.panic "get_a_page"
    "get_a_page:not allow kernel alloc userspace or user alloc kernelspace by get_a_page")

def getAPage (pf : PoolFlags) (vaddr : ℕ) : KernelM ℕ := do
  lockAcquire pf
  markPage pf vaddr
  let pagePhyaddr ← palloc pf
  if pagePhyaddr = 0 then return 0
  else do
    pageTableAdd vaddr pagePhyaddr
    lockRelease pf
    return vaddr

def addrV2p (vaddr : ℕ) : KernelM ℕ := do
  let pte ← load (ptePtr vaddr)
  return pte/pageSize*pageSize+vaddr % pageSize

/-- Gives a frame back to the pool that its address belongs to. -/
def pfree (pgPhyAddr : ℕ) : KernelM Unit := do
  let m ← get
  let pf := if (m.pool .user).phyAddrStart ≤ pgPhyAddr then PoolFlags.user else .kernel
  note .pfree pf
  let bitIdx := pageOffset pgPhyAddr (m.pool pf).phyAddrStart
  modify fun m => m.setBitmap pf ((m.pool pf).poolBitmap.bitmapSet bitIdx false)

/-- The memory operand of invlpg is the variable vaddr, which lies on the stack of the running
thread, in the page of its PCB. -/
def invlpgOperand (m : Machine) : ℕ := m.runningThread

def invlpg (va : ℕ) : KernelM Unit :=
  modify fun m => { m with tlb := Function.update m.tlb (va/pageSize) none }

def pageTablePteRemove (vaddr : ℕ) : KernelM Unit := do
  let pte ← load (ptePtr vaddr)
  store (ptePtr vaddr) (pte-pte % 2)
  let m ← get
  invlpg (invlpgOperand m)

def vaddrRemove (pf : PoolFlags) (vaddr pgCnt : ℕ) : KernelM Unit :=
  match pf with
  | .kernel => do
    note .vaddrSet .kernel
    modify fun m => m.setKernelVaddr (m.kernelVaddr.vaddrBitmap.setRange
      (pageOffset vaddr m.kernelVaddr.vaddrStart) false pgCnt)
  | .user => modify fun m =>
      let cur := (m.task m.runningThread).userprogVaddr
      m.setUserprogVaddr (cur.vaddrBitmap.setRange (pageOffset vaddr cur.vaddrStart) false pgCnt)

/-- One round of the loop of mfree_page. -/
def unmapPage (vaddr : ℕ) : KernelM Unit := do
  let pgPhyAddr ← addrV2p vaddr
  pfree pgPhyAddr
  pageTablePteRemove vaddr

/-- The loop of mfree_page. -/
def unmapPages (vaddr : ℕ) : ℕ → KernelM Unit
  | 0 => pure ()
  | pgCnt+1 => do
    unmapPage vaddr
    unmapPages (vaddr+pageSize) pgCnt

/-- The assertions of mfree_page. -/
def mfreeAsserts (vaddr pgCnt : ℕ) : KernelM Unit := do
  kassert (0 < pgCnt ∧ vaddr % pageSize = 0) "mfree_page" "pg_cnt > 0 && vaddr % PG_SIZE == 0"
  let pgPhyAddr ← addrV2p vaddr
  kassert (pgPhyAddr % pageSize = 0 ∧ 0x102000 ≤ pgPhyAddr) "mfree_page"
    "pg_phy_addr % PG_SIZE == 0 && pg_phy_addr >= 0x102000"

def mfreePage (pf : PoolFlags) (vaddr pgCnt : ℕ) : KernelM Unit := do
  mfreeAsserts vaddr pgCnt
  unmapPages vaddr pgCnt
  vaddrRemove pf vaddr pgCnt

/-- The fields that mem_pool_init sets, from the size of the memory and the addresses that the
three bitmaps get. -/
def memPoolInit (allMem : ℕ) : KernelM Unit := do
  let pageTableSize := pageSize*256
  let usedMem := pageTableSize+0x100000
  let freeMem := (allMem+2^32-usedMem) % 2^32
  let allFreePages := freeMem/pageSize % 2^16
  let kernelFreePages := allFreePages/2
  let userFreePages := allFreePages-kernelFreePages
  let kernelBitmapLength := kernelFreePages/8
  let userBitmapLength := userFreePages/8
  modify fun m => { m with
    pool := fun
      | .kernel => ⟨⟨kernelBitmapLength,fun _ => 0⟩,usedMem,kernelFreePages*pageSize,⟨none,0⟩⟩
      | .user => ⟨⟨userBitmapLength,fun _ => 0⟩,usedMem+kernelFreePages*pageSize,
          userFreePages*pageSize,⟨none,0⟩⟩
    kernelVaddr := ⟨⟨kernelBitmapLength,fun _ => 0⟩,kHeapStart⟩ }

/-- The address that page_dir_activate loads into cr3. -/
def pagedirPhyAddr (pgdir : ℕ) : KernelM ℕ :=
  if pgdir ≠ 0 then addrV2p pgdir else pure 0x100000

def pageDirActivate (pThread : TaskId) : KernelM Unit := do
  let m ← get
  let pagedirPhyAddr ← pagedirPhyAddr (m.task pThread).pgdir
  modify fun m => { m with cr3 := pagedirPhyAddr, tlb := fun _ => none }

/-- The processor goes over to another thread. -/
def switchTask (next : TaskId) : KernelM Unit := do
  pageDirActivate next
  modify fun m => { m with runningThread := next }

def createPageDir : KernelM ℕ := do
  let pageDirVaddr ← getKernelPages 1
  memcpy (pageDirVaddr+0x300*4) (0xfffff000+0x300*4) 1024
  let newPageDirPhyAddr ← addrV2p pageDirVaddr
  store (pageDirVaddr+4*1023) (tableEntry newPageDirPhyAddr)
  return pageDirVaddr

end OsKernel

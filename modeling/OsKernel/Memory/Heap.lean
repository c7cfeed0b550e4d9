import OsKernel.Memory.Page

/-! The heap: sys_malloc and sys_free, and the lists that they thread through the free blocks.
Descriptors, arena headers and list nodes are words of memory, read and written through the
page tables. Pointer arithmetic wraps around at 2^32. -/
namespace OsKernel
open Exec KernelM

/-- The address k bytes behind a pointer. -/
def field (p k : ℕ) : ℕ := (p+k) % 2^32

namespace KernelM

/-- A word at any address. One that crosses a page boundary is read byte by byte. -/
def loadWord (va : ℕ) : KernelM ℕ :=
  if va % pageSize ≤ 4092 then load va
  else do
    let b₀ ← loadByte va
    let b₁ ← loadByte (field va 1)
    let b₂ ← loadByte (field va 2)
    let b₃ ← loadByte (field va 3)
    return b₀.toNat+2^8*b₁.toNat+2^16*b₂.toNat+2^24*b₃.toNat

/-- A word that crosses a page boundary is written only when both pages are mapped. -/
def storeWord (va v : ℕ) : KernelM Unit :=
  if va % pageSize ≤ 4092 then store va v
  else do
    let _ ← physical va
    let _ ← physical (field va 3)
    storeByte va (BitVec.ofNat 8 v)
    storeByte (field va 1) (BitVec.ofNat 8 (v/2^8))
    storeByte (field va 2) (BitVec.ofNat 8 (v/2^16))
    storeByte (field va 3) (BitVec.ofNat 8 (v/2^24))

end KernelM

/-! A struct list_elem has its prev at 0 and its next at 4, and a struct list has its head at 0
and its tail at 8. -/

def prevField (elem : ℕ) : ℕ := elem
def nextField (elem : ℕ) : ℕ := field elem 4
def tailElem (plist : ℕ) : ℕ := field plist 8

def listInit (plist : ℕ) : KernelM Unit := do
  storeWord (prevField plist) 0
  storeWord (nextField plist) (tailElem plist)
  storeWord (prevField (tailElem plist)) plist
  storeWord (nextField (tailElem plist)) 0

def listInsertBefore (before elem : ℕ) : KernelM Unit := do
  let prev ← loadWord (prevField before)
  storeWord (nextField prev) elem
  storeWord (nextField elem) before
  let prev ← loadWord (prevField before)
  storeWord (prevField elem) prev
  storeWord (prevField before) elem

def listAppend (plist elem : ℕ) : KernelM Unit := listInsertBefore (tailElem plist) elem

def listRemove (pelem : ℕ) : KernelM Unit := do
  let next ← loadWord (nextField pelem)
  let prev ← loadWord (prevField pelem)
  storeWord (nextField prev) next
  let prev ← loadWord (prevField pelem)
  let next ← loadWord (nextField pelem)
  storeWord (prevField next) prev

def listPop (plist : ℕ) : KernelM ℕ := do
  let next ← loadWord (nextField plist)
  kassert (next ≠ tailElem plist) "list_pop" "plist->head.next != &plist->tail"
  let ret ← loadWord (nextField plist)
  let next ← loadWord (nextField plist)
  listRemove next
  return ret

def listEmpty (plist : ℕ) : KernelM Bool := do
  let next ← loadWord (nextField plist)
  return decide (next = tailElem plist)

/-- The loop of elem_find. A list without a cycle has fewer nodes than there are addresses. -/
def elemFindLoop (plist objElem : ℕ) : ℕ → ℕ → KernelM Bool
  | 0, _ => throw (.undefined "elem_find")
  | fuel+1, ptr =>
    if ptr = tailElem plist then return false
    else if ptr = objElem then return true
    else do
      let next ← loadWord (nextField ptr)
      elemFindLoop plist objElem fuel next

def elemFind (plist objElem : ℕ) : KernelM Bool := do
  let ptr ← loadWord (nextField plist)
  elemFindLoop plist objElem (2^32) ptr

/-! A struct mem_block_desc has 24 bytes: block_size at 0, blocks_per_arena at 4 and free_list at
8. A struct arena has 12 bytes: desc at 0, cnt at 4 and large at 8. -/

def descCnt : ℕ := 7
def blockSizeField (desc : ℕ) : ℕ := desc
def blocksPerArenaField (desc : ℕ) : ℕ := field desc 4
def freeListField (desc : ℕ) : ℕ := field desc 8
def descAt (descs descIdx : ℕ) : ℕ := field descs (24*descIdx)

def arenaSize : ℕ := 12
def descField (a : ℕ) : ℕ := a
def cntField (a : ℕ) : ℕ := field a 4
def largeField (a : ℕ) : ℕ := field a 8

/-- The address of u_block_desc in a PCB. -/
def uBlockDesc (thread : TaskId) : ℕ := field thread 68

def divRoundUp (x step : ℕ) : ℕ := (x+step-1)/step

/-- The loop of block_desc_init, with the number of rounds that are left. -/
def blockDescInitLoop (descArray : ℕ) : ℕ → ℕ → ℕ → KernelM Unit
  | 0, _, _ => pure ()
  | left+1, descIdx, blockSize => do
    storeWord (blockSizeField (descAt descArray descIdx)) blockSize
    storeWord (blocksPerArenaField (descAt descArray descIdx)) ((pageSize-arenaSize)/blockSize)
    listInit (freeListField (descAt descArray descIdx))
    blockDescInitLoop descArray left (descIdx+1) (blockSize*2 % 2^16)

def blockDescInit (descArray : ℕ) : KernelM Unit := blockDescInitLoop descArray descCnt 0 16

def arena2block (a idx : ℕ) : KernelM ℕ := do
  let desc ← loadWord (descField a)
  let blockSize ← loadWord (blockSizeField desc)
  return field a (arenaSize+idx*blockSize)

def block2arena (b : ℕ) : ℕ := b/pageSize*pageSize

/-- The branch of sys_malloc for more than 1024 bytes. -/
def mallocLarge (pf : PoolFlags) (size : ℕ) : KernelM ℕ := do
  let pgCnt := divRoundUp (size+arenaSize) pageSize
  let a ← mallocPage pf pgCnt
  if a ≠ 0 then do
    memset a 0 (pgCnt*pageSize)
    storeWord (descField a) 0
    storeWord (cntField a) pgCnt
    storeWord (largeField a) 1
    lockRelease pf
    return field a arenaSize
  else do
    lockRelease pf
    return 0

/-- The search for the descriptor, with the number of rounds that are left. -/
def findDesc (descs size : ℕ) : ℕ → ℕ → KernelM ℕ
  | 0, descIdx => pure descIdx
  | left+1, descIdx => do
    let blockSize ← loadWord (blockSizeField (descAt descs descIdx))
    if size ≤ blockSize then return descIdx else findDesc descs size left (descIdx+1)

/-- The loop that puts the blocks of a new arena on the free list. It reads the bound again in
every round. -/
def makeBlocks (desc a : ℕ) : ℕ → ℕ → KernelM Unit
  | 0, _ => throw (.undefined "sys_malloc")
  | fuel+1, blockIdx => do
    let blocksPerArena ← loadWord (blocksPerArenaField desc)
    if blockIdx < blocksPerArena then do
      let b ← arena2block a blockIdx
      let desc' ← loadWord (descField a)
      let found ← elemFind (freeListField desc') b
      kassert (¬ found) "sys_malloc" "!elem_find(&a->desc->free_list, &b->free_elem)"
      let desc' ← loadWord (descField a)
      listAppend (freeListField desc') b
      makeBlocks desc a fuel (blockIdx+1)
    else return ()

/-- A page becomes an arena. -/
def makeArena (desc a : ℕ) : KernelM Unit := do
  memset a 0 pageSize
  storeWord (descField a) desc
  storeWord (largeField a) 0
  let blocksPerArena ← loadWord (blocksPerArenaField desc)
  storeWord (cntField a) blocksPerArena
  makeBlocks desc a (2^32) 0

/-- The first block of the free list is handed out. -/
def takeBlock (pf : PoolFlags) (desc : ℕ) : KernelM ℕ := do
  let b ← listPop (freeListField desc)
  let blockSize ← loadWord (blockSizeField desc)
  memset b 0 blockSize
  let a := block2arena b
  let cnt ← loadWord (cntField a)
  storeWord (cntField a) ((cnt+2^32-1) % 2^32)
  lockRelease pf
  return b

/-- An empty free list gets the blocks of a new arena. -/
def mallocArena (pf : PoolFlags) (desc : ℕ) : KernelM ℕ := do
  let a ← mallocPage pf 1
  if a = 0 then do
    lockRelease pf
    return 0
  else do
    makeArena desc a
    takeBlock pf desc

/-- The branch of sys_malloc for at most 1024 bytes. -/
def mallocSmall (pf : PoolFlags) (descs size : ℕ) : KernelM ℕ := do
  let descIdx ← findDesc descs size descCnt 0
  let desc := descAt descs descIdx
  let empty ← listEmpty (freeListField desc)
  if empty then mallocArena pf desc else takeBlock pf desc

/-- The pool that the running thread allocates from. -/
def Machine.ownPool (m : Machine) : PoolFlags :=
  if (m.task m.runningThread).pgdir = 0 then .kernel else .user

/-- The descriptors of the running thread. -/
def Machine.descs (m : Machine) : ℕ :=
  if (m.task m.runningThread).pgdir = 0 then m.kBlockDesc else uBlockDesc m.runningThread

def sysMalloc (size : ℕ) : KernelM ℕ := do
  let m ← get
  let pf := m.ownPool
  if (m.pool pf).poolSize < size then return 0
  else do
    lockAcquire pf
    if 1024 < size then mallocLarge pf size else mallocSmall pf m.descs size

/-- The loop that takes the blocks of an arena off the free list. It reads the bound again in
every round. -/
def removeBlocks (a : ℕ) : ℕ → ℕ → KernelM Unit
  | 0, _ => throw (.undefined "sys_free")
  | fuel+1, blockIdx => do
    let desc ← loadWord (descField a)
    let blocksPerArena ← loadWord (blocksPerArenaField desc)
    if blockIdx < blocksPerArena then do
      let b ← arena2block a blockIdx
      let desc ← loadWord (descField a)
      let found ← elemFind (freeListField desc) b
      kassert (found) "sys_free" "elem_find(&a->desc->free_list, &b->free_elem)"
      listRemove b
      removeBlocks a fuel (blockIdx+1)
    else return ()

/-- A block goes back to the free list, and an arena without a block in use is given back. -/
def freeBlock (pf : PoolFlags) (a b : ℕ) : KernelM Unit := do
  let desc ← loadWord (descField a)
  listAppend (freeListField desc) b
  let cnt ← loadWord (cntField a)
  storeWord (cntField a) ((cnt+1) % 2^32)
  let cnt ← loadWord (cntField a)
  let desc ← loadWord (descField a)
  let blocksPerArena ← loadWord (blocksPerArenaField desc)
  if cnt = blocksPerArena then do
    removeBlocks a (2^32) 0
    mfreePage pf a 1
  else return ()

/-- The condition a->desc == NULL && a->large == true. -/
def isLarge (a : ℕ) : KernelM Bool := do
  let desc ← loadWord (descField a)
  if desc = 0 then do
    let large ← loadWord (largeField a)
    return decide (large = 1)
  else return false

/-- What sys_free does under the lock. -/
def freeLocked (pf : PoolFlags) (ptr : ℕ) : KernelM Unit := do
  let a := block2arena ptr
  let large ← isLarge a
  if large then do
    let cnt ← loadWord (cntField a)
    mfreePage pf a cnt
  else freeBlock pf a ptr

def sysFree (ptr : ℕ) : KernelM Unit := do
  kassert (ptr ≠ 0) "sys_free" "ptr != NULL"
  let m ← get
  let pf := m.ownPool
  kassert (pf = .kernel → kHeapStart < ptr) "sys_free" "(uint32_t) ptr > K_HEAP_START"
  lockAcquire pf
  freeLocked pf ptr
  lockRelease pf

end OsKernel

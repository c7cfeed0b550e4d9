import OsKernel.Memory.Heap

/-! The parts of thread_start and process_execute that use memory, and the state that the loader
and mem_init leave. -/
namespace OsKernel
open Exec KernelM ByteMemory

def Machine.setTask (m : Machine) (thread : TaskId) (task : TaskVm) : Machine :=
  { m with task := Function.update m.task thread task }

/-- The size of a PCB without the stack. -/
def taskStructSize : ℕ := 240

/-- The memset of init_thread. The fields of the memory manager get the value zero. -/
def initThread (pthread : TaskId) : KernelM Unit := do
  memset pthread 0 taskStructSize
  modify fun m => m.setTask pthread ⟨0,⟨⟨0,fun _ => 0⟩,0⟩⟩

def userBitmapLen : ℕ := (0xc0000000-userVaddrStart)/pageSize/8

/-- The bits of the new bitmap are kept as a value. The pages for them are taken all the same. -/
def createUserVaddrBitmap (userProg : TaskId) : KernelM Unit := do
  let _bits ← getKernelPages (divRoundUp userBitmapLen pageSize)
  modify fun m => m.setTask userProg
    { m.task userProg with userprogVaddr := ⟨⟨userBitmapLen,fun _ => 0⟩,userVaddrStart⟩ }

/-- The memory part of thread_start, without allocate_pid, thread_create and the lists. The new
thread is the page of its PCB. -/
def threadStart : KernelM TaskId := do
  let thread ← getKernelPages 1
  initThread thread
  return thread

/-- The memory part of process_execute, without allocate_pid, thread_create and the lists. -/
def processExecute : KernelM TaskId := do
  let thread ← getKernelPages 1
  initThread thread
  createUserVaddrBitmap thread
  let pgdir ← createPageDir
  modify fun m => m.setTask thread { m.task thread with pgdir := pgdir }
  blockDescInit (uBlockDesc thread)
  return thread

/-! The page directory and the page tables that setup_page builds. -/

def pageDirTablePos : ℕ := 0x100000

/-- The loop .create_pte. -/
def createPte (mem : ByteMemory) : ℕ → ByteMemory
  | 0 => mem
  | i+1 => store32 (createPte mem i) (pageDirTablePos+0x1000+4*i) (tableEntry (4096*i))

/-- The loop .create_kernel_pde. -/
def createKernelPde (mem : ByteMemory) : ℕ → ByteMemory
  | 0 => mem
  | i+1 => store32 (createKernelPde mem i) (pageDirTablePos+4*(769+i))
      (tableEntry (pageDirTablePos+0x2000+0x1000*i))

def setupPage (mem : ByteMemory) : ByteMemory :=
  let mem := fill mem pageDirTablePos 4096 0
  let mem := store32 mem pageDirTablePos (tableEntry (pageDirTablePos+0x1000))
  let mem := store32 mem (pageDirTablePos+0xc00) (tableEntry (pageDirTablePos+0x1000))
  let mem := store32 mem (pageDirTablePos+4092) (tableEntry pageDirTablePos)
  createKernelPde (createPte mem 256) 254

/-- The PCB of the main thread. -/
def mainThread : TaskId := 0xc009e000

/-- The kernel when mem_pool_init is called: paging is on, and the main thread runs. The tables
that setup_page leaves unwritten are those of the memory before. -/
def bootMachine (mem : ByteMemory) (kBlockDesc : ℕ) : Machine where
  mem := setupPage mem
  cr3 := pageDirTablePos
  runningThread := mainThread
  pool := fun _ => ⟨⟨0,fun _ => 0⟩,0,0,⟨none,0⟩⟩
  kernelVaddr := ⟨⟨0,fun _ => 0⟩,0⟩
  task := fun _ => ⟨0,⟨⟨0,fun _ => 0⟩,0⟩⟩
  kBlockDesc := kBlockDesc
  tlb := fun _ => none
  events := []

end OsKernel

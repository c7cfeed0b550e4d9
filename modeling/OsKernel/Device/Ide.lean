import OsKernel.Debug

/-! The disk driver. A call of ide_read or ide_write goes through a fixed list of operations on its
channel, as long as each of them returns: which ones follows from the arguments alone. -/
namespace OsKernel

/-- The part of a channel that ide_init sets once and for all. -/
structure IdeChannel where
  portBase : BitVec 16
  irqNo : BitVec 8
  deriving DecidableEq

structure Disk where
  name : String
  myChannel : IdeChannel
  devNo : BitVec 8
  deriving DecidableEq

namespace IdeChannel
variable (channel : IdeChannel)

def regData : BitVec 16 := channel.portBase+0
def regSectCnt : BitVec 16 := channel.portBase+2
def regLbaL : BitVec 16 := channel.portBase+3
def regLbaM : BitVec 16 := channel.portBase+4
def regLbaH : BitVec 16 := channel.portBase+5
def regDev : BitVec 16 := channel.portBase+6
def regStatus : BitVec 16 := channel.portBase+7
def regCmd : BitVec 16 := channel.regStatus

end IdeChannel

def bitDevMbs : BitVec 8 := 0xa0
def bitDevLba : BitVec 8 := 0x40
def bitDevDev : BitVec 8 := 0x10
def cmdReadSector : BitVec 8 := 0x20
def cmdWriteSector : BitVec 8 := 0x30

/-- The last sector of a disk of 80 MB. -/
def maxLba : BitVec 32 := BitVec.ofNat 32 (80*1024*1024/512-1)

/-- One operation of a call. -/
inductive IdeOp
  /-- ASSERT, with the value of its condition and what happens if it is false -/
  | check (condition : Bool) (e : Panic)
  | lockAcquire
  | lockRelease
  | outb (port : BitVec 16) (data : BitVec 8)
  /-- channel->expecting_intr = true -/
  | expectIntr
  /-- sema_down(&channel->disk_done) -/
  | semaDown
  /-- if(!busy_wait(hd)) PANIC(error) -/
  | busyWait (e : Panic)
  | insw (port : BitVec 16) (addr wordCnt : BitVec 32)
  | outsw (port : BitVec 16) (addr wordCnt : BitVec 32)
  deriving DecidableEq

/-- The first command is preceded by a choice of the disk, which every command makes again. -/
def selectDisk (hd : Disk) : List IdeOp :=
  let regDevice := bitDevMbs ||| bitDevLba
  let regDevice := if hd.devNo = 1 then regDevice ||| bitDevDev else regDevice
  [.outb hd.myChannel.regDev regDevice]

def selectSector (hd : Disk) (lba : BitVec 32) (decCnt : BitVec 8) : List IdeOp :=
  let channel := hd.myChannel
  [.check (decide (lba ≤ maxLba)) (.assert "select_sector" "lba <= max_lba"),
    .outb channel.regSectCnt decCnt,
    .outb channel.regLbaL (lba.setWidth 8),
    .outb channel.regLbaM ((lba >>> 8).setWidth 8),
    .outb channel.regLbaH ((lba >>> 16).setWidth 8),
    .outb channel.regDev (bitDevMbs ||| bitDevLba ||| (if hd.devNo = 1 then bitDevDev else 0) |||
      (lba >>> 24).setWidth 8)]

def cmdOut (channel : IdeChannel) (cmd : BitVec 8) : List IdeOp :=
  [.expectIntr,.outb channel.regCmd cmd]

/-- The length of a transfer. A count of 0 stands for 256 sectors. -/
def sizeInBytes (secCnt : BitVec 8) : BitVec 32 :=
  if secCnt = 0 then 256*512 else secCnt.setWidth 32*512

/-- The call of insw has two of its three arguments: the number of words stands where insw takes the
address, the buffer is not passed on, and nothing is passed for the number of words. What insw finds
there is a parameter. -/
def readFromSector (missing : BitVec 32) (hd : Disk) (_buf : BitVec 32) (secCnt : BitVec 8) :
    List IdeOp :=
  [.insw hd.myChannel.regData (sizeInBytes secCnt/2) missing]

def write2sector (hd : Disk) (buf : BitVec 32) (secCnt : BitVec 8) : List IdeOp :=
  [.outsw hd.myChannel.regData buf (sizeInBytes secCnt/2)]

/-- The message of a failed transfer, in which lba is printed as an int. -/
def ideError (hd : Disk) (what tail : String) (lba : BitVec 32) : String :=
  hd.name ++ what ++ toString lba.toInt ++ tail

/-- One round of the while loop in ide_read. The missing argument may differ between rounds. -/
def readRound (missing : BitVec 32 → BitVec 32) (hd : Disk) (lba buf secsDone secsOp : BitVec 32) :
    List IdeOp :=
  selectSector hd (lba+secsDone) (secsOp.setWidth 8) ++
    cmdOut hd.myChannel cmdReadSector ++
    [.semaDown] ++
    [.busyWait (.panic "ide_read" (ideError hd " read sector " " failed!!!!\n" lba))] ++
    readFromSector (missing secsDone) hd (buf+secsDone*512) (secsOp.setWidth 8)

/-- One round of the while loop in ide_write. -/
def writeRound (hd : Disk) (lba buf secsDone secsOp : BitVec 32) : List IdeOp :=
  selectSector hd (lba+secsDone) (secsOp.setWidth 8) ++
    cmdOut hd.myChannel cmdWriteSector ++
    [.busyWait (.panic "ide_write" (ideError hd " write sector " " failed!!!!!!\n" lba))] ++
    write2sector hd (buf+secsDone*512) (secsOp.setWidth 8) ++
    [.semaDown]

/-- A round with the variables of the loop at its beginning. -/
structure IdeRound where
  secsDone : BitVec 32
  secsOp : BitVec 32
  ops : List IdeOp

/-- The while loop of ide_read and of ide_write. -/
def ideLoop (func : String) (body : BitVec 32 → BitVec 32 → List IdeOp)
    (secCnt secsDone : BitVec 32) : ℕ → List IdeRound
  | 0 => [⟨secsDone,0,[.check false (.undefined func)]⟩]
  | rounds+1 =>
    if secsDone < secCnt then
      let secsOp := if secsDone+256 ≤ secCnt then 256 else secCnt-secsDone
      ⟨secsDone,secsOp,body secsDone secsOp⟩::
        ideLoop func body secCnt (secsDone+secsOp) rounds
    else []

/-- The operations of a call with the given rounds. -/
def ideCall (func : String) (hd : Disk) (lba secCnt : BitVec 32) (rounds : List IdeRound) :
    List IdeOp :=
  [.check (decide (lba ≤ maxLba)) (.assert func "lba <= max_lba"),
    .check (decide (secCnt > 0)) (.assert func "sec_cnt > 0"),.lockAcquire] ++
    selectDisk hd ++ rounds.flatMap IdeRound.ops ++ [.lockRelease]

def readRounds (missing : BitVec 32 → BitVec 32) (hd : Disk) (lba buf secCnt : BitVec 32)
    (rounds : ℕ) : List IdeRound :=
  ideLoop "ide_read" (readRound missing hd lba buf) secCnt 0 rounds

def writeRounds (hd : Disk) (lba buf secCnt : BitVec 32) (rounds : ℕ) : List IdeRound :=
  ideLoop "ide_write" (writeRound hd lba buf) secCnt 0 rounds

def ideRead (missing : BitVec 32 → BitVec 32) (hd : Disk) (lba buf secCnt : BitVec 32)
    (rounds : ℕ) : List IdeOp :=
  ideCall "ide_read" hd lba secCnt (readRounds missing hd lba buf secCnt rounds)

def ideWrite (hd : Disk) (lba buf secCnt : BitVec 32) (rounds : ℕ) : List IdeOp :=
  ideCall "ide_write" hd lba secCnt (writeRounds hd lba buf secCnt rounds)

/-- The operations of a call one after the other, where the lock is free sooner or later and every
command is completed. What busy_wait returns may depend on all that happened before. -/
def perform (ready : List IdeOp → Bool) (done : List IdeOp) : List IdeOp → Except Panic (List IdeOp)
  | [] => .ok done
  | .check condition e::ops =>
    if condition then perform ready (done++[.check condition e]) ops else .error e
  | .busyWait e::ops =>
    if ready done then perform ready (done++[.busyWait e]) ops else .error e
  | op::ops => perform ready (done++[op]) ops

/-- The assertion holds, if the operation is one. -/
def IdeOp.Holds : IdeOp → Prop
  | .check condition _ => condition = true
  | _ => True

section Perform
variable {ready : List IdeOp → Bool} {done ops es : List IdeOp}

/-- A call that returns has performed all its operations, and no assertion of it has failed. -/
theorem perform_ok (h : perform ready done ops = .ok es) :
    es = done++ops ∧ ∀ op ∈ ops, op.Holds := by
  induction ops generalizing done with
  | nil => exact ⟨by rw [List.append_nil]; exact (Except.ok.inj h).symm,by simp⟩
  | cons op ops ih =>
    have hnext (hop : op.Holds) (hrun : perform ready (done++[op]) ops = .ok es) :
        es = done++op::ops ∧ ∀ o ∈ op::ops, o.Holds := by
      obtain ⟨hes,hops⟩ := ih hrun
      refine ⟨hes.trans (List.append_cons done op ops).symm,fun o ho => ?_⟩
      rcases List.mem_cons.mp ho with rfl | ho
      · exact hop
      · exact hops o ho
    cases op with
    | check condition e =>
      rw [perform] at h
      split at h
      · exact hnext ‹_› h
      · cases h
    | busyWait e =>
      rw [perform] at h
      split at h
      · exact hnext trivial h
      · cases h
    | lockAcquire => exact hnext trivial h
    | lockRelease => exact hnext trivial h
    | outb port data => exact hnext trivial h
    | expectIntr => exact hnext trivial h
    | semaDown => exact hnext trivial h
    | insw port addr wordCnt => exact hnext trivial h
    | outsw port addr wordCnt => exact hnext trivial h

/-- With a ready disk, a call returns if its assertions hold. -/
theorem perform_of_holds (hready : ∀ es, ready es = true) (h : ∀ op ∈ ops, op.Holds) :
    perform ready done ops = .ok (done++ops) := by
  induction ops generalizing done with
  | nil => rw [List.append_nil]; rfl
  | cons op ops ih =>
    have hrun : perform ready (done++[op]) ops = .ok (done++[op]++ops) :=
      ih fun o ho => h o (List.mem_cons_of_mem _ ho)
    rw [← List.append_cons] at hrun
    have hop := h op List.mem_cons_self
    cases op with
    | check condition e => rw [perform,if_pos (show condition = true from hop),hrun]
    | busyWait e => rw [perform,if_pos (hready done),hrun]
    | lockAcquire => exact hrun
    | lockRelease => exact hrun
    | outb port data => exact hrun
    | expectIntr => exact hrun
    | semaDown => exact hrun
    | insw port addr wordCnt => exact hrun
    | outsw port addr wordCnt => exact hrun

end Perform
end OsKernel

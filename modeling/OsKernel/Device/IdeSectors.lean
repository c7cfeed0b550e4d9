import OsKernel.Device.Ide

/-! What the disk makes of the operations of a call. The registers are decoded as the device does
it, and the commands of a call then cover the requested sectors one after the other. -/
namespace OsKernel

/-- The words of 16 bits from an address on. -/
def wordsAt (mem : BitVec 32 → BitVec 8) (a : BitVec 32) : ℕ → List (BitVec 16)
  | 0 => []
  | n+1 => (mem (a+1) ++ mem a)::wordsAt mem (a+2) n

inductive DataPhase
  | input (wordCnt : ℕ)
  | output (words : List (BitVec 16))
  deriving DecidableEq

/-- The registers that make up the operands of a command. -/
structure TaskFile where
  sectCnt : BitVec 8
  lbaL : BitVec 8
  lbaM : BitVec 8
  lbaH : BitVec 8
  dev : BitVec 8

/-- A command, as the device understands it, and the transfers that follow it. -/
structure AtaCommand where
  command : BitVec 8
  lbaMode : Bool
  /-- The second disk of the channel. -/
  slave : Bool
  lba : ℕ
  count : ℕ
  data : List DataPhase
  deriving DecidableEq

/-- A count of 0 stands for 256 sectors. -/
def sectorCount (c : BitVec 8) : ℕ := if c = 0 then 256 else c.toNat

def TaskFile.command (file : TaskFile) (cmd : BitVec 8) : AtaCommand where
  command := cmd
  lbaMode := file.dev.getLsbD 6
  slave := file.dev.getLsbD 4
  lba := file.lbaL.toNat+2^8*file.lbaM.toNat+2^16*file.lbaH.toNat+2^24*(file.dev.toNat % 16)
  count := sectorCount file.sectCnt
  data := []

/-- The registers of a channel, and the commands so far. -/
structure Ata where
  file : TaskFile
  commands : List AtaCommand

namespace Ata

/-- A transfer belongs to the last command. -/
def addData (d : Ata) (phase : DataPhase) : Ata :=
  match d.commands.getLast? with
  | none => d
  | some c => { d with commands := d.commands.dropLast++[{ c with data := c.data++[phase] }] }

/-- What a device sees of an operation on its channel. -/
def op (channel : IdeChannel) (mem : BitVec 32 → BitVec 8) (d : Ata) : IdeOp → Ata
  | .outb port data =>
    if port = channel.regSectCnt then { d with file := { d.file with sectCnt := data } }
    else if port = channel.regLbaL then { d with file := { d.file with lbaL := data } }
    else if port = channel.regLbaM then { d with file := { d.file with lbaM := data } }
    else if port = channel.regLbaH then { d with file := { d.file with lbaH := data } }
    else if port = channel.regDev then { d with file := { d.file with dev := data } }
    else if port = channel.regCmd then
      { d with commands := d.commands++[d.file.command data] }
    else d
  | .insw port _ wordCnt =>
    if port = channel.regData then d.addData (.input wordCnt.toNat) else d
  | .outsw port addr wordCnt =>
    if port = channel.regData then d.addData (.output (wordsAt mem addr wordCnt.toNat)) else d
  | _ => d

def run (channel : IdeChannel) (mem : BitVec 32 → BitVec 8) (d : Ata) (ops : List IdeOp) : Ata :=
  ops.foldl (op channel mem) d

end Ata

/-- The commands that the operations of a call issue on its channel. -/
def commandsOf (channel : IdeChannel) (mem : BitVec 32 → BitVec 8) (ops : List IdeOp) :
    List AtaCommand :=
  (Ata.run channel mem ⟨⟨0,0,0,0,0⟩,[]⟩ ops).commands

namespace AtaCommand

/-- The sectors that a command addresses. -/
def sectors (c : AtaCommand) : List ℕ := List.range' c.lba c.count

def output (c : AtaCommand) : List (BitVec 16) :=
  c.data.flatMap fun phase => match phase with
    | .input _ => []
    | .output words => words

/-- Each sector with the words that are sent for it. -/
def sent (c : AtaCommand) : List (ℕ × List (BitVec 16)) :=
  (List.range c.count).map fun i => (c.lba+i,(c.output.drop (256*i)).take 256)

end AtaCommand

section Words
variable {mem : BitVec 32 → BitVec 8} {a : BitVec 32} {m n : ℕ}

@[simp] theorem wordsAt_length (mem : BitVec 32 → BitVec 8) (a : BitVec 32) (n : ℕ) :
    (wordsAt mem a n).length = n := by
  induction n generalizing a with
  | zero => rfl
  | succ n ih => rw [wordsAt,List.length_cons,ih]

theorem wordsAt_take (h : m ≤ n) : (wordsAt mem a n).take m = wordsAt mem a m := by
  induction m generalizing a n with
  | zero => rfl
  | succ m ih =>
    obtain ⟨n,rfl⟩ := Nat.exists_eq_succ_of_ne_zero (Nat.ne_of_gt (Nat.zero_lt_of_lt h))
    rw [wordsAt,wordsAt,List.take_succ_cons,ih (Nat.le_of_succ_le_succ h)]

theorem wordsAt_drop : (wordsAt mem a n).drop m = wordsAt mem (a+BitVec.ofNat 32 (2*m)) (n-m) := by
  induction m generalizing a n with
  | zero => simp
  | succ m ih =>
    cases n with
    | zero => rw [Nat.zero_sub]; rfl
    | succ n =>
      have ha : a+2+BitVec.ofNat 32 (2*m) = a+BitVec.ofNat 32 (2*(m+1)) := by
        rw [Nat.mul_succ,Nat.add_comm (2*m) 2,BitVec.ofNat_add,BitVec.add_assoc]
        rfl
      rw [wordsAt,List.drop_succ_cons,ih,ha,Nat.add_sub_add_right]

end Words

section Registers
variable {hd : Disk} {mem : BitVec 32 → BitVec 8} {d : Ata} {lba secsDone secsOp : BitVec 32}
  {cmd cnt : BitVec 8} {phase : DataPhase}

/-- Both helpers take a count of 0 for 256 sectors, as the device does. -/
theorem sizeInBytes_words (c : BitVec 8) : (sizeInBytes c/2).toNat = 256*sectorCount c := by
  unfold sizeInBytes sectorCount
  split
  · rfl
  · have hc := c.isLt
    have hsize : (c.setWidth 32*512).toNat = c.toNat*512 := by
      rw [BitVec.toNat_mul,BitVec.toNat_setWidth]
      change c.toNat % 2^32*512 % 2^32 = _
      omega
    rw [BitVec.toNat_udiv,hsize]
    change c.toNat*512/2 = _
    omega

theorem sectorCount_setWidth (h0 : 0 < secsOp.toNat) (h : secsOp.toNat ≤ 256) :
    sectorCount (secsOp.setWidth 8) = secsOp.toNat := by
  have hmod : (secsOp.setWidth 8).toNat = secsOp.toNat % 256 := BitVec.toNat_setWidth 8 secsOp
  have hiff : secsOp.setWidth 8 = 0 ↔ secsOp.toNat % 256 = 0 := by
    rw [← hmod]
    exact ⟨fun he => by rw [he]; rfl,fun he => BitVec.eq_of_toNat_eq he⟩
  unfold sectorCount
  by_cases hc : secsOp.toNat % 256 = 0
  · rw [if_pos (hiff.mpr hc)]
    omega
  · rw [if_neg fun he => hc (hiff.mp he),hmod]
    omega

/-- The registers after select_sector. -/
def selected (hd : Disk) (lba : BitVec 32) (cnt : BitVec 8) : TaskFile where
  sectCnt := cnt
  lbaL := lba.setWidth 8
  lbaM := (lba >>> 8).setWidth 8
  lbaH := (lba >>> 16).setWidth 8
  dev := bitDevMbs ||| bitDevLba ||| (if hd.devNo = 1 then bitDevDev else 0) |||
    (lba >>> 24).setWidth 8

/-- select_sector fills the registers, whatever they held, and cmd_out issues the command. -/
theorem run_selectSector (hd : Disk) (mem : BitVec 32 → BitVec 8) (d : Ata) (lba : BitVec 32)
    (cnt cmd : BitVec 8) : Ata.run hd.myChannel mem d (selectSector hd lba cnt ++
      cmdOut hd.myChannel cmd) =
      ⟨selected hd lba cnt,d.commands++[(selected hd lba cnt).command cmd]⟩ := by
  simp [Ata.run,selectSector,cmdOut,Ata.op,IdeChannel.regSectCnt,IdeChannel.regLbaL,
    IdeChannel.regLbaM,IdeChannel.regLbaH,IdeChannel.regDev,IdeChannel.regCmd,IdeChannel.regStatus,
    selected]

/-- The four registers hold the number of the sector. -/
theorem selected_command (hlba : lba ≤ maxLba) (h0 : 0 < secsOp.toNat) (h : secsOp.toNat ≤ 256) :
    (selected hd lba (secsOp.setWidth 8)).command cmd =
      ⟨cmd,true,decide (hd.devNo = 1),lba.toNat,secsOp.toNat,[]⟩ := by
  have hlt : lba.toNat ≤ 163839 := hlba
  have htop : (lba >>> 24).setWidth 8 = 0 := by
    apply BitVec.eq_of_toNat_eq
    rw [BitVec.toNat_setWidth,BitVec.toNat_ushiftRight,Nat.shiftRight_eq_div_pow]
    change lba.toNat/2^24 % 2^8 = 0
    omega
  have hdev : (selected hd lba (secsOp.setWidth 8)).dev =
      if hd.devNo = 1 then 0xf0 else 0xe0 := by
    unfold selected
    dsimp only
    rw [htop]
    split <;> rfl
  have hnum : (selected hd lba (secsOp.setWidth 8)).lbaL.toNat+
      2^8*(selected hd lba (secsOp.setWidth 8)).lbaM.toNat+
      2^16*(selected hd lba (secsOp.setWidth 8)).lbaH.toNat = lba.toNat := by
    unfold selected
    dsimp only
    rw [BitVec.toNat_setWidth,BitVec.toNat_setWidth,BitVec.toNat_setWidth,
      BitVec.toNat_ushiftRight,BitVec.toNat_ushiftRight,Nat.shiftRight_eq_div_pow,
      Nat.shiftRight_eq_div_pow]
    omega
  have hcnt : sectorCount (selected hd lba (secsOp.setWidth 8)).sectCnt = secsOp.toNat :=
    sectorCount_setWidth h0 h
  unfold TaskFile.command
  rw [hnum,hcnt,hdev]
  by_cases hd1 : hd.devNo = 1
  · rw [if_pos hd1,decide_eq_true hd1]
    rfl
  · rw [if_neg hd1,decide_eq_false hd1]
    rfl

/-- A transfer after a command. -/
theorem addData_last (file : TaskFile) (cs : List AtaCommand) (c : AtaCommand) :
    Ata.addData ⟨file,cs++[c]⟩ phase = ⟨file,cs++[{ c with data := c.data++[phase] }]⟩ := by
  simp [Ata.addData]

/-- One round issues one command, which one transfer follows. -/
def RoundDoes (hd : Disk) (mem : BitVec 32 → BitVec 8) (lba : BitVec 32) (cmd : BitVec 8)
    (phase : BitVec 32 → BitVec 32 → DataPhase)
    (body : BitVec 32 → BitVec 32 → List IdeOp) : Prop :=
  ∀ secsDone secsOp : BitVec 32, ((∀ op ∈ body secsDone secsOp, op.Holds) ↔
    lba+secsDone ≤ maxLba) ∧
    (lba+secsDone ≤ maxLba → 0 < secsOp.toNat → secsOp.toNat ≤ 256 → ∀ d : Ata, ∃ file,
      Ata.run hd.myChannel mem d (body secsDone secsOp) = ⟨file,d.commands++
        [⟨cmd,true,decide (hd.devNo = 1),(lba+secsDone).toNat,secsOp.toNat,
          [phase secsDone secsOp]⟩]⟩)

/-- ide_read transfers as many words as the missing argument says. -/
theorem readRound_does (missing : BitVec 32 → BitVec 32) (hd : Disk) (mem : BitVec 32 → BitVec 8)
    (lba buf : BitVec 32) : RoundDoes hd mem lba cmdReadSector
      (fun secsDone _ => .input (missing secsDone).toNat) (readRound missing hd lba buf) := by
  intro secsDone secsOp
  constructor
  · simp [readRound,selectSector,cmdOut,readFromSector,IdeOp.Holds]
  · intro hlba h0 h d
    refine ⟨selected hd (lba+secsDone) (secsOp.setWidth 8),?_⟩
    have hrun := run_selectSector hd mem d (lba+secsDone) (secsOp.setWidth 8) cmdReadSector
    rw [selected_command hlba h0 h] at hrun
    have hdata : Ata.op hd.myChannel mem ⟨selected hd (lba+secsDone) (secsOp.setWidth 8),
        d.commands++[⟨cmdReadSector,true,decide (hd.devNo = 1),(lba+secsDone).toNat,
          secsOp.toNat,[]⟩]⟩ (.insw hd.myChannel.regData (sizeInBytes (secsOp.setWidth 8)/2)
          (missing secsDone)) =
        ⟨selected hd (lba+secsDone) (secsOp.setWidth 8),d.commands++[⟨cmdReadSector,true,
          decide (hd.devNo = 1),(lba+secsDone).toNat,secsOp.toNat,
          [.input (missing secsDone).toNat]⟩]⟩ := by
      rw [Ata.op,if_pos rfl,addData_last]
      rfl
    rw [← hdata,← hrun]
    simp only [Ata.run,readRound,readFromSector,List.foldl_append]
    rfl

theorem writeRound_does (hd : Disk) (mem : BitVec 32 → BitVec 8) (lba buf : BitVec 32) :
    RoundDoes hd mem lba cmdWriteSector
      (fun secsDone secsOp => .output (wordsAt mem (buf+secsDone*512) (256*secsOp.toNat)))
      (writeRound hd lba buf) := by
  intro secsDone secsOp
  constructor
  · simp [writeRound,selectSector,cmdOut,write2sector,IdeOp.Holds]
  · intro hlba h0 h d
    refine ⟨selected hd (lba+secsDone) (secsOp.setWidth 8),?_⟩
    have hrun := run_selectSector hd mem d (lba+secsDone) (secsOp.setWidth 8) cmdWriteSector
    rw [selected_command hlba h0 h] at hrun
    have hdata : Ata.op hd.myChannel mem ⟨selected hd (lba+secsDone) (secsOp.setWidth 8),
        d.commands++[⟨cmdWriteSector,true,decide (hd.devNo = 1),(lba+secsDone).toNat,
          secsOp.toNat,[]⟩]⟩ (.outsw hd.myChannel.regData (buf+secsDone*512)
          (sizeInBytes (secsOp.setWidth 8)/2)) =
        ⟨selected hd (lba+secsDone) (secsOp.setWidth 8),d.commands++[⟨cmdWriteSector,true,
          decide (hd.devNo = 1),(lba+secsDone).toNat,secsOp.toNat,
          [.output (wordsAt mem (buf+secsDone*512) (256*secsOp.toNat))]⟩]⟩ := by
      rw [Ata.op,if_pos rfl,addData_last,sizeInBytes_words,sectorCount_setWidth h0 h]
      rfl
    rw [← hdata,← hrun]
    simp only [Ata.run,writeRound,write2sector,List.foldl_append]
    rfl

end Registers
end OsKernel

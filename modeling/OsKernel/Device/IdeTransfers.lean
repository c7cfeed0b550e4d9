import OsKernel.Device.IdeSectors

/-! Whole calls of ide_read and ide_write. A call that returns has addressed the requested sectors
one after the other, and it returns as long as every round starts on the disk. -/
namespace OsKernel

section Loop
variable {hd : Disk} {mem : BitVec 32 → BitVec 8} {lba secCnt secsDone : BitVec 32}
  {cmd : BitVec 8} {phase : BitVec 32 → BitVec 32 → DataPhase}
  {body : BitVec 32 → BitVec 32 → List IdeOp} {func : String} {n : ℕ}

theorem maxLba_toNat : maxLba.toNat = 163839 := rfl

/-- The number of sectors of the next round. -/
def nextOp (secCnt secsDone : BitVec 32) : BitVec 32 :=
  if secsDone+256 ≤ secCnt then 256 else secCnt-secsDone

theorem ideLoop_succ (h : secsDone < secCnt) : ideLoop func body secCnt secsDone (n+1) =
    ⟨secsDone,nextOp secCnt secsDone,body secsDone (nextOp secCnt secsDone)⟩::
      ideLoop func body secCnt (secsDone+nextOp secCnt secsDone) n := if_pos h

theorem ideLoop_done (h : ¬ secsDone < secCnt) : ideLoop func body secCnt secsDone (n+1) = [] :=
  if_neg h

/-- A round takes 256 sectors, or what is left of them. -/
theorem nextOp_toNat (h : secsDone < secCnt) (hw : secsDone.toNat+256 < 2^32) :
    (nextOp secCnt secsDone).toNat = min 256 (secCnt.toNat-secsDone.toNat) := by
  have hlt : secsDone.toNat < secCnt.toNat := h
  have hadd : (secsDone+256).toNat = secsDone.toNat+256 := by
    rw [BitVec.toNat_add]
    exact Nat.mod_eq_of_lt hw
  unfold nextOp
  by_cases hle : secsDone+256 ≤ secCnt
  · have hle' : secsDone.toNat+256 ≤ secCnt.toNat := hadd ▸ hle
    rw [if_pos hle]
    change 256 = _
    omega
  · have hle' : ¬ secsDone.toNat+256 ≤ secCnt.toNat := fun h => hle (show _ ≤ _ by
      rw [BitVec.le_def,hadd]
      exact h)
    rw [if_neg hle,BitVec.toNat_sub_of_le (Nat.le_of_lt hlt)]
    omega

/-- The variables of one round do not wrap, and its sectors start on the disk. -/
structure IdeRound.Sound (lba : BitVec 32) (r : IdeRound) : Prop where
  start : lba.toNat+r.secsDone.toNat ≤ maxLba.toNat
  pos : 0 < r.secsOp.toNat
  le : r.secsOp.toNat ≤ 256

/-- The rounds of a loop whose assertions hold. Each starts where the last one has ended. -/
theorem ideLoop_sound (hbody : RoundDoes hd mem lba cmd phase body)
    (hchecks : ∀ op ∈ (ideLoop func body secCnt secsDone n).flatMap IdeRound.ops, op.Holds)
    (hstart : lba.toNat+secsDone.toNat ≤ maxLba.toNat+256)
    (hle : secsDone.toNat ≤ secCnt.toNat) :
    (∀ r ∈ ideLoop func body secCnt secsDone n, r.Sound lba) ∧
    (ideLoop func body secCnt secsDone n).flatMap (fun r =>
      List.range' (lba.toNat+r.secsDone.toNat) r.secsOp.toNat) =
      List.range' (lba.toNat+secsDone.toNat) (secCnt.toNat-secsDone.toNat) := by
  rw [maxLba_toNat] at hstart
  induction n generalizing secsDone with
  | zero =>
    have hfail := hchecks (.check false (.undefined func)) (by simp [ideLoop])
    exact absurd hfail Bool.false_ne_true
  | succ n ih =>
    by_cases hlt : secsDone < secCnt
    · rw [ideLoop_succ hlt,List.flatMap_cons] at hchecks
      rw [ideLoop_succ hlt]
      have hop := nextOp_toNat hlt (by omega)
      have hlt' : secsDone.toNat < secCnt.toNat := hlt
      have hadd : (lba+secsDone).toNat = lba.toNat+secsDone.toNat := by
        rw [BitVec.toNat_add,Nat.mod_eq_of_lt (by omega)]
      have hfirst : lba.toNat+secsDone.toNat ≤ maxLba.toNat := by
        rw [← hadd]
        exact (hbody secsDone (nextOp secCnt secsDone)).1.mp fun op ho =>
          hchecks op (List.mem_append_left _ ho)
      have hnext : (secsDone+nextOp secCnt secsDone).toNat =
          secsDone.toNat+(nextOp secCnt secsDone).toNat := by
        rw [BitVec.toNat_add,Nat.mod_eq_of_lt (by omega)]
      rw [maxLba_toNat] at hfirst
      have hrest : ∀ op ∈ (ideLoop func body secCnt (secsDone+nextOp secCnt secsDone) n).flatMap
          IdeRound.ops, op.Holds := fun op ho => hchecks op (List.mem_append_right _ ho)
      obtain ⟨hsound,hrange⟩ := ih hrest (by omega) (by omega)
      constructor
      · intro r hr
        rcases List.mem_cons.mp hr with rfl | hr
        · exact ⟨by rw [maxLba_toNat]; exact hfirst,by dsimp only; omega,by dsimp only; omega⟩
        · exact hsound r hr
      · rw [List.flatMap_cons,hrange,hnext,← Nat.add_assoc]
        dsimp only
        rw [List.range'_append_1]
        congr 1
        omega
    · rw [ideLoop_done hlt]
      have hge : ¬ secsDone.toNat < secCnt.toNat := hlt
      rw [Nat.sub_eq_zero_of_le (by omega)]
      exact ⟨by simp,rfl⟩

/-- With enough rounds, the assertions hold for a request that ends on the disk. -/
theorem ideLoop_holds (hbody : RoundDoes hd mem lba cmd phase body)
    (hend : lba.toNat+secCnt.toNat ≤ maxLba.toNat+1) (hle : secsDone.toNat ≤ secCnt.toNat)
    (hn : secCnt.toNat-secsDone.toNat+256 ≤ 256*n) :
    ∀ op ∈ (ideLoop func body secCnt secsDone n).flatMap IdeRound.ops, op.Holds := by
  rw [maxLba_toNat] at hend
  induction n generalizing secsDone with
  | zero => omega
  | succ n ih =>
    by_cases hlt : secsDone < secCnt
    · have hop := nextOp_toNat hlt (by omega)
      have hlt' : secsDone.toNat < secCnt.toNat := hlt
      have hadd : (lba+secsDone).toNat = lba.toNat+secsDone.toNat := by
        rw [BitVec.toNat_add,Nat.mod_eq_of_lt (by omega)]
      have hnext : (secsDone+nextOp secCnt secsDone).toNat =
          secsDone.toNat+(nextOp secCnt secsDone).toNat := by
        rw [BitVec.toNat_add,Nat.mod_eq_of_lt (by omega)]
      rw [ideLoop_succ hlt,List.flatMap_cons]
      intro op ho
      rcases List.mem_append.mp ho with ho | ho
      · refine (hbody secsDone (nextOp secCnt secsDone)).1.mpr ?_ op ho
        rw [BitVec.le_def,hadd,maxLba_toNat]
        omega
      · exact ih (by omega) (by omega) op ho
    · rw [ideLoop_done hlt]
      simp

variable (func body) in
/-- With enough rounds, there is one for each 256 sectors, the last one for what is left. -/
theorem ideLoop_rounds {P : ℕ → ℕ → Prop} (hw : secCnt.toNat+256 < 2^32)
    (hle : secsDone.toNat ≤ secCnt.toNat) (hn : secCnt.toNat-secsDone.toNat+256 ≤ 256*n) :
    (∀ r ∈ ideLoop func body secCnt secsDone n, P r.secsDone.toNat r.secsOp.toNat) ↔
      ∀ i, secsDone.toNat+256*i < secCnt.toNat →
        P (secsDone.toNat+256*i) (min 256 (secCnt.toNat-(secsDone.toNat+256*i))) := by
  induction n generalizing secsDone with
  | zero => omega
  | succ n ih =>
    by_cases hlt : secsDone < secCnt
    · have hlt' : secsDone.toNat < secCnt.toNat := hlt
      have hop := nextOp_toNat hlt (by omega)
      have hnext : (secsDone+nextOp secCnt secsDone).toNat =
          secsDone.toNat+(nextOp secCnt secsDone).toNat := by
        rw [BitVec.toNat_add,Nat.mod_eq_of_lt (by omega)]
      rw [ideLoop_succ hlt,List.forall_mem_cons,ih (by omega) (by omega),hnext,hop]
      constructor
      · rintro ⟨hfirst,hrest⟩ i hi
        cases i with
        | zero => exact hfirst
        | succ i =>
          have hfull : min 256 (secCnt.toNat-secsDone.toNat) = 256 := by omega
          rw [hfull] at hrest
          have hstep : secsDone.toNat+256+256*i = secsDone.toNat+256*(i+1) := by omega
          rw [← hstep]
          exact hrest i (by omega)
      · intro h
        refine ⟨h 0 hlt',fun i hi => ?_⟩
        have hfull : min 256 (secCnt.toNat-secsDone.toNat) = 256 := by omega
        rw [hfull] at hi ⊢
        have hstep : secsDone.toNat+256+256*i = secsDone.toNat+256*(i+1) := by omega
        rw [hstep] at hi ⊢
        exact h (i+1) hi
    · have hge : ¬ secsDone.toNat < secCnt.toNat := hlt
      rw [ideLoop_done hlt]
      constructor
      · intro _ i hi
        omega
      · simp

/-- The commands of the rounds, behind those that have been issued before. -/
theorem run_rounds (hbody : RoundDoes hd mem lba cmd phase body)
    (hsound : ∀ r ∈ ideLoop func body secCnt secsDone n, r.Sound lba) (d : Ata) :
    ∃ file, Ata.run hd.myChannel mem d
      ((ideLoop func body secCnt secsDone n).flatMap IdeRound.ops) = ⟨file,d.commands++
        (ideLoop func body secCnt secsDone n).map fun r => ⟨cmd,true,decide (hd.devNo = 1),
          lba.toNat+r.secsDone.toNat,r.secsOp.toNat,[phase r.secsDone r.secsOp]⟩⟩ := by
  induction n generalizing secsDone d with
  | zero => exact absurd (hsound _ List.mem_cons_self).pos (Nat.lt_irrefl 0)
  | succ n ih =>
    by_cases hlt : secsDone < secCnt
    · rw [ideLoop_succ hlt] at hsound ⊢
      have hs := hsound _ List.mem_cons_self
      have hstart : lba.toNat+secsDone.toNat ≤ 163839 := hs.start
      have hadd : (lba+secsDone).toNat = lba.toNat+secsDone.toNat := by
        rw [BitVec.toNat_add,Nat.mod_eq_of_lt (by omega)]
      obtain ⟨file,hfile⟩ := (hbody secsDone (nextOp secCnt secsDone)).2
        (by rw [BitVec.le_def,hadd]; exact hs.start) hs.pos hs.le d
      rw [hadd] at hfile
      obtain ⟨file',hrun⟩ := ih (fun r hr => hsound r (List.mem_cons_of_mem _ hr))
        ⟨file,d.commands++[⟨cmd,true,decide (hd.devNo = 1),lba.toNat+secsDone.toNat,
          (nextOp secCnt secsDone).toNat,[phase secsDone (nextOp secCnt secsDone)]⟩]⟩
      refine ⟨file',?_⟩
      rw [List.flatMap_cons,List.map_cons,List.append_cons d.commands,← hrun,← hfile]
      exact List.foldl_append
    · rw [ideLoop_done hlt]
      exact ⟨d.file,by simp [Ata.run]⟩

end Loop

section Calls
variable {hd : Disk} {mem : BitVec 32 → BitVec 8} {lba secCnt : BitVec 32} {cmd : BitVec 8}
  {phase : BitVec 32 → BitVec 32 → DataPhase} {body : BitVec 32 → BitVec 32 → List IdeOp}
  {func : String} {n : ℕ} {ready : List IdeOp → Bool} {es : List IdeOp}

/-- The commands of a call that has returned. -/
theorem call_commands (hbody : RoundDoes hd mem lba cmd phase body)
    (h : perform ready [] (ideCall func hd lba secCnt (ideLoop func body secCnt 0 n)) = .ok es) :
    es = ideCall func hd lba secCnt (ideLoop func body secCnt 0 n) ∧
    (∀ r ∈ ideLoop func body secCnt 0 n, r.Sound lba) ∧
    (ideLoop func body secCnt 0 n).flatMap (fun r =>
      List.range' (lba.toNat+r.secsDone.toNat) r.secsOp.toNat) =
      List.range' lba.toNat secCnt.toNat ∧
    commandsOf hd.myChannel mem es = (ideLoop func body secCnt 0 n).map fun r =>
      ⟨cmd,true,decide (hd.devNo = 1),lba.toNat+r.secsDone.toNat,r.secsOp.toNat,
        [phase r.secsDone r.secsOp]⟩ := by
  obtain ⟨rfl,hchecks⟩ := perform_ok h
  rw [List.nil_append] at h ⊢
  have hlba : lba.toNat ≤ maxLba.toNat := by
    have hcheck := hchecks (.check (decide (lba ≤ maxLba)) (.assert func "lba <= max_lba"))
      (by simp [ideCall])
    exact of_decide_eq_true hcheck
  have hz : (0 : BitVec 32).toNat = 0 := rfl
  have hrounds : ∀ op ∈ (ideLoop func body secCnt 0 n).flatMap IdeRound.ops, op.Holds :=
    fun op ho => hchecks op (List.mem_append_left _ (List.mem_append_right _ ho))
  obtain ⟨hsound,hrange⟩ :=
    ideLoop_sound hbody hrounds (hlba.trans (Nat.le_add_right _ _)) (Nat.zero_le _)
  refine ⟨rfl,hsound,by rw [hrange,hz,Nat.add_zero,Nat.sub_zero],?_⟩
  obtain ⟨file,hrun⟩ := run_rounds hbody hsound
    (Ata.run hd.myChannel mem ⟨⟨0,0,0,0,0⟩,[]⟩ (selectDisk hd))
  have hselect : (Ata.run hd.myChannel mem ⟨⟨0,0,0,0,0⟩,[]⟩ (selectDisk hd)).commands = [] := by
    simp [Ata.run,selectDisk,Ata.op,IdeChannel.regSectCnt,IdeChannel.regLbaL,IdeChannel.regLbaM,
      IdeChannel.regLbaH,IdeChannel.regDev]
  rw [hselect,List.nil_append] at hrun
  unfold commandsOf ideCall
  rw [Ata.run,List.foldl_append,List.foldl_append,List.foldl_append]
  exact congrArg Ata.commands hrun

/-- A call returns when the request ends on the disk and the disk is ready. -/
theorem call_returns (func : String) (hbody : RoundDoes hd mem lba cmd phase body)
    (hready : ∀ es, ready es = true) (h0 : 0 < secCnt.toNat)
    (hend : lba.toNat+secCnt.toNat ≤ maxLba.toNat+1) (hn : secCnt.toNat+256 ≤ 256*n) :
    perform ready [] (ideCall func hd lba secCnt (ideLoop func body secCnt 0 n)) =
      .ok (ideCall func hd lba secCnt (ideLoop func body secCnt 0 n)) := by
  refine perform_of_holds hready fun op ho => ?_
  have hz : (0 : BitVec 32).toNat = 0 := rfl
  have hloop : ∀ op ∈ (ideLoop func body secCnt 0 n).flatMap IdeRound.ops, op.Holds :=
    ideLoop_holds hbody hend (Nat.zero_le _) (by rw [hz]; exact hn)
  simp only [ideCall,selectDisk,List.mem_append,List.mem_cons,List.not_mem_nil,or_false] at ho
  rcases ho with (((rfl | rfl | rfl) | rfl) | ho) | rfl
  · refine decide_eq_true ?_
    rw [BitVec.le_def]
    omega
  · exact decide_eq_true h0
  · trivial
  · trivial
  · exact hloop op ho
  · trivial

/-- The commands cover a range of sectors in order, each with at most 256 of them. -/
structure Transfers (cmd : BitVec 8) (slave : Bool) (lba secCnt : ℕ) (cs : List AtaCommand) :
    Prop where
  commands : ∀ c ∈ cs, c.command = cmd ∧ c.lbaMode = true ∧ c.slave = slave
  sizes : ∀ c ∈ cs, 1 ≤ c.count ∧ c.count ≤ 256
  sectors : cs.flatMap AtaCommand.sectors = List.range' lba secCnt

theorem call_transfers (hbody : RoundDoes hd mem lba cmd phase body)
    (h : perform ready [] (ideCall func hd lba secCnt (ideLoop func body secCnt 0 n)) = .ok es) :
    Transfers cmd (decide (hd.devNo = 1)) lba.toNat secCnt.toNat
      (commandsOf hd.myChannel mem es) := by
  obtain ⟨-,hsound,hrange,hcs⟩ := call_commands hbody h
  rw [hcs]
  refine ⟨fun c hc => ?_,fun c hc => ?_,?_⟩
  · obtain ⟨r,-,rfl⟩ := List.mem_map.mp hc
    exact ⟨rfl,rfl,rfl⟩
  · obtain ⟨r,hr,rfl⟩ := List.mem_map.mp hc
    exact ⟨(hsound r hr).pos,(hsound r hr).le⟩
  · rw [List.flatMap_map]
    exact hrange

/-- The words of a command lie in the buffer at the offset of its first sector. -/
theorem sent_eq {buf secsDone secsOp : BitVec 32} :
    AtaCommand.sent ⟨cmd,true,decide (hd.devNo = 1),lba.toNat+secsDone.toNat,secsOp.toNat,
      [.output (wordsAt mem (buf+secsDone*512) (256*secsOp.toNat))]⟩ =
    (List.range' (lba.toNat+secsDone.toNat) secsOp.toNat).map fun s =>
      (s,wordsAt mem (buf+BitVec.ofNat 32 (512*(s-lba.toNat))) 256) := by
  rw [AtaCommand.sent,List.range'_eq_map_range,List.map_map]
  refine List.map_congr_left fun i hi => ?_
  have hi' : i < secsOp.toNat := List.mem_range.mp hi
  have haddr : buf+secsDone*512+BitVec.ofNat 32 (2*(256*i)) =
      buf+BitVec.ofNat 32 (512*(secsDone.toNat+i)) := by
    apply BitVec.eq_of_toNat_eq
    simp only [BitVec.toNat_add,BitVec.toNat_mul,BitVec.toNat_ofNat]
    change ((buf.toNat+secsDone.toNat*512 % 2^32) % 2^32+2*(256*i) % 2^32) % 2^32 = _
    omega
  have hout : AtaCommand.output ⟨cmd,true,decide (hd.devNo = 1),lba.toNat+secsDone.toNat,
      secsOp.toNat,[.output (wordsAt mem (buf+secsDone*512) (256*secsOp.toNat))]⟩ =
      wordsAt mem (buf+secsDone*512) (256*secsOp.toNat) := by simp [AtaCommand.output]
  have hoff : lba.toNat+secsDone.toNat+i-lba.toNat = secsDone.toNat+i := by omega
  dsimp only [Function.comp_apply]
  rw [hout,wordsAt_drop,wordsAt_take (by omega),haddr,hoff]

end Calls

/-- In the place of the argument that ide_read does not pass stands the number of words of every
chunk. -/
def PassesWords (missing : BitVec 32 → BitVec 32) (secCnt : ℕ) : Prop :=
  ∀ i, 256*i < secCnt →
    (missing (BitVec.ofNat 32 (256*i))).toNat = 256*min 256 (secCnt-256*i)

section Results
variable (missing : BitVec 32 → BitVec 32) (hd : Disk) (mem : BitVec 32 → BitVec 8)
  (lba buf secCnt : BitVec 32) (n : ℕ) (ready : List IdeOp → Bool)

/-- The loop of ide_read ends, and its commands cover the request in order, each followed by its
words. -/
def ReadsRequest : Prop :=
  ∃ es, perform ready [] (ideRead missing hd lba buf secCnt n) = .ok es ∧
    Transfers cmdReadSector (decide (hd.devNo = 1)) lba.toNat secCnt.toNat
      (commandsOf hd.myChannel mem es) ∧
    ∀ c ∈ commandsOf hd.myChannel mem es, c.data = [.input (256*c.count)]

/-- The same of ide_write, which takes the words from buf. -/
def WritesRequest : Prop :=
  ∃ es, perform ready [] (ideWrite hd lba buf secCnt n) = .ok es ∧
    Transfers cmdWriteSector (decide (hd.devNo = 1)) lba.toNat secCnt.toNat
      (commandsOf hd.myChannel mem es) ∧
    (∀ c ∈ commandsOf hd.myChannel mem es,
      c.data = [.output c.output] ∧ c.output.length = 256*c.count) ∧
    (commandsOf hd.myChannel mem es).flatMap AtaCommand.sent =
      (List.range secCnt.toNat).map fun i =>
        (lba.toNat+i,wordsAt mem (buf+BitVec.ofNat 32 (512*i)) 256)

section
variable {missing hd mem lba buf secCnt n ready} (hready : ∀ es, ready es = true)
  (h0 : 1 ≤ secCnt.toNat) (hend : lba.toNat+secCnt.toNat ≤ maxLba.toNat+1)
  (hn : secCnt.toNat+256 ≤ 256*n)
include hready h0 hend hn

theorem ideWrite_transfers : WritesRequest hd mem lba buf secCnt n ready := by
  have hbody := writeRound_does hd mem lba buf
  have hrun := call_returns "ide_write" hbody hready h0 hend hn
  obtain ⟨-,-,hrange,hcs⟩ := call_commands hbody hrun
  refine ⟨_,hrun,call_transfers hbody hrun,fun c hc => ?_,?_⟩
  · rw [hcs] at hc
    obtain ⟨r,-,rfl⟩ := List.mem_map.mp hc
    simp [AtaCommand.output]
  · rw [hcs,List.flatMap_map]
    simp only [sent_eq]
    rw [← List.map_flatMap,hrange,List.range'_eq_map_range,List.map_map]
    refine List.map_congr_left fun i _ => ?_
    dsimp only [Function.comp_apply]
    rw [Nat.add_sub_cancel_left]

/-- ide_read covers the sectors in any case, and moves the words that the missing argument says. -/
theorem ideRead_transfers_iff :
    ReadsRequest missing hd mem lba buf secCnt n ready ↔ PassesWords missing secCnt.toNat := by
  have hbody := readRound_does missing hd mem lba buf
  have hrun := call_returns "ide_read" hbody hready h0 hend hn
  obtain ⟨-,-,-,hcs⟩ := call_commands hbody hrun
  have hz : (0 : BitVec 32).toNat = 0 := rfl
  have hw : secCnt.toNat+256 < 2^32 := by
    rw [maxLba_toNat] at hend
    omega
  have hrounds : (∀ r ∈ ideLoop "ide_read" (readRound missing hd lba buf) secCnt 0 n,
      (missing r.secsDone).toNat = 256*r.secsOp.toNat) ↔ PassesWords missing secCnt.toNat := by
    have h := ideLoop_rounds (readRound missing hd lba buf) "ide_read"
      (P := fun d k => (missing (BitVec.ofNat 32 d)).toNat = 256*k) hw (Nat.zero_le _) (by rwa [hz])
    simpa only [hz,Nat.zero_add,BitVec.ofNat_toNat,BitVec.setWidth_eq,PassesWords] using h
  rw [← hrounds]
  constructor
  · rintro ⟨es,hes,-,hdata⟩ r hr
    obtain rfl := Except.ok.inj (hrun.symm.trans hes)
    rw [hcs] at hdata
    have hphase := hdata _ (List.mem_map_of_mem hr)
    simpa using hphase
  · intro h
    refine ⟨_,hrun,call_transfers hbody hrun,fun c hc => ?_⟩
    rw [hcs] at hc
    obtain ⟨r,hr,rfl⟩ := List.mem_map.mp hc
    dsimp only
    rw [h r hr]

end

/-- ide_write transfers every request that ends on the disk, and ide_read those for which the
argument that it does not pass happens to be right. -/
theorem ide_transfers_iff (hready : ∀ es, ready es = true) (h0 : 1 ≤ secCnt.toNat)
    (hend : lba.toNat+secCnt.toNat ≤ maxLba.toNat+1) (hn : secCnt.toNat+256 ≤ 256*n) :
    (ReadsRequest missing hd mem lba buf secCnt n ready ∧
      WritesRequest hd mem lba buf secCnt n ready) ↔ PassesWords missing secCnt.toNat :=
  (and_iff_left (ideWrite_transfers hready h0 hend hn)).trans
    (ideRead_transfers_iff hready h0 hend hn)

/-- No command reaches past the disk, and neither sum of the loop wraps. -/
structure StaysOnDisk (lba : BitVec 32) (rounds : List IdeRound) (cs : List AtaCommand) :
    Prop where
  sectors : ∀ c ∈ cs, ∀ s ∈ c.sectors, s ≤ maxLba.toNat
  noWrap : ∀ r ∈ rounds, r.secsDone.toNat+256 < 2^32 ∧ lba.toNat+r.secsDone.toNat < 2^32

variable {hd mem lba secCnt n ready}

theorem call_stays_iff {cmd : BitVec 8} {phase : BitVec 32 → BitVec 32 → DataPhase}
    {body : BitVec 32 → BitVec 32 → List IdeOp} {func : String} {es : List IdeOp}
    (hbody : RoundDoes hd mem lba cmd phase body)
    (h : perform ready [] (ideCall func hd lba secCnt (ideLoop func body secCnt 0 n)) = .ok es) :
    StaysOnDisk lba (ideLoop func body secCnt 0 n) (commandsOf hd.myChannel mem es) ↔
      lba.toNat+secCnt.toNat ≤ maxLba.toNat+1 := by
  obtain ⟨-,hsound,-,-⟩ := call_commands hbody h
  have hsectors := (call_transfers hbody h).sectors
  have hpos : 0 < secCnt.toNat := by
    have hcheck := (perform_ok h).2
      (.check (decide (secCnt > 0)) (.assert func "sec_cnt > 0")) (by simp [ideCall])
    exact of_decide_eq_true hcheck
  constructor
  · intro hs
    have hlast : lba.toNat+secCnt.toNat-1 ∈
        (commandsOf hd.myChannel mem es).flatMap AtaCommand.sectors := by
      rw [hsectors,List.mem_range'_1]
      omega
    obtain ⟨c,hc,hmem⟩ := List.mem_flatMap.mp hlast
    have hle := hs.sectors c hc _ hmem
    omega
  · intro hend
    refine ⟨fun c hc s hmem => ?_,fun r hr => ?_⟩
    · have hmem' : s ∈ (commandsOf hd.myChannel mem es).flatMap AtaCommand.sectors :=
        List.mem_flatMap.mpr ⟨c,hc,hmem⟩
      rw [hsectors,List.mem_range'_1] at hmem'
      omega
    · have hstart := (hsound r hr).start
      rw [maxLba_toNat] at hstart
      omega

variable (hd mem lba secCnt n ready)

/-- A call that has returned has stayed on the disk exactly if its last sector lies there. -/
theorem ide_stays_iff :
    (∀ es, perform ready [] (ideRead missing hd lba buf secCnt n) = .ok es →
      (StaysOnDisk lba (readRounds missing hd lba buf secCnt n) (commandsOf hd.myChannel mem es) ↔
        lba.toNat+secCnt.toNat ≤ maxLba.toNat+1)) ∧
    ∀ es, perform ready [] (ideWrite hd lba buf secCnt n) = .ok es →
      (StaysOnDisk lba (writeRounds hd lba buf secCnt n) (commandsOf hd.myChannel mem es) ↔
        lba.toNat+secCnt.toNat ≤ maxLba.toNat+1) :=
  ⟨fun _ h => call_stays_iff (readRound_does missing hd mem lba buf) h,
    fun _ h => call_stays_iff (writeRound_does hd mem lba buf) h⟩

/-- The second disk of the first channel. -/
def sdb : Disk := ⟨"sdb",⟨0x1f0,0x2e⟩,1⟩

/-- A request of two commands, and the numbers of words that ide_read would have to pass. -/
theorem ide_transfers_sdb :
    let missing : BitVec 32 → BitVec 32 := fun secsDone => if secsDone = 0 then 65536 else 512
    ReadsRequest missing sdb (fun _ => 0) 163582 0 258 3 (fun _ => true) ∧
      WritesRequest sdb (fun _ => 0) 163582 0 258 3 fun _ => true := by
  intro missing
  refine (ide_transfers_iff missing sdb (fun _ => 0) 163582 0 258 3 (fun _ => true) (fun _ => rfl)
    (by decide) (by decide) (by decide)).mpr fun i hi => ?_
  have hcnt : (258 : BitVec 32).toNat = 258 := rfl
  rw [hcnt] at hi ⊢
  obtain rfl | rfl : i = 0 ∨ i = 1 := by omega
  · rfl
  · rfl

/-- One sector is read, and insw finds a zero where it takes the number of words. -/
theorem ideRead_noWords : ¬ (ReadsRequest (fun _ => 0) sdb (fun _ => 0) 0 0 1 2 (fun _ => true) ∧
    WritesRequest sdb (fun _ => 0) 0 0 1 2 fun _ => true) := by
  rintro ⟨hreads,-⟩
  have hwords := (ideRead_transfers_iff (fun _ => rfl) (by decide) (by decide)
    (by decide)).mp hreads
  exact absurd (hwords 0 (by decide)) (by decide)

theorem ide_stays_sdb : StaysOnDisk 0 (readRounds (fun _ => 0) sdb 0 0 1 2)
    (commandsOf sdb.myChannel (fun _ => 0) (ideRead (fun _ => 0) sdb 0 0 1 2)) :=
  ((ide_stays_iff (fun _ => 0) sdb (fun _ => 0) 0 0 1 2 (fun _ => true)).1 _ (by rfl)).mpr
    (by decide)

/-- Two sectors from the last one on are read, and the second one does not exist. -/
theorem ideRead_past_end :
    perform (fun _ => true) [] (ideRead (fun _ => 512) sdb maxLba 0 2 2) =
      .ok (ideRead (fun _ => 512) sdb maxLba 0 2 2) ∧
    commandsOf sdb.myChannel (fun _ => 0) (ideRead (fun _ => 512) sdb maxLba 0 2 2) =
      [⟨cmdReadSector,true,true,163839,2,[.input 512]⟩] ∧
    ¬ StaysOnDisk maxLba (readRounds (fun _ => 512) sdb maxLba 0 2 2)
      (commandsOf sdb.myChannel (fun _ => 0) (ideRead (fun _ => 512) sdb maxLba 0 2 2)) := by
  have hcs : commandsOf sdb.myChannel (fun _ => 0) (ideRead (fun _ => 512) sdb maxLba 0 2 2) =
      [⟨cmdReadSector,true,true,163839,2,[.input 512]⟩] := by decide
  refine ⟨by rfl,hcs,fun h => ?_⟩
  rw [hcs] at h
  exact absurd (h.sectors _ List.mem_cons_self 163840 (by decide)) (by decide)

end Results
end OsKernel

import OsKernel.Device.IdeThreads

/-! The order of the operations in a call of ide_read or ide_write, as an automaton that follows
the channel: every command is announced by the flag before it and completed after it. -/
namespace OsKernel

/-- What a thread has done to the channel. -/
inductive IdePhase
  /-- The thread does not hold the lock. -/
  | outside
  /-- It holds the lock, and no command is on its way. -/
  | idle
  /-- expecting_intr has been set for a command. -/
  | expecting
  /-- The command has been written. -/
  | issued
  deriving DecidableEq

namespace IdePhase

/-- The phase after an operation, if the operation is in order. -/
def after (cmdPort : BitVec 16) (ph : IdePhase) : IdeOp → Option IdePhase
  | .lockAcquire => if ph = .outside then some .idle else none
  | .lockRelease => if ph = .idle then some .outside else none
  | .outb port _ =>
    if port = cmdPort then if ph = .expecting then some .issued else none
    else if ph = .expecting then none else some ph
  | .expectIntr => if ph = .idle then some .expecting else none
  | .semaDown => if ph = .issued then some .idle else none
  | .check _ _ => some ph
  | .busyWait _ => some ph
  | .insw _ _ _ => some ph
  | .outsw _ _ _ => some ph

def run (cmdPort : BitVec 16) (ph : IdePhase) (ops : List IdeOp) : Option IdePhase :=
  ops.foldlM (after cmdPort) ph

/-- What is left of a call is in order, and leaves the channel to others in the end. -/
def Follows (cmdPort : BitVec 16) (ph : IdePhase) (ops : List IdeOp) : Prop :=
  ph.run cmdPort ops = some .outside

variable {cmdPort : BitVec 16} {ph ph' : IdePhase} {o : IdeOp} {ops ops' : List IdeOp}

theorem run_append (h : ph.run cmdPort ops = some ph') :
    ph.run cmdPort (ops++ops') = ph'.run cmdPort ops' := by
  unfold run at h ⊢
  rw [List.foldlM_append,h]
  rfl

theorem Follows.cons (h : ph.Follows cmdPort (o::ops)) :
    ∃ ph', ph.after cmdPort o = some ph' ∧ ph'.Follows cmdPort ops := by
  unfold Follows run at h
  rw [List.foldlM_cons] at h
  obtain ⟨ph',hph,hops⟩ := Option.bind_eq_some_iff.mp h
  exact ⟨ph',hph,hops⟩

theorem follows_nil (h : ph.Follows cmdPort []) : ph = .outside := Option.some.inj h

end IdePhase

section Calls
variable {hd : Disk} {lba buf secCnt secsDone secsOp : BitVec 32} {rounds n : ℕ} {func : String}
  {body : BitVec 32 → BitVec 32 → List IdeOp} {ops : List IdeOp} {channel : IdeChannel}

/-- The ports of a channel are different. -/
theorem IdeChannel.reg_ne_cmd (channel : IdeChannel) : channel.regSectCnt ≠ channel.regCmd ∧
    channel.regLbaL ≠ channel.regCmd ∧ channel.regLbaM ≠ channel.regCmd ∧
    channel.regLbaH ≠ channel.regCmd ∧ channel.regDev ≠ channel.regCmd := by
  simp [regSectCnt,regLbaL,regLbaM,regLbaH,regDev,regCmd,regStatus]

theorem run_selectDisk (hd : Disk) :
    IdePhase.idle.run hd.myChannel.regCmd (selectDisk hd) = some .idle := by
  have hne := hd.myChannel.reg_ne_cmd
  simp [IdePhase.run,selectDisk,IdePhase.after,hne]

theorem run_select_cmd (hd : Disk) (lba : BitVec 32) (cnt cmd : BitVec 8) :
    IdePhase.idle.run hd.myChannel.regCmd (selectSector hd lba cnt ++
      cmdOut hd.myChannel cmd) = some .issued := by
  have hne := hd.myChannel.reg_ne_cmd
  simp [IdePhase.run,selectSector,cmdOut,IdePhase.after,hne]

theorem run_readRound {missing : BitVec 32 → BitVec 32} : IdePhase.idle.run hd.myChannel.regCmd
    (readRound missing hd lba buf secsDone secsOp) = some .idle := by
  unfold readRound
  rw [List.append_assoc,List.append_assoc,IdePhase.run_append (run_select_cmd _ _ _ _)]
  rfl

theorem run_writeRound : IdePhase.idle.run hd.myChannel.regCmd
    (writeRound hd lba buf secsDone secsOp) = some .idle := by
  unfold writeRound
  rw [List.append_assoc,List.append_assoc,IdePhase.run_append (run_select_cmd _ _ _ _)]
  rfl

/-- Every round leaves the channel as it has found it, and so does the loop. -/
theorem run_ideLoop {cmdPort : BitVec 16}
    (hbody : ∀ secsDone secsOp, IdePhase.idle.run cmdPort (body secsDone secsOp) = some .idle) :
    IdePhase.idle.run cmdPort ((ideLoop func body secCnt secsDone n).flatMap IdeRound.ops) =
      some .idle := by
  induction n generalizing secsDone with
  | zero => rfl
  | succ n ih =>
    unfold ideLoop
    split
    · rw [List.flatMap_cons,IdePhase.run_append (hbody _ _)]
      exact ih
    · rfl

theorem follows_ideCall (hbody : ∀ secsDone secsOp, IdePhase.idle.run hd.myChannel.regCmd
    (body secsDone secsOp) = some .idle) : IdePhase.outside.Follows hd.myChannel.regCmd
      (ideCall func hd lba secCnt (ideLoop func body secCnt secsDone n)) := by
  have hstart : IdePhase.outside.run hd.myChannel.regCmd
      [.check (decide (lba ≤ maxLba)) (.assert func "lba <= max_lba"),
        .check (decide (secCnt > 0)) (.assert func "sec_cnt > 0"),.lockAcquire] = some .idle := rfl
  unfold IdePhase.Follows ideCall
  rw [List.append_assoc,List.append_assoc,IdePhase.run_append hstart,
    IdePhase.run_append (run_selectDisk hd),IdePhase.run_append (run_ideLoop hbody)]
  rfl

theorem IdeSys.Call.follows (h : IdeSys.Call channel ops) :
    IdePhase.outside.Follows channel.regCmd ops := by
  cases h with
  | read missing hd hc lba buf secCnt rounds =>
    subst hc
    exact follows_ideCall fun _ _ => run_readRound
  | write hd hc lba buf secCnt rounds =>
    subst hc
    exact follows_ideCall fun _ _ => run_writeRound

/-- No failure of the driver itself looks like one of the semaphores. -/
def IdeOp.Tame : IdeOp → Prop
  | .check _ e => ¬ IdeSys.SemaPanic e
  | .busyWait e => ¬ IdeSys.SemaPanic e
  | _ => True

theorem tame_ideLoop (hbody : ∀ secsDone secsOp, ∀ o ∈ body secsDone secsOp, o.Tame) :
    ∀ o ∈ (ideLoop func body secCnt secsDone n).flatMap IdeRound.ops, o.Tame := by
  induction n generalizing secsDone with
  | zero => simp [ideLoop,IdeOp.Tame,IdeSys.SemaPanic]
  | succ n ih =>
    unfold ideLoop
    split
    · intro o ho
      rw [List.flatMap_cons] at ho
      rcases List.mem_append.mp ho with ho | ho
      · exact hbody _ _ o ho
      · exact ih o ho
    · simp

theorem tame_ideCall {list : List IdeRound} (hfunc : func = "ide_read" ∨ func = "ide_write")
    (hlist : ∀ o ∈ list.flatMap IdeRound.ops, o.Tame) :
    ∀ o ∈ ideCall func hd lba secCnt list, o.Tame := by
  intro o ho
  simp only [ideCall,selectDisk,List.mem_append,List.mem_cons,List.not_mem_nil,or_false] at ho
  rcases ho with (((rfl | rfl | rfl) | rfl) | ho) | rfl
  · obtain rfl | rfl := hfunc <;> simp [IdeOp.Tame,IdeSys.SemaPanic]
  · obtain rfl | rfl := hfunc <;> simp [IdeOp.Tame,IdeSys.SemaPanic]
  · trivial
  · trivial
  · exact hlist o ho
  · trivial

theorem IdeSys.Call.tame (h : IdeSys.Call channel ops) : ∀ o ∈ ops, o.Tame := by
  cases h with
  | read missing hd hc lba buf secCnt rounds =>
    refine tame_ideCall (.inl rfl) (tame_ideLoop fun _ _ => ?_)
    simp [readRound,selectSector,cmdOut,readFromSector,IdeOp.Tame,IdeSys.SemaPanic]
  | write hd hc lba buf secCnt rounds =>
    refine tame_ideCall (.inr rfl) (tame_ideLoop fun _ _ => ?_)
    simp [writeRound,selectSector,cmdOut,write2sector,IdeOp.Tame,IdeSys.SemaPanic]

end Calls
end OsKernel

import OsKernel.Device.Ide
import OsKernel.Device.Timer

/-! The wait for a ready disk. The subtrahend of its loop condition is the comparison 10 >= 0, so
that the time limit goes down by one and not by ten, and inb has no parameter for the mask that it
is called with. -/
namespace OsKernel

def bitStatBsy : BitVec 8 := 0x80
def bitStatDrq : BitVec 8 := 0x8

/-- How a call of busy_wait ends, with the unsuccessful polls before that. -/
inductive BusyWait
  | returns (value : BitVec 32) (polls : ℕ)
  /-- after the loop, where no return statement follows -/
  | noReturn (polls : ℕ)
  /-- mtime_sleep has not come back -/
  | sleeps (polls : ℕ)
  deriving DecidableEq

/-- A byte from a port. Further arguments of the call are not looked at. -/
def inb (reading _mask : BitVec 8) : BitVec 8 := reading

/-- The value of a comparison. -/
def ofComparison (p : Prop) [Decidable p] : BitVec 16 := if p then 1 else 0

/-- The while loop, with the readings of the status register and the outcomes of the calls of
mtime_sleep in turn. The value none means that it has not ended after the given rounds. -/
def busyWaitLoop (status : ℕ → BitVec 8) (sleep : ℕ → Except Panic (Option ℕ))
    (timeLimit : BitVec 16) (polls : ℕ) : ℕ → Option (Except Panic BusyWait)
  | 0 => none
  | rounds+1 =>
    let timeLimit := timeLimit-ofComparison ((10 : ℤ) ≥ 0)
    if timeLimit ≠ 0 then
      if inb (status polls) bitStatBsy = 0 then
        some (.ok (.returns ((status (polls+1) &&& bitStatDrq).setWidth 32) polls))
      else
        match sleep polls with
        | .error e => some (.error e)
        | .ok none => some (.ok (.sleeps (polls+1)))
        | .ok (some _) => busyWaitLoop status sleep timeLimit (polls+1) rounds
    else some (.ok (.noReturn polls))

/-- The ticks and yields are those of each call of mtime_sleep. -/
def busyWait (status : ℕ → BitVec 8) (ticks : ℕ → BitVec 32) (yields : ℕ → List ℕ) (rounds : ℕ) :
    Option (Except Panic BusyWait) :=
  busyWaitLoop status (fun i => mtimeSleep 10 (ticks i) (yields i)) (30*1000) 0 rounds

/-- if(!busy_wait(hd)) PANIC(error), as ide_read and ide_write have it. A value is used that a
call without a return statement does not give. -/
def checkReady (result : Option (Except Panic BusyWait)) (e : Panic) :
    Option (Except Panic Unit) :=
  match result with
  | some (.ok (.returns value _)) => some (if value = 0 then .error e else .ok ())
  | some (.ok (.noReturn _)) => some (.error (.undefined "busy_wait"))
  | some (.ok (.sleeps _)) => none
  | some (.error e') => some (.error e')
  | none => none

/-- The disk is ready after at most 3000 polls: the status that follows the first one without BSY
has DRQ. -/
def Ready (status : ℕ → BitVec 8) : Prop :=
  ∃ k < 3000, (∀ i < k, status i &&& bitStatBsy ≠ 0) ∧ status k &&& bitStatBsy = 0 ∧
    status (k+1) &&& bitStatDrq ≠ 0

/-- What the driver expects of busy_wait. -/
structure BoundedAnswer (status : ℕ → BitVec 8) (ticks : ℕ → BitVec 32) (yields : ℕ → List ℕ) :
    Prop where
  answers : ∃ rounds value polls,
    busyWait status ticks yields rounds = some (.ok (.returns value polls)) ∧ polls ≤ 3000 ∧
      (value ≠ 0 ↔ Ready status)
  fails : ¬ Ready status → ∀ e, ∃ rounds,
    checkReady (busyWait status ticks yields rounds) e = some (.error e)

section Loop
variable {status : ℕ → BitVec 8} {sleep : ℕ → Except Panic (Option ℕ)} {timeLimit : BitVec 16}
  {polls rounds : ℕ}

lemma timeLimit_ne (h : 1 < timeLimit.toNat) : timeLimit-ofComparison ((10 : ℤ) ≥ 0) ≠ 0 := by
  rw [ofComparison,if_pos (by decide)]
  bv_omega

lemma timeLimit_toNat (h : 0 < timeLimit.toNat) :
    (timeLimit-ofComparison ((10 : ℤ) ≥ 0)).toNat = timeLimit.toNat-1 := by
  rw [ofComparison,if_pos (by decide)]
  bv_omega

/-- A status of zero is followed by the answer. -/
lemma busyWaitLoop_zero (h : 1 < timeLimit.toNat) (hz : status polls = 0) :
    busyWaitLoop status sleep timeLimit polls (rounds+1) =
      some (.ok (.returns ((status (polls+1) &&& bitStatDrq).setWidth 32) polls)) := by
  rw [busyWaitLoop,if_pos (timeLimit_ne h),inb,if_pos hz]

/-- Any other status is followed by a sleep. -/
lemma busyWaitLoop_sleep (h : 1 < timeLimit.toNat) (hz : status polls ≠ 0) {t : ℕ}
    (hs : sleep polls = .ok (some t)) :
    busyWaitLoop status sleep timeLimit polls (rounds+1) =
      busyWaitLoop status sleep (timeLimit-ofComparison ((10 : ℤ) ≥ 0)) (polls+1) rounds := by
  rw [busyWaitLoop,if_pos (timeLimit_ne h),inb,if_neg hz,hs]

lemma busyWaitLoop_asserts (h : 1 < timeLimit.toNat) (hz : status polls ≠ 0) {e : Panic}
    (hs : sleep polls = .error e) :
    busyWaitLoop status sleep timeLimit polls (rounds+1) = some (.error e) := by
  rw [busyWaitLoop,if_pos (timeLimit_ne h),inb,if_neg hz,hs]

lemma busyWaitLoop_limit (h : timeLimit.toNat = 1) :
    busyWaitLoop status sleep timeLimit polls (rounds+1) = some (.ok (.noReturn polls)) := by
  have hz : timeLimit-ofComparison ((10 : ℤ) ≥ 0) = 0 := by
    rw [ofComparison,if_pos (by decide)]
    bv_omega
  rw [busyWaitLoop,if_neg (not_not.mpr hz)]

/-- The loop ends for every status history and all sleeps. -/
theorem busyWaitLoop_ends (h : 0 < timeLimit.toNat) (hr : timeLimit.toNat ≤ rounds) :
    ∃ r, busyWaitLoop status sleep timeLimit polls rounds = some r := by
  induction rounds generalizing timeLimit polls with
  | zero => exact absurd h (Nat.not_lt.mpr hr)
  | succ rounds ih =>
    rw [busyWaitLoop]
    split
    · split
      · exact ⟨_,rfl⟩
      · split
        · exact ⟨_,rfl⟩
        · exact ⟨_,rfl⟩
        · refine ih ?_ ?_
          · exact Nat.pos_of_ne_zero fun he => ‹_ ≠ (0 : BitVec 16)› (BitVec.eq_of_toNat_eq he)
          · rw [timeLimit_toNat h]
            omega
    · exact ⟨_,rfl⟩

/-- As long as the status is not zero and every sleep comes back, each poll takes one of the time
limit. -/
theorem busyWaitLoop_polls (hs : ∀ i, ∃ t, sleep i = .ok (some t)) {k : ℕ}
    (hk : k < timeLimit.toNat) (hz : ∀ i < k, status (polls+i) ≠ 0) (rounds : ℕ) :
    ∃ timeLimit', timeLimit'.toNat = timeLimit.toNat-k ∧
      busyWaitLoop status sleep timeLimit polls (rounds+k) =
        busyWaitLoop status sleep timeLimit' (polls+k) rounds := by
  induction k generalizing timeLimit polls with
  | zero => exact ⟨timeLimit,rfl,rfl⟩
  | succ k ih =>
    obtain ⟨t,ht⟩ := hs polls
    have hnext : (timeLimit-ofComparison ((10 : ℤ) ≥ 0)).toNat = timeLimit.toNat-1 :=
      timeLimit_toNat (Nat.zero_lt_of_lt hk)
    have hz' : ∀ i < k, status (polls+1+i) ≠ 0 := fun i hi => by
      have h := hz (i+1) (Nat.succ_lt_succ hi)
      rwa [Nat.add_comm i 1,← Nat.add_assoc] at h
    have hk' : k < (timeLimit-ofComparison ((10 : ℤ) ≥ 0)).toNat := by omega
    obtain ⟨timeLimit',hlimit,hrun⟩ := ih hk' hz'
    have hlt : 1 < timeLimit.toNat := by omega
    have hfirst : status polls ≠ 0 := hz 0 (Nat.succ_pos k)
    refine ⟨timeLimit',by omega,?_⟩
    rw [← Nat.add_assoc,busyWaitLoop_sleep hlt hfirst ht,hrun,Nat.add_assoc,Nat.add_comm 1 k]

/-- With a sleep that works, there would be 29999 polls, and no value after them. -/
theorem busyWaitLoop_sleeping (hs : ∀ i, ∃ t, sleep i = .ok (some t)) :
    (∀ k < 29999, (∀ i < k, status i ≠ 0) → status k = 0 →
      busyWaitLoop status sleep (30*1000) 0 (k+1) =
        some (.ok (.returns ((status (k+1) &&& bitStatDrq).setWidth 32) k))) ∧
    ((∀ i < 29999, status i ≠ 0) →
      busyWaitLoop status sleep (30*1000) 0 30000 = some (.ok (.noReturn 29999))) := by
  have hlimit : (30*1000 : BitVec 16).toNat = 30000 := by decide
  have hpolls {k : ℕ} (hk : k < (30*1000 : BitVec 16).toNat) (hz : ∀ i < k, status i ≠ 0) :
      ∃ timeLimit, timeLimit.toNat = (30*1000 : BitVec 16).toNat-k ∧
        busyWaitLoop status sleep (30*1000) 0 (1+k) =
          busyWaitLoop status sleep timeLimit k 1 := by
    have hz' : ∀ i < k, status (0+i) ≠ 0 := by simpa using hz
    have hrun := busyWaitLoop_polls hs hk hz' 1
    rwa [Nat.zero_add] at hrun
  constructor
  · intro k hk hbusy hz
    have hk' : k < (30*1000 : BitVec 16).toNat := by omega
    obtain ⟨timeLimit,hleft,hrun⟩ := hpolls hk' hbusy
    have hlt : 1 < timeLimit.toNat := by omega
    rw [Nat.add_comm k 1,hrun,busyWaitLoop_zero hlt hz,Nat.add_comm k 1]
  · intro hbusy
    have hk' : 29999 < (30*1000 : BitVec 16).toNat := by omega
    obtain ⟨timeLimit,hleft,hrun⟩ := hpolls hk' hbusy
    refine hrun.trans (busyWaitLoop_limit ?_)
    rw [hleft,hlimit]

end Loop

section Answers
variable {status : ℕ → BitVec 8} {ticks : ℕ → BitVec 32} {yields : ℕ → List ℕ} {rounds : ℕ}

/-- The sleep of ten milliseconds fails its assertion. -/
theorem busyWait_asserts (h : status 0 ≠ 0) : busyWait status ticks yields (rounds+1) =
    some (.error (.assert "mtime_sleep" "sleep_ticks > 0")) :=
  busyWaitLoop_asserts (by decide) h (mtimeSleep_asserts_iff.mpr (by decide))

theorem busyWait_zero (h : status 0 = 0) : busyWait status ticks yields (rounds+1) =
    some (.ok (.returns ((status 1 &&& bitStatDrq).setWidth 32) 0)) :=
  busyWaitLoop_zero (by decide) h

lemma ready_of_zero (h : status 0 = 0) : Ready status ↔ status 1 &&& bitStatDrq ≠ 0 := by
  have hbsy : status 0 &&& bitStatBsy = 0 := by rw [h]; rfl
  constructor
  · rintro ⟨k,-,hbusy,-,hdrq⟩
    cases k with
    | zero => exact hdrq
    | succ k => exact absurd hbsy (hbusy 0 (Nat.succ_pos k))
  · exact fun hdrq => ⟨0,by decide,by simp,hbsy,hdrq⟩

lemma setWidth_ne_zero {b : BitVec 8} : b.setWidth 32 ≠ 0 ↔ b ≠ 0 := by
  constructor
  · rintro h rfl
    exact h rfl
  · intro h h'
    exact h (by bv_omega)

/-- Where busy_wait answers, the operation of ide_read and ide_write that stands for it is the check
of the answer. -/
theorem perform_busyWait (hz : status 0 = 0) {ready : List IdeOp → Bool} {done ops : List IdeOp}
    (hready : ready done = decide (status 1 &&& bitStatDrq ≠ 0)) (e : Panic) :
    ∃ r, checkReady (busyWait status ticks yields 1) e = some r ∧
      perform ready done (.busyWait e::ops) =
        r >>= fun _ => perform ready (done++[.busyWait e]) ops := by
  rw [busyWait_zero hz,checkReady,perform,hready]
  refine ⟨_,rfl,?_⟩
  by_cases hdrq : status 1 &&& bitStatDrq = 0
  · rw [hdrq]
    rfl
  · rw [if_pos (decide_eq_true hdrq),if_neg (setWidth_ne_zero.mpr hdrq)]
    rfl

variable (status ticks yields)

/-- The answer is as expected if and only if the first status is zero. -/
theorem busyWait_bounded_iff : BoundedAnswer status ticks yields ↔ status 0 = 0 := by
  constructor
  · rintro ⟨⟨rounds,value,polls,hrun,-⟩,-⟩
    by_contra hz
    cases rounds with
    | zero => cases hrun
    | succ rounds =>
      rw [busyWait_asserts hz] at hrun
      cases hrun
  · intro hz
    have hiff := setWidth_ne_zero.trans (ready_of_zero hz).symm
    refine ⟨⟨1,_,0,busyWait_zero hz,Nat.zero_le _,hiff⟩,fun hready e => ⟨1,?_⟩⟩
    rw [busyWait_zero hz,checkReady,if_pos (not_not.mp fun hv => hready (hiff.mp hv))]

end Answers

/-- A disk that stays busy makes the caller fail in mtime_sleep. -/
theorem busyWait_fails : ¬ BoundedAnswer (fun _ => bitStatBsy) (fun _ => 0) fun _ => [] := by
  intro h
  obtain ⟨rounds,value,polls,hrun,-⟩ := h.answers
  cases rounds with
  | zero => cases hrun
  | succ rounds =>
    rw [busyWait_asserts (by decide)] at hrun
    cases hrun

end OsKernel

import OsKernel.Debug

/-! The timer: how timer_init programs the counter, and the sleeps that count its interrupts.
The macro mil_second_per_init is a quotient without parentheses, and frequency_set narrows the
counter value before it shifts it. -/
namespace OsKernel

def irq0Frequency : ℕ := 100
def inputFrequency : ℕ := 1193180
def counter0Value : BitVec 16 := BitVec.ofNat 16 (inputFrequency/irq0Frequency)
def counter0Port : BitVec 8 := 0x40
def counter0No : BitVec 8 := 0
def counterMode : BitVec 8 := 2
def readWriteLatch : BitVec 8 := 3
def pitControlPort : BitVec 8 := 0x43

/-- The bytes written, each with its port. The cast binds tighter than the shift. -/
def frequencySet (counterPort counterNo rwl counterMode : BitVec 8) (counterValue : BitVec 16) :
    List (BitVec 8 × BitVec 8) :=
  [(pitControlPort,counterNo <<< 6 ||| rwl <<< 4 ||| counterMode <<< 1),
    (counterPort,counterValue.setWidth 8), (counterPort,counterValue.setWidth 8 >>> 8)]

/-- The writes of timer_init. It also prints, and registers intr_timer_handler. -/
def timerInit : List (BitVec 8 × BitVec 8) :=
  frequencySet counter0Port counter0No readWriteLatch counterMode counter0Value

/-- The counter takes the low byte of its reload value first, then the high one. -/
def reloadOf (port : BitVec 8) (writes : List (BitVec 8 × BitVec 8)) : ℕ :=
  match writes.filter (fun w => w.1 == port) with
  | [low,high] => low.2.toNat+256*high.2.toNat
  | _ => 0

/-- Every interrupt of the timer counts one tick. -/
def intrTimerHandlerTicks (ticks : BitVec 32) : BitVec 32 := ticks+1

/-- The tests of ticks_to_sleep, with elapsed ticks since the call at the first one; the list gives
the ticks that pass during each thread_yield. It returns the ticks that have passed, or nothing if
the caller still sleeps after the last of them. -/
def ticksToSleepLoop (startTick sleepTicks ticks : BitVec 32) (elapsed : ℕ) :
    List ℕ → Option ℕ
  | [] => if ticks-startTick < sleepTicks then none else some elapsed
  | n::yields =>
    if ticks-startTick < sleepTicks then
      ticksToSleepLoop startTick sleepTicks (intrTimerHandlerTicks^[n] ticks) (elapsed+n) yields
    else some elapsed

def ticksToSleep (sleepTicks ticks : BitVec 32) (yields : List ℕ) : Option ℕ :=
  let startTick := ticks
  ticksToSleepLoop startTick sleepTicks ticks 0 yields

/-- DIV_ROUND_UP(m_seconds,1000 / IRQ0_FREQUENCY), as the preprocessor writes it out:
(m_seconds + 1000 / 100 - 1) / 1000 / 100. -/
def sleepTicksOf (mSeconds : BitVec 32) : BitVec 32 :=
  (mSeconds+1000/100-1)/1000/100

def mtimeSleep (mSeconds ticks : BitVec 32) (yields : List ℕ) : Except Panic (Option ℕ) :=
  let sleepTicks := sleepTicksOf mSeconds
  assert (sleepTicks > 0) "mtime_sleep" "sleep_ticks > 0" >>= fun _ =>
    .ok (ticksToSleep sleepTicks ticks yields)

/-- What a caller of mtime_sleep expects, whatever thread_yield does: no assertion fails, a tick
period of R/1193180 seconds makes the ticks that have passed at least as long as the time asked
for, and the call is over when enough ticks of ten milliseconds have been counted. -/
structure SleepsWell (mSeconds ticks : BitVec 32) : Prop where
  noAssert : ∀ yields, ∃ r, mtimeSleep mSeconds ticks yields = .ok r
  enough : ∀ yields e, mtimeSleep mSeconds ticks yields = .ok (some e) →
    mSeconds.toNat*inputFrequency ≤ e*reloadOf counter0Port timerInit*1000
  returns : ∀ yields : List ℕ, (mSeconds.toNat+9)/10 ≤ yields.sum → yields.sum < 2^32 →
    ∃ e, mtimeSleep mSeconds ticks yields = .ok (some e)

/-- The high byte is lost: the counter is set to 155 and not to 11931. -/
theorem reloadOf_timerInit : reloadOf counter0Port timerInit = 155 := by decide

theorem iterate_intrTimerHandlerTicks (n : ℕ) (ticks : BitVec 32) :
    intrTimerHandlerTicks^[n] ticks = ticks+BitVec.ofNat 32 n := by
  induction n generalizing ticks with
  | zero => simp
  | succ n ih =>
    rw [Function.iterate_succ_apply,ih,intrTimerHandlerTicks,BitVec.add_assoc,
      show n+1 = 1+n from Nat.add_comm n 1,BitVec.ofNat_add]
    rfl

section Sleep
variable {start sleepTicks ticks mSeconds : BitVec 32} {elapsed e : ℕ} {yields : List ℕ}

/-- The counter wraps, and its difference is still the number of ticks modulo 2^32. -/
theorem sleeps_iff (h : ticks = start+BitVec.ofNat 32 elapsed) :
    ticks-start < sleepTicks ↔ elapsed % 2^32 < sleepTicks.toNat := by
  rw [BitVec.lt_def,h,BitVec.add_comm,BitVec.add_sub_cancel,BitVec.toNat_ofNat]

theorem le_of_not_sleeps (h : ticks = start+BitVec.ofNat 32 elapsed)
    (hn : ¬ ticks-start < sleepTicks) : sleepTicks.toNat ≤ elapsed :=
  (Nat.le_of_not_lt fun hl => hn ((sleeps_iff h).mpr hl)).trans (Nat.mod_le elapsed _)

theorem ticks_after (h : ticks = start+BitVec.ofNat 32 elapsed) (n : ℕ) :
    intrTimerHandlerTicks^[n] ticks = start+BitVec.ofNat 32 (elapsed+n) := by
  rw [iterate_intrTimerHandlerTicks,h,BitVec.add_assoc,BitVec.ofNat_add]

/-- A sleep is never shorter than its number of ticks. -/
theorem ticksToSleepLoop_lasts (h : ticks = start+BitVec.ofNat 32 elapsed)
    (hr : ticksToSleepLoop start sleepTicks ticks elapsed yields = some e) :
    sleepTicks.toNat ≤ e := by
  induction yields generalizing ticks elapsed with
  | nil =>
    rw [ticksToSleepLoop] at hr
    split at hr
    · cases hr
    · obtain rfl := Option.some.inj hr
      exact le_of_not_sleeps h ‹_›
  | cons n yields ih =>
    rw [ticksToSleepLoop] at hr
    split at hr
    · exact ih (ticks_after h n) hr
    · obtain rfl := Option.some.inj hr
      exact le_of_not_sleeps h ‹_›

/-- It is over at the test after its last tick, if the counter has not come round by then. -/
theorem ticksToSleepLoop_returns (h : ticks = start+BitVec.ofNat 32 elapsed)
    (hle : sleepTicks.toNat ≤ elapsed+yields.sum) (hlt : elapsed+yields.sum < 2^32) :
    ∃ e, ticksToSleepLoop start sleepTicks ticks elapsed yields = some e ∧
      e ≤ elapsed+yields.sum := by
  induction yields generalizing ticks elapsed with
  | nil =>
    simp only [List.sum_nil,Nat.add_zero] at hle hlt
    have hn : ¬ ticks-start < sleepTicks := by
      rw [sleeps_iff h,Nat.mod_eq_of_lt hlt]
      exact Nat.not_lt.mpr hle
    rw [ticksToSleepLoop,if_neg hn]
    exact ⟨elapsed,rfl,Nat.le_add_right _ _⟩
  | cons n yields ih =>
    rw [List.sum_cons,← Nat.add_assoc] at hle hlt ⊢
    rw [ticksToSleepLoop]
    split
    · exact ih (ticks_after h n) hle hlt
    · exact ⟨elapsed,rfl,by omega⟩

theorem sleepTicksOf_toNat :
    (sleepTicksOf mSeconds).toNat = (mSeconds.toNat+9) % 2^32 / 100000 := by
  have h : mSeconds+1000/100-1 = mSeconds+9 := by
    rw [BitVec.sub_eq_add_neg,BitVec.add_assoc]
    rfl
  rw [sleepTicksOf,h,BitVec.toNat_udiv,BitVec.toNat_udiv,BitVec.toNat_add]
  change (mSeconds.toNat+9) % 2^32/1000/100 = _
  rw [Nat.div_div_eq_div_mul]

/-- The macro divides by 1000 and by 100, and not by their quotient: a sleep of less than about
100 seconds, or of nearly 2^32 milliseconds, fails the assertion. -/
theorem mtimeSleep_asserts_iff : mtimeSleep mSeconds ticks yields =
    .error (.assert "mtime_sleep" "sleep_ticks > 0") ↔ (mSeconds.toNat+9) % 2^32 < 100000 := by
  have hpos : sleepTicksOf mSeconds > 0 ↔ ¬ (mSeconds.toNat+9) % 2^32 < 100000 := by
    rw [gt_iff_lt,BitVec.lt_def,sleepTicksOf_toNat]
    change 0 < _ ↔ _
    omega
  rw [mtimeSleep]
  by_cases h : (mSeconds.toNat+9) % 2^32 < 100000
  · rw [assert,if_neg fun hp => hpos.mp hp h]
    exact ⟨fun _ => h,fun _ => rfl⟩
  · rw [assert_of (hpos.mpr h),bind_of_ok rfl]
    constructor
    · intro he
      cases he
    · exact fun hl => absurd hl h

theorem mtimeSleep_of_le (h : 100000 ≤ (mSeconds.toNat+9) % 2^32) :
    mtimeSleep mSeconds ticks yields = .ok (ticksToSleep (sleepTicksOf mSeconds) ticks yields) := by
  have hpos : sleepTicksOf mSeconds > 0 := by
    rw [gt_iff_lt,BitVec.lt_def,sleepTicksOf_toNat]
    change 0 < _
    omega
  rw [mtimeSleep,assert_of hpos]
  rfl

/-- No sleep lasts as long as asked: it fails its assertion, or it is over after one tick for
every 100 seconds. -/
theorem mtimeSleep_never (h : 0 < mSeconds.toNat) : ¬ SleepsWell mSeconds ticks := by
  intro hs
  have hlt := mSeconds.isLt
  by_cases hm : (mSeconds.toNat+9) % 2^32 < 100000
  · obtain ⟨r,hr⟩ := hs.noAssert []
    rw [mtimeSleep_asserts_iff.mpr hm] at hr
    cases hr
  · have hm' := Nat.le_of_not_lt hm
    -- the only yield of this run lasts exactly as many ticks as the macro computes
    obtain ⟨e,he,hle⟩ : ∃ e, ticksToSleepLoop ticks (sleepTicksOf mSeconds) ticks 0
        [(sleepTicksOf mSeconds).toNat] = some e ∧ e ≤ 0+[(sleepTicksOf mSeconds).toNat].sum :=
      ticksToSleepLoop_returns (by simp) (by simp) (by simpa using (sleepTicksOf mSeconds).isLt)
    have hen := hs.enough [(sleepTicksOf mSeconds).toNat] e
      ((mtimeSleep_of_le hm').trans (congrArg Except.ok he))
    rw [reloadOf_timerInit,inputFrequency] at hen
    rw [List.sum_singleton,Nat.zero_add,sleepTicksOf_toNat] at hle
    have hmod := Nat.mod_le (mSeconds.toNat+9) (2^32)
    omega

theorem mtimeSleep_never_second : ¬ SleepsWell 1000 4294967290 :=
  mtimeSleep_never (by decide)

/-- A sleep of one millisecond fails the assertion at once. -/
theorem mtimeSleep_one : mtimeSleep 1 0 [] =
    .error (.assert "mtime_sleep" "sleep_ticks > 0") ∧ ¬ SleepsWell 1 0 := by
  have h : mtimeSleep 1 0 [] = .error (.assert "mtime_sleep" "sleep_ticks > 0") := by decide
  refine ⟨h,fun hs => ?_⟩
  obtain ⟨r,hr⟩ := hs.noAssert []
  rw [h] at hr
  cases hr

end Sleep
end OsKernel

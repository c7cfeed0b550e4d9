import OsKernel.Thread.LockRuns

/-! How far a statement of a lock function takes the thread that has called it. -/
namespace OsKernel

namespace LockPc

/-- A lock_acquire of a thread that does not hold the lock. -/
def Acquiring : LockPc → Prop
  | .acquireTest | .semaDown | .semaDownWait | .setHolder | .assertZero | .setOne => True
  | _ => False

/-- A lock_release that is not nested. -/
def Releasing : LockPc → Prop
  | .assertHolder | .releaseTest | .assertOne | .clearHolder | .clearNr | .semaUp => True
  | _ => False

end LockPc

section LockStatements
variable {s s' : LockSys} {own : Option TaskId}

theorem LockSys.goto_pc (s : LockSys) (p : LockPc) : (s.goto p).pc s.sched.runningThread = p :=
  Function.update_self _ _ _

/-- A statement of a lock function moves the running thread only. -/
theorem LockSys.stmt_frame (h : s.stmt = .ok s') {t : TaskId} (ht : t ≠ s.sched.runningThread) :
    s'.pc t = s.pc t ∧ s'.depth t = s.depth t ∧ s'.lock.semaphore = s.lock.semaphore := by
  simp only [stmt] at h
  split at h
  all_goals
    simp only [bind_eq_ok_iff,assert_eq_ok,pure,Except.pure,Except.ok.injEq] at h
    first
    | subst h
    | obtain ⟨_,_,rfl⟩ := h
    simp [goto,setLock,setDepth,ht]

/-- A statement of a lock function acts on the scheduler by an operation on the semaphore. -/
theorem LockInv.stmt_sched (h : LockInv s own)
    (hp : s.sched.pending = none ∨ s.pc s.sched.runningThread = .semaDownWait)
    (hs : s.stmt = .ok s') : s'.sched = s.sched ∨ ∃ op, s.sched.Enabled op ∧
      (∀ t, op ≠ .threadUnblock t) ∧
      (∀ psema, s.lock.semaphore ≠ psema → LockSys.Avoids psema op) ∧
      s.sched.exec op = .ok s'.sched := by
  have hretest : s.pc s.sched.runningThread = .semaDownWait → s.sched.pending ≠ none := by
    intro hpc
    obtain ⟨-,hin⟩ := (h.waits _).mp hpc
    rw [if_pos rfl] at hin
    obtain ⟨o,ho⟩ := hin
    simp [ho]
  simp only [LockSys.stmt] at hs
  split at hs
  all_goals
    rename_i hpc
    simp only [bind_eq_ok_iff,assert_eq_ok,pure,Except.pure,Except.ok.injEq] at hs
  case h_3 =>
    obtain ⟨sched,hop,rfl⟩ := hs
    exact .inr ⟨.semaDown s.lock.semaphore,hp.resolve_right (by simp [hpc]),by simp,
      fun _ hne => hne,hop⟩
  case h_4 =>
    obtain ⟨sched,hop,rfl⟩ := hs
    exact .inr ⟨.retest,hretest hpc,by simp,fun _ _ => trivial,hop⟩
  case h_17 =>
    obtain ⟨sched,hop,rfl⟩ := hs
    exact .inr ⟨.semaUp s.lock.semaphore,hp.resolve_right (by simp [hpc]),by simp,
      fun _ hne => hne,hop⟩
  all_goals
    first
    | subst hs
    | obtain ⟨_,_,rfl⟩ := hs
    exact .inl rfl

/-- A lock_acquire that has started at depth 0 ends at depth 1. -/
theorem LockInv.stmt_acquiring (h : LockInv s own)
    (hpc : (s.pc s.sched.runningThread).Acquiring) (hd : s.depth s.sched.runningThread = 0)
    (hs : s.stmt = .ok s') :
    s'.pc s.sched.runningThread = .outside ∧ s'.depth s.sched.runningThread = 1 ∨
    (s'.pc s.sched.runningThread).Acquiring ∧ s'.depth s.sched.runningThread = 0 := by
  have hdown : s.afterDown.Acquiring := by
    unfold LockSys.afterDown
    split <;> trivial
  have hne := h.holder_ne (t := s.sched.runningThread)
  simp only [LockSys.stmt] at hs
  cases hcase : s.pc s.sched.runningThread with
  | acquireTest =>
    rw [hcase] at hs hne
    obtain rfl := Except.ok.inj hs
    simp [hne (by simp [LockPc.Owns,hd]),LockSys.goto,LockPc.Acquiring,hd]
  | semaDown | semaDownWait =>
    simp only [hcase,bind_eq_ok_iff] at hs
    obtain ⟨sched,-,he⟩ := hs
    obtain rfl := Except.ok.inj he
    simp [LockSys.goto,hdown,hd]
  | setHolder =>
    rw [hcase] at hs
    obtain rfl := Except.ok.inj hs
    simp [LockSys.goto,LockSys.setLock,LockPc.Acquiring,hd]
  | assertZero =>
    simp only [hcase,bind_eq_ok_iff] at hs
    obtain ⟨-,-,he⟩ := hs
    obtain rfl := Except.ok.inj he
    simp [LockSys.goto,LockPc.Acquiring,hd]
  | setOne =>
    rw [hcase] at hs
    obtain rfl := Except.ok.inj hs
    simp [LockSys.goto,LockSys.setLock,LockSys.setDepth,hd]
  | _ => simp [hcase,LockPc.Acquiring] at hpc

/-- A lock_release that has started at depth 1 ends at depth 0. -/
theorem LockInv.stmt_releasing (h : LockInv s own)
    (hpc : (s.pc s.sched.runningThread).Releasing) (hd : s.depth s.sched.runningThread ≤ 1)
    (hs : s.stmt = .ok s') :
    s'.pc s.sched.runningThread = .outside ∧ s'.depth s.sched.runningThread = 0 ∨
    (s'.pc s.sched.runningThread).Releasing ∧ s'.depth s.sched.runningThread ≤ 1 := by
  have hfits := h.fits s.sched.runningThread
  have hlock := h.lock_eq (t := s.sched.runningThread)
  simp only [LockSys.stmt] at hs
  cases hcase : s.pc s.sched.runningThread with
  | assertHolder | assertOne =>
    simp only [hcase,bind_eq_ok_iff] at hs
    obtain ⟨-,-,he⟩ := hs
    obtain rfl := Except.ok.inj he
    simp [LockSys.goto,LockPc.Releasing,hd]
  | releaseTest =>
    rw [hcase] at hs hfits hlock
    have hnr : s.lock.holderRepeatNr = s.depth s.sched.runningThread := by
      rw [hlock hfits.1]
      rfl
    obtain rfl := Except.ok.inj hs
    simp [hnr,Nat.not_lt.mpr hd,LockSys.goto,LockPc.Releasing,hd]
  | clearHolder =>
    rw [hcase] at hs
    obtain rfl := Except.ok.inj hs
    simp only [LockSys.goto,LockSys.setLock,LockSys.setDepth,Function.update_self]
    exact .inr ⟨trivial,by omega⟩
  | clearNr =>
    rw [hcase] at hs
    obtain rfl := Except.ok.inj hs
    simp [LockSys.goto,LockSys.setLock,LockPc.Releasing,hd]
  | semaUp =>
    rw [hcase] at hfits
    simp only [hcase,bind_eq_ok_iff] at hs
    obtain ⟨sched,-,he⟩ := hs
    obtain rfl := Except.ok.inj he
    exact .inl ⟨by simp [LockSys.goto],hfits⟩
  | _ => simp [hcase,LockPc.Releasing] at hpc

end LockStatements
end OsKernel

import OsKernel.Thread.LockInvariant

/-! Mutual exclusion. Every statement of lock_acquire and lock_release preserves the lock
invariant, and so does everything that can happen between two statements. -/
namespace OsKernel
open Sched (Inv readyEmpty)

section Statements
variable {s : LockSys} {own : Option TaskId}

/-- Ownership passes only through the two semaphore operations. -/
def Passes (s : LockSys) (own own' : Option TaskId) : Prop :=
  own' = own ∨ own = none ∨
    own = some s.sched.runningThread ∧ own' = none ∧ s.pc s.sched.runningThread = .semaUp

/-- The lock holds what its owner expects. -/
theorem LockInv.lock_eq (h : LockInv s own) {t : TaskId} (ht : (s.pc t).Owns (s.depth t)) :
    s.lock = ⟨(s.pc t).holder t,(s.pc t).nr (s.depth t),s.lock.semaphore⟩ := by
  have ho := (h.owns t).mp ht
  obtain ⟨sched,⟨holder,nr,psema⟩,pc,depth⟩ := s
  have hh := h.holder
  have hn := h.nr
  simp only [ho,Option.bind_some,Option.elim] at hh hn
  simp only [hh,hn]

/-- A thread that does not own the lock does not find itself in the holder field. -/
theorem LockInv.holder_ne (h : LockInv s own) {t : TaskId}
    (ht : ¬ (s.pc t).Owns (s.depth t)) : s.lock.holder ≠ some t := by
  rw [h.holder]
  cases own with
  | none => simp
  | some u =>
    have hu : u ≠ t := fun e => ht ((h.owns t).mpr (by rw [e]))
    cases hpc : s.pc u <;> simp [LockPc.holder,hpc,hu]

/-- The last statement of the outermost release. -/
theorem LockInv.up (h : LockInv s own) (hpc : s.pc s.sched.runningThread = .semaUp)
    (hp : s.sched.pending = none) :
    Outcome (s.sched.semaUp s.lock.semaphore)
      (fun sched => LockInv { s.goto .outside with sched := sched } none ∧
        own = some s.sched.runningThread) (fun _ => False) := by
  obtain ⟨q,hq⟩ := h.sched
  have ho : own = some s.sched.runningThread := (h.owns _).mp (by simp [hpc,LockPc.Owns])
  have hfits := h.fits s.sched.runningThread
  rw [hpc] at hfits
  have hdepth : s.depth s.sched.runningThread = 0 := hfits
  have hlock := h.lock_eq ((h.owns _).mpr ho)
  have hval : s.sched.value s.lock.semaphore = 0 := by simpa [ho] using h.value
  refine (hq.semaUp s.lock.semaphore).mono ?_ fun e he => he.2 hval
  rintro sched ⟨hq',hu⟩
  refine ⟨h.moved (p := .outside) (d := 0) rfl ?_ rfl hq' ?_ ?_ ?_ ?_ ?_ ?_ ?_ ?_,ho⟩
  · simp [LockSys.goto,← hdepth]
  · simp [LockPc.Fits]
  · simp [LockPc.Owns]
  · intro t ht
    simp [ho,ht.symm]
  · simp [hu.value]
  · change s.lock.holder = none
    rw [hlock,hpc]
    rfl
  · change s.lock.holderRepeatNr = 0
    rw [hlock,hpc]
    exact hdepth
  · simp [Sched.InSema,hu.runningThread,hu.pending,hp]
  · intro t ht
    simp [Sched.InSema,hu.runningThread,hu.created,hu.resume,ht]

/-- A statement that only moves on. -/
theorem LockInv.goto (h : LockInv s own) {p : LockPc}
    (hold : s.pc s.sched.runningThread ≠ .semaDownWait) (hnew : p ≠ .semaDownWait)
    (hfits : p.Fits (s.depth s.sched.runningThread))
    (hown : p.Owns (s.depth s.sched.runningThread) ↔
      (s.pc s.sched.runningThread).Owns (s.depth s.sched.runningThread))
    (hsame : p.Owns (s.depth s.sched.runningThread) →
      p.holder s.sched.runningThread = (s.pc s.sched.runningThread).holder s.sched.runningThread ∧
      p.nr (s.depth s.sched.runningThread) =
        (s.pc s.sched.runningThread).nr (s.depth s.sched.runningThread)) :
    LockInv (s.goto p) own := by
  refine h.advance hold hnew ?_ ?_ ?_ hfits hown ?_ ?_
  · rfl
  · rfl
  · simp [LockSys.goto]
  · intro ho
    rw [(hsame ho).1,(hsame ho).2]
    exact h.lock_eq (hown.mp ho)
  · exact fun _ => rfl

/-- A statement of the owner that writes to the lock. -/
theorem LockInv.write (h : LockInv s own) {s' : LockSys} (p : LockPc) (d : ℕ) (lock : Lock)
    (hold : (s.pc s.sched.runningThread).Owns (s.depth s.sched.runningThread))
    (hnew : p.Fits d ∧ (p.Owns d ∧ p ≠ .semaDownWait))
    (hs : s' = { s with
      lock := lock
      pc := Function.update s.pc s.sched.runningThread p
      depth := Function.update s.depth s.sched.runningThread d })
    (hlock : lock = ⟨p.holder s.sched.runningThread,p.nr d,s.lock.semaphore⟩) :
    LockInv s' own := by
  subst hs
  refine h.advance ?_ hnew.2.2 rfl rfl rfl hnew.1 (iff_of_true hnew.2.1 hold) (fun _ => hlock)
    fun hn => absurd hnew.2.1 hn
  intro e
  rw [e] at hold
  exact hold

/-- One statement of a thread in a lock function. -/
theorem LockInv.stmt (h : LockInv s own) (hpc : s.pc s.sched.runningThread ≠ .outside)
    (hp : s.sched.pending = none ∨ s.pc s.sched.runningThread = .semaDownWait) :
    Outcome s.stmt (fun s' => ∃ own', LockInv s' own' ∧ Passes s own own')
      (fun e => e = readyEmpty) := by
  have hfits := h.fits s.sched.runningThread
  have hlock := h.lock_eq (t := s.sched.runningThread)
  have hne := h.holder_ne (t := s.sched.runningThread)
  have hgoto := @LockInv.goto s own h
  have hsame : ∀ {s'}, LockInv s' own → ∃ own', LockInv s' own' ∧ Passes s own own' :=
    fun h' => ⟨own,h',.inl rfl⟩
  simp only [LockSys.stmt]
  cases hcase : s.pc s.sched.runningThread with
  | outside => exact absurd hcase hpc
  | acquireTest =>
    rw [hcase] at hfits hlock hne hgoto
    by_cases hd : 0 < s.depth s.sched.runningThread
    · have hh : s.lock.holder = some s.sched.runningThread := by rw [hlock hd]; rfl
      simp only [hh,ne_eq,not_true_eq_false,if_false]
      exact hsame (hgoto (by simp) (by simp) ⟨hd,hfits⟩ Iff.rfl fun _ => ⟨rfl,rfl⟩)
    · simp only [hne hd,ne_eq,not_false_eq_true,if_true]
      exact hsame (hgoto (by simp) (by simp) (Nat.eq_zero_of_not_pos hd)
        (iff_of_false id hd) fun hn => hn.elim)
  | semaDown =>
    obtain ⟨q,hq⟩ := h.sched
    have hpend := hp.resolve_right (by simp [hcase])
    refine Outcome.bind (h.down (hq.of_eq rfl rfl rfl rfl rfl fun _ => rfl :
      Inv (s.sched.setIntr false) q) (.inl hcase) hpend rfl rfl rfl rfl s.sched.intr) ?_
    rintro sched ⟨own',h',hown⟩
    exact ⟨own',h',hown.imp_right .inl⟩
  | semaDownWait =>
    obtain ⟨q,hq⟩ := h.sched
    obtain ⟨-,hin⟩ := (h.waits _).mp hcase
    rw [if_pos rfl] at hin
    obtain ⟨o,ho⟩ := hin
    simp only [Sched.exec,ho]
    refine Outcome.bind (h.down (hq.of_eq rfl rfl rfl rfl rfl fun hn => absurd rfl hn :
      Inv { s.sched with pending := none } q) (.inr hcase) rfl rfl rfl rfl rfl o) ?_
    rintro sched ⟨own',h',hown⟩
    exact ⟨own',h',hown.imp_right .inl⟩
  | setHolder =>
    rw [hcase] at hfits hlock
    refine hsame (h.write .assertZero (s.depth s.sched.runningThread)
      { s.lock with holder := some s.sched.runningThread } (by simp [hcase,LockPc.Owns])
      ⟨hfits,trivial,by simp⟩ (by simp [LockSys.goto,LockSys.setLock]) ?_)
    rw [hlock trivial]
    rfl
  | assertZero =>
    rw [hcase] at hfits hlock hgoto
    refine Outcome.bind (Outcome.assert (p := s.lock.holderRepeatNr = 0) (.inl ?_)) fun _ _ => ?_
    · rw [hlock trivial]
      exact hfits
    · exact hsame (hgoto (by simp) (by simp) hfits Iff.rfl fun _ => ⟨rfl,rfl⟩)
  | setOne =>
    rw [hcase] at hfits hlock
    have hd : s.depth s.sched.runningThread = 0 := hfits
    refine hsame (h.write .outside (0+1)
      { s.lock with holderRepeatNr := 1 }
      (by simp [hcase,LockPc.Owns]) ⟨by simp [LockPc.Fits],by simp [LockPc.Owns],by simp⟩
      (by simp [LockSys.goto,LockSys.setLock,LockSys.setDepth,hd]) ?_)
    rw [hlock trivial]
    rfl
  | incrLoad =>
    rw [hcase] at hfits hlock hgoto
    refine hsame (hgoto (by simp) (by simp) ⟨hfits.1,hfits.2,?_⟩ Iff.rfl fun _ => ⟨rfl,rfl⟩)
    rw [hlock hfits.1]
    rfl
  | incrStore n =>
    rw [hcase] at hfits hlock
    obtain ⟨hpos,hlt,rfl⟩ := hfits
    refine hsame (h.write .outside (s.depth s.sched.runningThread+1)
      { s.lock with holderRepeatNr := incr32 (s.depth s.sched.runningThread) }
      (by simpa [hcase,LockPc.Owns] using hpos) ⟨hlt,by simp [LockPc.Owns],by simp⟩
      (by simp [LockSys.goto,LockSys.setLock,LockSys.setDepth]) ?_)
    rw [hlock hpos,incr32_of_lt hlt]
    rfl
  | assertHolder =>
    rw [hcase] at hfits hlock hgoto
    refine Outcome.bind (Outcome.assert (p := s.lock.holder = some s.sched.runningThread)
      (.inl ?_)) fun _ _ => ?_
    · rw [hlock hfits.1]
      rfl
    · exact hsame (hgoto (by simp) (by simp) hfits Iff.rfl fun _ => ⟨rfl,rfl⟩)
  | releaseTest =>
    rw [hcase] at hfits hlock hgoto
    have hnr : s.lock.holderRepeatNr = s.depth s.sched.runningThread := by
      rw [hlock hfits.1]
      rfl
    by_cases hone : 1 < s.depth s.sched.runningThread
    · simp only [hnr,hone,if_true]
      exact hsame (hgoto (by simp) (by simp) ⟨hone,hfits.2⟩ Iff.rfl fun _ => ⟨rfl,rfl⟩)
    · simp only [hnr,hone,if_false]
      refine hsame (hgoto (by simp) (by simp) ?_ Iff.rfl fun _ => ⟨rfl,rfl⟩)
      exact Nat.le_antisymm (Nat.le_of_not_lt hone) hfits.1
  | decrLoad =>
    rw [hcase] at hfits hlock hgoto
    have hpos : 0 < s.depth s.sched.runningThread := Nat.lt_of_succ_lt hfits.1
    refine hsame (hgoto (by simp) (by simp) ⟨hfits.1,hfits.2,?_⟩ Iff.rfl fun _ => ⟨rfl,rfl⟩)
    rw [hlock hpos]
    rfl
  | decrStore n =>
    rw [hcase] at hfits hlock
    obtain ⟨hgt,hlt,rfl⟩ := hfits
    have hpos : 0 < s.depth s.sched.runningThread := Nat.lt_of_succ_lt hgt
    have hpred : 0 < s.depth s.sched.runningThread-1 := Nat.sub_pos_of_lt hgt
    refine hsame (h.write .outside (s.depth s.sched.runningThread-1)
      { s.lock with holderRepeatNr := s.depth s.sched.runningThread-1 }
      (by simpa [hcase,LockPc.Owns] using hpos) ⟨(Nat.sub_le _ _).trans_lt hlt,hpred,by simp⟩
      (by simp [LockSys.goto,LockSys.setLock,LockSys.setDepth,decr32_of_pos hpos]) ?_)
    rw [hlock hpos]
    rfl
  | assertOne =>
    rw [hcase] at hfits hlock hgoto
    have hd : s.depth s.sched.runningThread = 1 := hfits
    refine Outcome.bind (Outcome.assert (p := s.lock.holderRepeatNr = 1) (.inl ?_)) fun _ _ => ?_
    · rw [hlock (by simp [LockPc.Owns,hd])]
      exact hd
    · exact hsame (hgoto (by simp) (by simp) hfits Iff.rfl fun _ => ⟨rfl,rfl⟩)
  | clearHolder =>
    rw [hcase] at hfits hlock
    have hd : s.depth s.sched.runningThread = 1 := hfits
    refine hsame (h.write .clearNr (0)
      { s.lock with holder := none }
      (by simp [hcase,LockPc.Owns,hd]) ⟨rfl,trivial,by simp⟩
      (by simp [LockSys.goto,LockSys.setLock,LockSys.setDepth,hd]) ?_)
    rw [hlock (by simp [LockPc.Owns,hd]),hd]
    rfl
  | clearNr =>
    rw [hcase] at hfits hlock
    have hd : s.depth s.sched.runningThread = 0 := hfits
    refine hsame (h.write .semaUp (s.depth s.sched.runningThread)
      { s.lock with holderRepeatNr := 0 } (by simp [hcase,LockPc.Owns])
      ⟨hfits,trivial,by simp⟩ (by simp [LockSys.goto,LockSys.setLock]) ?_)
    rw [hlock trivial,hd]
    rfl
  | semaUp =>
    have hpend := hp.resolve_right (by simp [hcase])
    refine Outcome.bind ((h.up hcase hpend).mono (fun _ ha => ha) fun _ he => he.elim) ?_
    rintro sched ⟨h',hown⟩
    exact ⟨none,h',.inr (.inr ⟨hown,rfl,hcase⟩)⟩

theorem LockInv.init (mainThread : TaskId) (value : SemaphoreId → ℕ) (psema : SemaphoreId) :
    LockInv (LockSys.init mainThread value psema) none := by
  refine ⟨⟨_,Sched.threadInit_inv _ _⟩,?_,?_,?_,rfl,rfl,?_⟩
  · simp [LockSys.init,LockPc.Owns]
  · simp [LockSys.init,LockPc.Fits]
  · simp [LockSys.init,Sched.threadInit]
  · simp [LockSys.init,Sched.threadInit,Sched.InSema]

/-- One step preserves the invariant. -/
theorem LockInv.step (h : LockInv s own) {s' : LockSys} (hs : s.Step s') :
    ∃ own', LockInv s' own' ∧ Passes s own own' := by
  cases hs with
  | acquire hp hpc hd =>
    refine ⟨own,h.goto ?_ ?_ hd ?_ ?_,.inl rfl⟩
    all_goals simp [hpc,LockPc.Owns,LockPc.holder,LockPc.nr]
  | release hp hpc hd =>
    have hfits := h.fits s.sched.runningThread
    rw [hpc] at hfits
    refine ⟨own,h.goto ?_ ?_ ⟨hd,hfits⟩ ?_ ?_,.inl rfl⟩
    all_goals simp [hpc,LockPc.Owns,LockPc.holder,LockPc.nr]
  | stmt hpc hp hs => exact (h.stmt hpc hp).of_ok hs
  | tick hen hs =>
    obtain ⟨q,hq⟩ := h.sched
    have hk : Sched.Keeps s.lock.semaphore s.sched _ :=
      (hq.exec_keeps hen trivial (by simp [hen.1])).of_ok hs
    exact ⟨own,h.ofKeeps ((hq.exec hen).of_ok hs) hk,.inl rfl⟩
  | kernel op hen hpc hop hs =>
    obtain ⟨q,hq⟩ := h.sched
    have hpend : ∀ o, s.sched.pending ≠ some (s.lock.semaphore,o) := by
      intro o ho
      have hin : s.sched.InSema s.lock.semaphore s.sched.runningThread :=
        ⟨hq.running_mem,by simp [ho]⟩
      rw [← h.waits,hpc] at hin
      contradiction
    have hk := (hq.exec_keeps hen hop hpend).of_ok hs
    exact ⟨own,h.ofKeeps ((hq.exec hen).of_ok hs) hk,.inl rfl⟩

theorem LockSys.Reachable.inv (h : s.Reachable) : ∃ own, LockInv s own := by
  obtain ⟨mainThread,value,psema,hrun⟩ := h
  induction hrun with
  | refl => exact ⟨none,.init mainThread value psema⟩
  | tail _ hstep ih =>
    obtain ⟨own,hown⟩ := ih
    obtain ⟨own',h',-⟩ := hown.step hstep
    exact ⟨own',h'⟩

end Statements

namespace LockSys

/-- The thread t has taken the lock, and its outermost release has not finished. -/
def Owns (s : LockSys) (t : TaskId) : Prop := (s.pc t).Owns (s.depth t)

/-- The thread t is between a completed lock_acquire and the outermost lock_release. -/
def Inside (s : LockSys) (t : TaskId) : Prop := 0 < s.depth t

end LockSys

theorem LockInv.owns_of_inside {s : LockSys} {own : Option TaskId} (h : LockInv s own)
    {t : TaskId} (ht : s.Inside t) : s.Owns t := by
  have hfits := h.fits t
  unfold LockSys.Inside at ht
  unfold LockSys.Owns
  cases hpc : s.pc t with
  | semaDown | semaDownWait =>
    rw [hpc] at hfits
    exact absurd hfits ht.ne'
  | _ => first | exact ht | trivial

theorem LockInv.fields_of_inside {s : LockSys} {own : Option TaskId} (h : LockInv s own)
    {t : TaskId} (ht : s.Inside t) :
    s.lock.holder = some t ∧ s.lock.holderRepeatNr = s.depth t := by
  have hfits := h.fits t
  have hlock := h.lock_eq (h.owns_of_inside ht)
  unfold LockSys.Inside at ht
  rw [hlock]
  cases hpc : s.pc t with
  | setHolder | clearNr | semaUp =>
    rw [hpc] at hfits
    exact absurd hfits ht.ne'
  | _ => exact ⟨rfl,rfl⟩

/-- Mutual exclusion, in every reachable state and for any number of threads. While a thread
is inside, the fields of the lock are its own, and nobody else gets past sema_down before the
sema_up of its outermost release. No assertion of the lock or of its semaphore fails. -/
theorem LockSys.reachable_mutualExclusion {s : LockSys} (h : s.Reachable) :
    (∀ t u, s.Owns t → s.Owns u → t = u) ∧
    (∀ t, s.Inside t → s.Owns t ∧ s.lock.holder = some t ∧
      s.lock.holderRepeatNr = s.depth t) ∧
    (∀ t s', s.Owns t → s.Step s' → s'.Owns t ∨
      s.sched.runningThread = t ∧ s.pc t = .semaUp ∧ ¬ s.Inside t ∧ ∀ u, ¬ s'.Owns u) ∧
    s.sched.value s.lock.semaphore ≤ 1 ∧
    ∀ e, s.pc s.sched.runningThread ≠ .outside →
      (s.sched.pending = none ∨ s.pc s.sched.runningThread = .semaDownWait) →
      s.stmt = .error e → e = readyEmpty := by
  obtain ⟨own,hown⟩ := h.inv
  refine ⟨?_,?_,?_,?_,?_⟩
  · intro t u ht hu
    have ht := (hown.owns t).mp ht
    rw [(hown.owns u).mp hu] at ht
    exact (Option.some.inj ht).symm
  · exact fun t ht => ⟨hown.owns_of_inside ht,hown.fields_of_inside ht⟩
  · intro t s' ht hs
    obtain ⟨own',h',hpass⟩ := hown.step hs
    have hto := (hown.owns t).mp ht
    obtain rfl | hnone | ⟨hcur,rfl,hpc⟩ := hpass
    · exact .inl ((h'.owns t).mpr hto)
    · simp [hnone] at hto
    · rw [hcur] at hto
      obtain rfl := Option.some.inj hto
      refine .inr ⟨rfl,hpc,?_,fun u hu => by simpa using (h'.owns u).mp hu⟩
      have hfits := hown.fits s.sched.runningThread
      rw [hpc] at hfits
      exact fun hin => hin.ne' hfits
  · rw [hown.value]
    split <;> simp
  · intro e hpc hp he
    exact (hown.stmt hpc hp).of_error he

namespace LockSys

/-- What happens next in a run that is written down. -/
inductive Move
  | acquire
  | release
  /-- The next statement of the running thread, which is in a lock function. -/
  | go
  | tick
  | kernel (op : Sched.Op)

instance (psema : SemaphoreId) : DecidablePred (Avoids psema)
  | .semaDown p => inferInstanceAs (Decidable (p ≠ psema))
  | .semaUp p => inferInstanceAs (Decidable (p ≠ psema))
  | .retest | .tick | .intrSetStatus _ | .schedule | .threadBlock _ | .threadUnblock _
  | .threadStart _ _ | .processExecute _ => isTrue trivial

/-- The state after a move, if the move is possible. -/
def moved (s : LockSys) : Move → Option LockSys
  | .acquire =>
    if s.sched.pending = none ∧ s.pc s.sched.runningThread = .outside ∧
        s.depth s.sched.runningThread+1 < 2^32 then
      some (s.goto .acquireTest)
    else none
  | .release =>
    if s.sched.pending = none ∧ s.pc s.sched.runningThread = .outside ∧
        0 < s.depth s.sched.runningThread then
      some (s.goto .assertHolder)
    else none
  | .go =>
    if s.pc s.sched.runningThread ≠ .outside ∧
        (s.sched.pending = none ∨ s.pc s.sched.runningThread = .semaDownWait) then
      s.stmt.toOption
    else none
  | .tick => (s.sched.perform .tick).map fun sched => { s with sched := sched }
  | .kernel op =>
    if s.pc s.sched.runningThread = .outside ∧ Avoids s.lock.semaphore op then
      (s.sched.perform op).map fun sched => { s with sched := sched }
    else none

section Moves
variable {s s' : LockSys}

theorem moved_go (h : s.moved .go = some s') : s.pc s.sched.runningThread ≠ .outside ∧
    (s.sched.pending = none ∨ s.pc s.sched.runningThread = .semaDownWait) ∧
    s.stmt = .ok s' := by
  obtain ⟨⟨hpc,hp⟩,h⟩ := Option.ite_none_right_eq_some.mp h
  exact ⟨hpc,hp,eq_ok_of_toOption h⟩

theorem moved_tick (h : s.moved .tick = some s') : s.sched.Possible .tick ∧
    ∃ sched, s.sched.exec .tick = .ok sched ∧ s' = { s with sched := sched } := by
  obtain ⟨sched,hs,rfl⟩ := Option.map_eq_some_iff.mp h
  exact ⟨(Sched.perform_eq_some hs).1,sched,(Sched.perform_eq_some hs).2,rfl⟩

theorem moved_kernel {op : Sched.Op} (h : s.moved (.kernel op) = some s') :
    s.pc s.sched.runningThread = .outside ∧ Avoids s.lock.semaphore op ∧ s.sched.Possible op ∧
    ∃ sched, s.sched.exec op = .ok sched ∧ s' = { s with sched := sched } := by
  obtain ⟨⟨hpc,hop⟩,h⟩ := Option.ite_none_right_eq_some.mp h
  obtain ⟨sched,hs,rfl⟩ := Option.map_eq_some_iff.mp h
  exact ⟨hpc,hop,(Sched.perform_eq_some hs).1,sched,(Sched.perform_eq_some hs).2,rfl⟩

theorem moved_step {m : Move} (h : s.moved m = some s') : s.Step s' := by
  cases m with
  | acquire =>
    obtain ⟨⟨hp,hpc,hd⟩,h⟩ := Option.ite_none_right_eq_some.mp h
    exact Option.some.inj h ▸ .acquire hp hpc hd
  | release =>
    obtain ⟨⟨hp,hpc,hd⟩,h⟩ := Option.ite_none_right_eq_some.mp h
    exact Option.some.inj h ▸ .release hp hpc hd
  | go =>
    obtain ⟨hpc,hp,hs⟩ := moved_go h
    exact .stmt hpc hp hs
  | tick =>
    obtain ⟨hen,sched,hs,rfl⟩ := moved_tick h
    exact .tick hen.enabled hs
  | kernel op =>
    obtain ⟨hpc,hop,hen,sched,hs,rfl⟩ := moved_kernel h
    exact .kernel op hen.enabled hpc hop hs

end Moves

/-- Main starts thread 2, takes the lock and is preempted; thread 2 asks for the lock and goes to
sleep in sema_down. -/
def contend : List Move :=
  [.kernel (.threadStart 2 31),.kernel (.intrSetStatus true),.acquire] ++ List.replicate 5 .go ++
  [.tick,.tick,.acquire,.go,.go]

/-- Main releases the lock and is preempted; thread 2 tests the semaphore again and gets it. -/
def handOver : List Move :=
  .release :: List.replicate 6 .go ++ [.tick,.tick] ++ List.replicate 4 .go

/-- While main is inside, thread 2 sleeps and does not own the lock; after the release it does. -/
theorem reachable_mutualExclusion_contend : ∃ s s' : LockSys, s.Reachable ∧ s'.Reachable ∧
    (s.Inside 1 ∧ s.pc 2 = .semaDownWait ∧ (s.sched.task 2).status = .blocked) ∧
    (s.lock.holder = some 1 ∧ ¬s.Owns 2) ∧ s'.Inside 2 ∧ s'.lock.holder = some 2 ∧ ¬s'.Owns 1 := by
  have hplay : ∃ s, Script.play moved contend (init 1 (fun _ => 0) 7) = some s ∧
      (0 < s.depth 1 ∧ s.pc 2 = .semaDownWait ∧ (s.sched.task 2).status = .blocked) ∧
      ∃ s', Script.play moved handOver s = some s' ∧ 0 < s'.depth 2 := by
    decide +kernel
  obtain ⟨s,hs,hin,s',hs',hin'⟩ := hplay
  have hrun := Script.play_steps hs moved_step
  have hreach : s.Reachable := ⟨1,fun _ => 0,7,hrun⟩
  have hreach' : s'.Reachable := ⟨1,fun _ => 0,7,hrun.trans (Script.play_steps hs' moved_step)⟩
  obtain ⟨hone,hfields,-⟩ := reachable_mutualExclusion hreach
  obtain ⟨hone',hfields',-⟩ := reachable_mutualExclusion hreach'
  obtain ⟨hown,hholder,-⟩ := hfields 1 hin.1
  obtain ⟨hown',hholder',-⟩ := hfields' 2 hin'
  exact ⟨s,s',hreach,hreach',hin,⟨hholder,fun h => absurd (hone 1 2 hown h) (by decide)⟩,hin',
    hholder',fun h => absurd (hone' 1 2 h hown') (by decide)⟩

end LockSys

end OsKernel

import OsKernel.Thread.Lock

/-! The invariant of a lock: the thread that holds the semaphore determines the value of the
semaphore and the fields of the lock, statement by statement. -/
namespace OsKernel
open Sched (Inv Switched readyEmpty)

section Semaphore
variable {s s' : Sched} {q : Sched.Queues} {psema : SemaphoreId} {r : Resume}

/-- The task is in the loop of sema_down, or will return into it. -/
def Sched.InSema (s : Sched) (psema : SemaphoreId) (t : TaskId) : Prop :=
  t ∈ s.created ∧ if t = s.runningThread then ∃ o, s.pending = some (psema,o)
    else ∃ o, s.resume t = .semaDown psema o

/-- The same tasks are in the loop after a step, and the value is the same. -/
structure Sched.Keeps (psema : SemaphoreId) (s s' : Sched) : Prop where
  value : s'.value psema = s.value psema
  inSema : ∀ t, s'.InSema psema t ↔ s.InSema psema t

theorem Sched.Keeps.of_eq (hv : s'.value psema = s.value psema) (hr : s'.resume = s.resume)
    (hc : s'.created = s.created) (hcur : s'.runningThread = s.runningThread)
    (hp : s'.pending = s.pending) : Keeps psema s s' :=
  ⟨hv,fun t => by simp only [InSema,hr,hc,hcur,hp]⟩

theorem Sched.Keeps.trans {s'' : Sched} (h : Keeps psema s s') (h' : Keeps psema s' s'') :
    Keeps psema s s'' :=
  ⟨h'.value.trans h.value,fun t => (h'.inSema t).trans (h.inSema t)⟩

/-- After a switch the suspended task is in the loop exactly when it was suspended there. -/
theorem Sched.Switched.inSema (h : Switched s r s') (t : TaskId) :
    s'.InSema psema t ↔ t ∈ s.created ∧ if t = s.runningThread then ∃ o, r = .semaDown psema o
      else ∃ o, s.resume t = .semaDown psema o := by
  have hpend : ∀ o, s'.pending = some (psema,o) ↔ s'.resume s'.runningThread = .semaDown psema o :=
    h.pending psema
  have hres : (∃ o, s'.resume t = .semaDown psema o) ↔ if t = s.runningThread then
      ∃ o, r = .semaDown psema o else ∃ o, s.resume t = .semaDown psema o := by
    by_cases ht : t = s.runningThread
    · simp [ht,h.resume]
    · simp [ht,h.resume]
  rw [← hres]
  simp only [InSema,h.created]
  by_cases ht : t = s'.runningThread
  · subst ht
    simp only [if_true,hpend]
  · simp only [ht,if_false]

theorem Sched.Switched.keeps (h : Switched s r s') (hr : ∀ o, r ≠ .semaDown psema o)
    (hp : ∀ o, s.pending ≠ some (psema,o)) : Keeps psema s s' := by
  refine ⟨congrFun h.value psema,fun t => (h.inSema t).trans ?_⟩
  simp [InSema,hr,hp]

/-- A new task is in no semaphore. -/
theorem Sched.Inv.inSema_create (h : Inv s q) {t : TaskId} (ht : t ∉ s.created) (prio : ℕ)
    (b : Bool) (links : IntrusiveList.Links Node) (u : TaskId) :
    ({ (s.create t prio).setIntr b with links := links } : Sched).InSema psema u ↔
      s.InSema psema u := by
  have hcur : t ≠ s.runningThread := fun e => ht (e ▸ h.running_mem)
  by_cases hu : u = t
  · subst hu
    simp [InSema,create,setIntr,hcur,ht]
  · simp [InSema,create,setIntr,hu]

/-- An operation on other semaphores keeps this one. -/
theorem Sched.Inv.exec_keeps (h : Inv s q) {op : Sched.Op} (hen : s.Enabled op)
    (hop : LockSys.Avoids psema op) (hp : ∀ o, s.pending ≠ some (psema,o)) :
    Outcome (s.exec op) (Keeps psema s) (fun _ => True) := by
  have hloop : ∀ (s₀ : Sched) (p : SemaphoreId) (o : Bool), Inv s₀ q → s₀.pending = none →
      p ≠ psema → Outcome (s₀.semaDownLoop p o) (Keeps psema s₀) (fun _ => True) := by
    intro s₀ p o h₀ hpend hne
    refine (h₀.semaDownLoop hpend p o).mono ?_ fun _ _ => trivial
    rintro s' ⟨-,⟨-,hs,-⟩ | ⟨-,rfl⟩⟩
    · exact hs.keeps (by simp [hne]) (by simp [hpend])
    · exact .of_eq (by simp [hne.symm]) rfl rfl rfl rfl
  cases op with
  | retest =>
    cases hpo : s.pending with
    | none => exact absurd hpo hen
    | some po =>
      obtain ⟨p,o⟩ := po
      have hne : p ≠ psema := fun e => hp o (e ▸ hpo)
      have h' : Inv { s with pending := none } q :=
        h.of_eq rfl rfl rfl rfl rfl fun hn => absurd rfl hn
      simp only [Sched.exec,hpo]
      have hk₀ : Keeps psema s { s with pending := none } :=
        ⟨rfl,fun t => by simp [InSema,hpo,hne]⟩
      exact (hloop _ p o h' rfl hne).mono (fun s' hk => hk₀.trans hk) fun _ _ => trivial
  | tick =>
    refine (h.intrTimerHandler hen.1).mono ?_ fun _ _ => trivial
    rintro s' ⟨-,hs | ⟨hv,hr,hc,hcur,hpend,-⟩⟩
    · exact hs.keeps (by simp) hp
    · exact .of_eq (congrFun hv psema) hr hc hcur (hpend.trans hen.1.symm)
  | intrSetStatus status => exact Keeps.of_eq rfl rfl rfl rfl rfl
  | schedule =>
    by_cases hi : s.intr = false
    · refine (h.schedule hi hen).mono (fun s' hs => ?_) fun _ _ => trivial
      exact hs.2.keeps (by simp) hp
    · simp [Sched.exec,Sched.schedule,OsKernel.assert,hi,bind,Except.bind]
  | threadBlock stat =>
    refine (h.toCore.threadBlock hen h.running stat .threadBlock (fun t p _ => h.waiters_iff t p)
      fun p => ?_).mono (fun s' hs => hs.2.1.keeps (by simp) hp) fun _ _ => trivial
    simp [h.off_running.2 p]
  | threadUnblock t =>
    refine (h.threadUnblock hen.2.1 hen.2.2).mono ?_ fun _ _ => trivial
    rintro s' ⟨links,rfl,-⟩
    exact .of_eq rfl rfl rfl rfl rfl
  | semaDown p =>
    have h' : Inv (s.setIntr false) q := h.of_eq rfl rfl rfl rfl rfl fun _ => rfl
    have hk₀ : Keeps psema s (s.setIntr false) := .of_eq rfl rfl rfl rfl rfl
    exact (hloop _ p s.intr h' hen hop).mono (fun s' hk => hk₀.trans hk) fun _ _ => trivial
  | semaUp p =>
    refine (h.semaUp p).mono ?_ fun _ _ => trivial
    rintro s' ⟨-,hu⟩
    have hne : psema ≠ p := Ne.symm hop
    exact .of_eq (by simp [hu.value,hne]) hu.resume hu.created hu.runningThread hu.pending
  | threadStart t prio =>
    refine (h.enqueue hen.1 hen.2 prio "thread_start" s.intr).mono ?_ fun _ _ => trivial
    rintro s' ⟨-,links,rfl⟩
    exact ⟨rfl,h.inSema_create hen.2 prio s.intr links⟩
  | processExecute t =>
    refine Outcome.bind ((h.enqueue hen.1 hen.2 defaultPrio "process_execute" false).mono
      (fun _ ha => ha.2) fun _ _ => trivial) ?_
    rintro s' ⟨links,rfl⟩
    exact ⟨rfl,h.inSema_create hen.2 defaultPrio s.intr links⟩

end Semaphore

namespace LockPc

/-- The thread has taken the semaphore of the lock and not given it back. The depth matters
where a thread may be there both with and without the lock. -/
def Owns (depth : ℕ) : LockPc → Prop
  | .semaDown | .semaDownWait => False
  | .setHolder | .assertZero | .setOne | .clearNr | .semaUp => True
  | _ => 0 < depth

/-- What a thread knows about its own depth, and about the counter it has loaded. -/
def Fits (depth : ℕ) : LockPc → Prop
  | .outside => depth < 2^32
  | .acquireTest => depth+1 < 2^32
  | .semaDown | .semaDownWait | .setHolder | .assertZero | .setOne => depth = 0
  | .incrLoad => 0 < depth ∧ depth+1 < 2^32
  | .incrStore nr => 0 < depth ∧ depth+1 < 2^32 ∧ nr = depth
  | .assertHolder | .releaseTest => 0 < depth ∧ depth < 2^32
  | .decrLoad => 1 < depth ∧ depth < 2^32
  | .decrStore nr => 1 < depth ∧ depth < 2^32 ∧ nr = depth
  | .assertOne | .clearHolder => depth = 1
  | .clearNr | .semaUp => depth = 0

/-- The holder field while the owner t is at the statement. -/
def holder (t : TaskId) : LockPc → Option TaskId
  | .setHolder | .clearNr | .semaUp => none
  | _ => some t

/-- The counter while its owner is at the statement. -/
def nr (depth : ℕ) : LockPc → ℕ
  | .clearNr => 1
  | _ => depth

end LockPc

/-- The lock invariant. The owner is the thread that has the semaphore. -/
structure LockInv (s : LockSys) (own : Option TaskId) : Prop where
  sched : ∃ q, Inv s.sched q
  owns : ∀ t, (s.pc t).Owns (s.depth t) ↔ own = some t
  fits : ∀ t, (s.pc t).Fits (s.depth t)
  value : s.sched.value s.lock.semaphore = if own = none then 1 else 0
  holder : s.lock.holder = own.bind fun t => (s.pc t).holder t
  nr : s.lock.holderRepeatNr = own.elim 0 fun t => (s.pc t).nr (s.depth t)
  waits : ∀ t, s.pc t = .semaDownWait ↔ s.sched.InSema s.lock.semaphore t

section Steps
variable {s : LockSys} {own : Option TaskId}

theorem LockInv.ofKeeps (h : LockInv s own) {sched : Sched} (hq : ∃ q, Inv sched q)
    (hk : Sched.Keeps s.lock.semaphore s.sched sched) : LockInv { s with sched := sched } own :=
  ⟨hq,h.owns,h.fits,hk.value.trans h.value,h.holder,h.nr,
    fun t => (h.waits t).trans (hk.inSema t).symm⟩

/-- The running thread moves to p with depth d, and own' becomes the owner. Only the owner
may have touched the lock. -/
theorem LockInv.moved (h : LockInv s own) {own' : Option TaskId} {s' : LockSys} {p : LockPc}
    {d : ℕ} (hpc : s'.pc = Function.update s.pc s.sched.runningThread p)
    (hd : s'.depth = Function.update s.depth s.sched.runningThread d)
    (hsem : s'.lock.semaphore = s.lock.semaphore) (hq : ∃ q, Inv s'.sched q)
    (hfits : p.Fits d) (hown : p.Owns d ↔ own' = some s.sched.runningThread)
    (hother : ∀ t ≠ s.sched.runningThread, own' = some t ↔ own = some t)
    (hvalue : s'.sched.value s.lock.semaphore = if own' = none then 1 else 0)
    (hholder : s'.lock.holder = own'.bind fun t => (s'.pc t).holder t)
    (hnr : s'.lock.holderRepeatNr = own'.elim 0 fun t => (s'.pc t).nr (s'.depth t))
    (hwait : p = .semaDownWait ↔ s'.sched.InSema s.lock.semaphore s.sched.runningThread)
    (hwaits : ∀ t ≠ s.sched.runningThread, s'.sched.InSema s.lock.semaphore t ↔
      s.sched.InSema s.lock.semaphore t) : LockInv s' own' := by
  refine ⟨hq,fun t => ?_,fun t => ?_,by rw [hsem]; exact hvalue,hholder,hnr,fun t => ?_⟩
  · by_cases ht : t = s.sched.runningThread
    · subst ht
      simpa [hpc,hd] using hown
    · simp only [hpc,hd,Function.update_of_ne ht,h.owns t,hother t ht]
  · by_cases ht : t = s.sched.runningThread
    · subst ht
      simpa [hpc,hd] using hfits
    · simpa only [hpc,hd,Function.update_of_ne ht] using h.fits t
  · rw [hsem]
    by_cases ht : t = s.sched.runningThread
    · subst ht
      simpa [hpc] using hwait
    · rw [hwaits t ht,← h.waits t,hpc,Function.update_of_ne ht]

/-- A statement that leaves the scheduler alone. Only the owner writes to the lock, and what
it writes is what the next statement expects. -/
theorem LockInv.advance (h : LockInv s own) {s' : LockSys} {p : LockPc} {d : ℕ}
    (hold : s.pc s.sched.runningThread ≠ .semaDownWait) (hnew : p ≠ .semaDownWait)
    (hsched : s'.sched = s.sched)
    (hpc : s'.pc = Function.update s.pc s.sched.runningThread p)
    (hd : s'.depth = Function.update s.depth s.sched.runningThread d) (hfits : p.Fits d)
    (hown : p.Owns d ↔ (s.pc s.sched.runningThread).Owns (s.depth s.sched.runningThread))
    (howner : p.Owns d →
      s'.lock = ⟨p.holder s.sched.runningThread,p.nr d,s.lock.semaphore⟩)
    (hothers : ¬ p.Owns d → s'.lock = s.lock) : LockInv s' own := by
  have howns := hown.trans (h.owns s.sched.runningThread)
  have hlock : s'.lock.semaphore = s.lock.semaphore ∧
      s'.lock.holder = own.bind (fun t => (s'.pc t).holder t) ∧
      s'.lock.holderRepeatNr = own.elim 0 fun t => (s'.pc t).nr (s'.depth t) := by
    by_cases ho : p.Owns d
    · have hown' := howns.mp ho
      simp [howner ho,hown',hpc,hd]
    · rw [hothers ho]
      refine ⟨rfl,?_,?_⟩
      · rw [h.holder]
        apply Option.bind_congr
        intro t ht
        have hne : t ≠ s.sched.runningThread := fun e => ho (howns.mpr (e ▸ ht))
        rw [hpc,Function.update_of_ne hne]
      · rw [h.nr]
        cases hcase : own with
        | none => rfl
        | some t =>
          have hne : t ≠ s.sched.runningThread := fun e => ho (howns.mpr (e ▸ hcase))
          simp only [Option.elim,hpc,hd,Function.update_of_ne hne]
  refine h.moved hpc hd hlock.1 (hsched ▸ h.sched) hfits howns (fun _ _ => Iff.rfl) ?_ hlock.2.1
    hlock.2.2 ?_ fun t _ => by rw [hsched]
  · rw [hsched,h.value]
  · rw [hsched,← h.waits]
    simp only [hold,hnew]

/-- The loop of sema_down makes the running thread the owner if there is none, and suspends
it otherwise. -/
theorem LockInv.down (h : LockInv s own) {s₀ : Sched} {q : Sched.Queues} (h₀ : Inv s₀ q)
    (hpc : s.pc s.sched.runningThread = .semaDown ∨ s.pc s.sched.runningThread = .semaDownWait)
    (hp : s₀.pending = none) (hv : s₀.value = s.sched.value) (hr : s₀.resume = s.sched.resume)
    (hc : s₀.created = s.sched.created) (hcur : s₀.runningThread = s.sched.runningThread)
    (o : Bool) :
    Outcome (s₀.semaDownLoop s.lock.semaphore o)
      (fun sched => ∃ own', LockInv { s.goto s.afterDown with sched := sched } own' ∧
        (own' = own ∨ own = none)) (fun e => e = readyEmpty) := by
  have hfits := h.fits s.sched.runningThread
  have hnot : own ≠ some s.sched.runningThread := by
    rw [Ne,← h.owns]
    obtain hpc | hpc := hpc <;> simp [hpc,LockPc.Owns]
  have hdepth : s.depth s.sched.runningThread = 0 := by
    obtain hpc | hpc := hpc <;> simpa [hpc,LockPc.Fits] using hfits
  have hval := h.value
  refine (h₀.semaDownLoop hp s.lock.semaphore o).mono ?_ ?_
  · rintro sched ⟨hq,⟨hv₀,hs,-⟩ | ⟨hv₁,rfl⟩⟩
    · rw [hv] at hv₀
      have howned : own ≠ none := by
        intro e
        simp [hv₀,e] at hval
      obtain ⟨u,rfl⟩ := Option.ne_none_iff_exists'.mp howned
      have hu : u ≠ s.sched.runningThread := fun e => hnot (e ▸ rfl)
      refine ⟨_,h.moved (p := .semaDownWait) (d := s.depth s.sched.runningThread) ?_ ?_ rfl hq
        hdepth ?_ (fun _ _ => Iff.rfl) ?_ ?_ ?_ ?_ ?_,.inl rfl⟩
      · simp [LockSys.goto,LockSys.afterDown,hv₀]
      · simp [LockSys.goto]
      · simpa [LockPc.Owns] using hu
      · rw [hs.value,hv,hval]
      · rw [show (LockSys.goto s s.afterDown).lock.holder = s.lock.holder from rfl,h.holder]
        simp [LockSys.goto,hu]
      · rw [show (LockSys.goto s s.afterDown).lock.holderRepeatNr = s.lock.holderRepeatNr from rfl,
          h.nr]
        simp [LockSys.goto,hu]
      · have hmem := h₀.running_mem
        rw [hc,hcur] at hmem
        simp [hs.inSema,hcur,hc,hmem]
      · intro t ht
        exact (hs.inSema t).trans (by simp [Sched.InSema,hcur,hc,hr,ht])
    · rw [hv] at hv₁
      have hfree : own = none := by
        by_contra hne
        simp [hv₁,hne] at hval
      subst hfree
      refine ⟨some s.sched.runningThread,h.moved (p := .setHolder)
        (d := s.depth s.sched.runningThread) ?_ ?_ rfl hq hdepth ?_ ?_ ?_ ?_ ?_ ?_ ?_,.inr rfl⟩
      · simp [LockSys.goto,LockSys.afterDown,hv₁]
      · simp [LockSys.goto]
      · simp [LockPc.Owns]
      · intro t ht
        simp [ht.symm]
      · simp
      · rw [show (LockSys.goto s s.afterDown).lock.holder = s.lock.holder from rfl,h.holder]
        simp [LockSys.goto,LockSys.afterDown,hv₁,LockPc.holder]
      · rw [show (LockSys.goto s s.afterDown).lock.holderRepeatNr = s.lock.holderRepeatNr from rfl,
          h.nr]
        simp [LockSys.goto,LockSys.afterDown,hv₁,LockPc.nr,hdepth]
      · simp [Sched.InSema,hcur,hp]
      · intro t ht
        simp [Sched.InSema,hcur,hc,hr,ht]
  · rintro e (⟨-,hlt⟩ | ⟨-,he,-⟩)
    · rw [hv,hval] at hlt
      split at hlt <;> omega
    · exact he

end Steps
end OsKernel

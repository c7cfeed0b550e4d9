import OsKernel.Device.IoqFrame

/-! The blocking protocol of the queue. The lock serialises the producers that want to sleep, so
that at most one of them is in ioq_wait, and it is the one that the queue records. -/
namespace OsKernel
open Ioqueue
open Sched (Inv Switched readyEmpty callerAsserts)

/-- Where a thread may be in the lock functions, given where it is in those of the queue. -/
def IoqPc.Phase (lpc : LockPc) (depth : ℕ) : IoqPc → Prop
  | .outside => lpc = .outside ∧ depth = 0
  | .getTest | .putTest _ => lpc = .outside ∧ depth = 0 ∨ lpc.Releasing ∧ depth ≤ 1
  | .getWait | .putWait _ => lpc = .outside ∧ depth = 1 ∨ lpc.Acquiring ∧ depth = 0
  | .getAsleep | .putAsleep _ => lpc = .outside ∧ depth = 1

/-- The thread sleeps in ioq_wait, in a call of ioq_putchar. -/
structure IoqSys.Sleeper (s : IoqSys) (t : TaskId) : Prop where
  asleep : s.AsleepPut t
  created : t ∈ s.sys.sched.created
  resume : ∀ p o, s.sys.sched.resume t ≠ .semaDown p o

/-- The invariant of the queue as long as no consumer calls ioq_wait. -/
structure IoqInv (s : IoqSys) (own : Option TaskId) : Prop where
  lock : LockInv s.sys own
  phase : ∀ t, (s.pc t).Phase (s.sys.pc t) (s.sys.depth t)
  awake : ∀ t, s.pc t ≠ .getAsleep
  consumer : s.ioq.consumer = none
  recorded : ∀ t, s.AsleepPut t → s.ioq.producer = some t
  sleeper : ∀ t, s.ioq.producer = some t → s.Sleeper t ∧ nextPos s.ioq.head = s.ioq.tail
  asserts : ∀ e, s.halted = some e → ¬ IoqSys.IoqPanic e

namespace IoqInv
variable {s s' : IoqSys} {own own' : Option TaskId}

theorem protocol (h : IoqInv s own) : s.Protocol :=
  ⟨fun t ht => absurd ht.1 (h.awake t),
    fun t ht => ⟨h.recorded t ht,(h.sleeper t (h.recorded t ht)).2⟩,h.asserts⟩

theorem producer_ne (h : IoqInv s own) : s.ioq.producer ≠ some s.cur := by
  intro hp
  obtain ⟨q,hq⟩ := h.lock.sched
  have hb := (h.sleeper _ hp).1.asleep.2
  rw [IoqSys.cur,hq.running] at hb
  contradiction

/-- The running thread goes on, and the queue stays as it is. -/
theorem moved (h : IoqInv s own) {p : IoqPc} (hlock : LockInv s'.sys own')
    (hioq : s'.ioq = s.ioq) (hhalt : s'.halted = s.halted)
    (hpc : s'.pc = Function.update s.pc s.cur p)
    (hp : p ≠ .getAsleep ∧ ∀ chr, p ≠ .putAsleep chr)
    (hphase : p.Phase (s'.sys.pc s.cur) (s'.sys.depth s.cur))
    (hothers : ∀ t, t ≠ s.cur → s'.sys.pc t = s.sys.pc t ∧ s'.sys.depth t = s.sys.depth t)
    (hsched : ∀ t, t ≠ s.cur → s.AsleepPut t ∨ s'.AsleepPut t →
      Sched.Undisturbed t s.sys.sched s'.sys.sched) :
    IoqInv s' own' ∧ s.Wakes s' := by
  have hne : ∀ t chr, s'.pc t = .putAsleep chr → t ≠ s.cur := by
    rintro t chr ht rfl
    rw [hpc,Function.update_self] at ht
    exact hp.2 chr ht
  have hpc' : ∀ t, t ≠ s.cur → s'.pc t = s.pc t := fun t ht => by
    rw [hpc,Function.update_of_ne ht]
  refine ⟨⟨hlock,fun t => ?_,fun t => ?_,by rw [hioq]; exact h.consumer,?_,?_,
    by rw [hhalt]; exact h.asserts⟩,fun t ht => absurd ht.1 (h.awake t),fun t ht hfull => ?_⟩
  · by_cases ht : t = s.cur
    · subst ht
      rw [hpc,Function.update_self]
      exact hphase
    · rw [hpc' t ht,(hothers t ht).1,(hothers t ht).2]
      exact h.phase t
  · by_cases ht : t = s.cur
    · subst ht
      rw [hpc,Function.update_self]
      exact hp.1
    · rw [hpc' t ht]
      exact h.awake t
  · intro t ht
    obtain ⟨chr,hchr⟩ := ht.1
    have hn := hne t chr hchr
    rw [hioq]
    exact h.recorded t ⟨⟨chr,hpc' t hn ▸ hchr⟩,(hsched t hn (.inr ht)).awake ht.2⟩
  · intro t ht
    rw [hioq] at ht ⊢
    obtain ⟨⟨⟨hchr,hb⟩,hc,hr⟩,hfull⟩ := h.sleeper t ht
    have hn : t ≠ s.cur := fun e => h.producer_ne (e ▸ ht)
    have hu := hsched t hn (.inl ⟨hchr,hb⟩)
    refine ⟨⟨⟨by rw [hpc' t hn]; exact hchr,hu.asleep hc hb hr⟩,hu.created hc,?_⟩,hfull⟩
    rw [hu.resume hc]
    exact hr
  · rw [hioq] at hfull
    exact absurd (h.sleeper t (h.recorded t ht)).2 hfull

/-- A sleeper can be woken, and waking it does not touch the semaphore of the lock. -/
theorem wake (h : IoqInv s own) (hp : s.sys.sched.pending = none) :
    Outcome (wakeIfWaiting s.sys.sched s.ioq.producer)
      (fun r => r.2 = none ∧ LockInv { s.sys with sched := r.1 } own ∧
        ∀ t, (r.1.task t).status = if s.ioq.producer = some t then .ready
          else (s.sys.sched.task t).status)
      (fun _ => False) := by
  unfold wakeIfWaiting
  cases hprod : s.ioq.producer with
  | none => exact ⟨rfl,h.lock,fun t => by simp⟩
  | some u =>
    obtain ⟨q,hq⟩ := h.lock.sched
    have hu := (h.sleeper u hprod).1
    have hnw : ∀ p, ¬ s.sys.sched.WaitsFor u p := fun p hw =>
      hu.resume p hw.2.2.choose hw.2.2.choose_spec
    have hen : s.sys.sched.Enabled (.threadUnblock u) := ⟨hp,hu.created,hnw⟩
    have hk : Outcome _ (Sched.Keeps s.sys.lock.semaphore s.sys.sched) (fun _ => True) :=
      hq.exec_keeps hen trivial (by simp [hp])
    have hstep := hq.threadUnblock hu.created hnw
    simp only [wakeup]
    cases hx : s.sys.sched.threadUnblock u with
    | error e => exact absurd hu.asleep.2 (hstep.of_error hx).2
    | ok sched =>
      obtain ⟨links,rfl,hinv⟩ := hstep.of_ok hx
      refine ⟨rfl,h.lock.ofKeeps ⟨_,hinv⟩ (hk.of_ok hx),fun t => ?_⟩
      by_cases ht : u = t
      · subst ht
        simp [Sched.setStatus]
      · simp [ht,Sched.setStatus,Sched.setTask,Ne.symm ht]

/-- A call returns when nobody sleeps in ioq_wait any more. -/
theorem returns (h : IoqInv s own) {sched : Sched} {ioq : Ioqueue}
    (hlock : LockInv { s.sys with sched := sched } own) (hl : s.sys.pc s.cur = .outside)
    (hd : s.sys.depth s.cur = 0) (hc : ioq.consumer = none) (hp : ioq.producer = none)
    (hstat : ∀ t, (sched.task t).status = .blocked →
      (s.sys.sched.task t).status = .blocked ∧ s.ioq.producer ≠ some t) :
    IoqInv ((s.goto .outside).setQueue sched ioq) own := by
  have hpc : ∀ t p, ((s.goto .outside).setQueue sched ioq).pc t = p → p ≠ .outside →
      s.pc t = p := by
    intro t p ht hne
    by_cases hcur : t = s.cur
    · subst hcur
      simp only [IoqSys.setQueue,IoqSys.goto,Function.update_self] at ht
      exact absurd ht.symm hne
    · simpa [IoqSys.setQueue,IoqSys.goto,hcur] using ht
  refine ⟨hlock,fun t => ?_,fun t ht => h.awake t (hpc t _ ht (by simp)),hc,?_,?_,h.asserts⟩
  · by_cases hcur : t = s.cur
    · subst hcur
      simp only [IoqSys.setQueue,IoqSys.goto,Function.update_self]
      exact ⟨hl,hd⟩
    · simpa [IoqSys.setQueue,IoqSys.goto,hcur] using h.phase t
  · rintro t ⟨⟨chr,hchr⟩,hb⟩
    obtain ⟨hb',hne⟩ := hstat t hb
    exact absurd (h.recorded t ⟨⟨chr,hpc t _ hchr (by simp)⟩,hb'⟩) hne
  · intro t ht
    change ioq.producer = some t at ht
    rw [hp] at ht
    contradiction

/-- A byte is taken: the recorded producer becomes ready. -/
theorem take (h : IoqInv s own) (hp : s.sys.sched.pending = none)
    (hl : s.sys.pc s.cur = .outside) (hd : s.sys.depth s.cur = 0) :
    Outcome (takeByte s.sys.sched s.ioq)
      (fun r => IoqInv ((s.goto .outside).setQueue r.2.1 r.2.2) own ∧
        s.Wakes ((s.goto .outside).setQueue r.2.1 r.2.2)) (fun _ => False) := by
  refine Outcome.bind (h.wake hp) ?_
  rintro ⟨sched,producer⟩ ⟨rfl,hlock,hstat⟩
  refine ⟨h.returns hlock hl hd h.consumer rfl ?_,fun t ht => absurd ht.1 (h.awake t),?_⟩
  · intro t hb
    rw [hstat t] at hb
    by_cases hrec : s.ioq.producer = some t
    · simp [hrec] at hb
    · exact ⟨by simpa [hrec] using hb,hrec⟩
  · intro t ht _
    exact (hstat t).trans (if_pos (h.recorded t ht))

/-- A byte is stored: nobody sleeps, since the queue is not full. -/
theorem store (h : IoqInv s own) (hl : s.sys.pc s.cur = .outside) (hd : s.sys.depth s.cur = 0)
    (hfull : nextPos s.ioq.head ≠ s.ioq.tail) (chr : UInt8) :
    Outcome (storeByte s.sys.sched s.ioq chr)
      (fun r => IoqInv ((s.goto .outside).setQueue r.1 r.2) own ∧
        s.Wakes ((s.goto .outside).setQueue r.1 r.2)) (fun _ => False) := by
  have hnone : ∀ t, s.ioq.producer ≠ some t := fun t ht => hfull (h.sleeper t ht).2
  have hwake : wakeIfWaiting s.sys.sched s.ioq.consumer = .ok (s.sys.sched,none) := by
    simp [wakeIfWaiting,h.consumer]
  simp only [storeByte,hwake]
  refine ⟨h.returns h.lock hl hd rfl ?_ fun t hb => ⟨hb,hnone t⟩,
    fun t ht => absurd ht.1 (h.awake t),fun t ht => absurd (h.recorded t ht) (hnone t)⟩
  exact Option.eq_none_iff_forall_ne_some.mpr hnone

/-- A producer that still finds the queue full goes to sleep. The lock keeps every other one
out of ioq_wait. -/
theorem wait (h : IoqInv s own) (hp : s.sys.sched.pending = none) (chr : UInt8)
    (hl : s.sys.pc s.cur = .outside) (hd : s.sys.depth s.cur = 1) (hfull : nextPos s.ioq.head = s.ioq.tail) :
    Outcome (ioqWait s.sys.sched s.ioq .producerField)
      (fun r => IoqInv ((s.goto (.putAsleep chr)).setQueue r.1 r.2) own ∧
        s.Wakes ((s.goto (.putAsleep chr)).setQueue r.1 r.2)) (fun e => e = readyEmpty) := by
  obtain ⟨q,hq⟩ := h.lock.sched
  have howner : own = some s.cur := (h.lock.owns s.cur).mp (by simp [hl,LockPc.Owns,hd])
  have hnone : ∀ t, s.ioq.producer ≠ some t := by
    intro t ht
    obtain ⟨chr',hchr⟩ := (h.sleeper t ht).1.asleep.1
    have hphase := h.phase t
    rw [hchr] at hphase
    have ho := (h.lock.owns t).mp (by simp [hphase.1,LockPc.Owns,hphase.2])
    rw [howner] at ho
    exact h.producer_ne (Option.some.inj ho ▸ ht)
  refine Outcome.bind (Outcome.assert (p := WaiterPtr.deref s.ioq .producerField = none ∧
    WaiterPtr.producerField ≠ .null) (.inl ⟨Option.eq_none_iff_forall_ne_some.mpr hnone,by simp⟩))
    fun _ _ => ?_
  have hen : s.sys.sched.Enabled (.threadBlock .blocked) := hp
  have hk : Outcome _ (Sched.Keeps s.sys.lock.semaphore s.sys.sched) (fun _ => True) :=
    hq.exec_keeps hen trivial (by simp [hp])
  have hblock := hq.toCore.threadBlock hp hq.running .blocked .threadBlock
    (fun t p _ => hq.waiters_iff t p) fun p => by simp [hq.off_running.2 p]
  cases hx : s.sys.sched.threadBlock .blocked .threadBlock with
  | error e =>
    obtain ⟨-,hn⟩ | ⟨he,-⟩ := hblock.of_error hx
    · exact absurd (.inl rfl) hn
    · exact he
  | ok sched =>
    obtain ⟨⟨l,hinv⟩,hs,hself⟩ := hblock.of_ok hx
    refine ⟨⟨h.lock.ofKeeps ⟨_,hinv⟩ (hk.of_ok hx),fun t => ?_,fun t => ?_,h.consumer,?_,?_,
      h.asserts⟩,fun t ht => absurd ht.1 (h.awake t),
      fun t ht => absurd (h.recorded t ht) (hnone t)⟩
    · by_cases hcur : t = s.cur
      · subst hcur
        simp only [IoqSys.setQueue,IoqSys.goto,Function.update_self]
        exact ⟨hl,hd⟩
      · simpa [IoqSys.setQueue,IoqSys.goto,hcur] using h.phase t
    · by_cases hcur : t = s.cur
      · simp [IoqSys.setQueue,IoqSys.goto,hcur]
      · simpa [IoqSys.setQueue,IoqSys.goto,hcur] using h.awake t
    · rintro t ⟨⟨chr',hchr⟩,hb⟩
      by_cases hcur : t = s.cur
      · exact hcur ▸ rfl
      · have hpc' : s.pc t = .putAsleep chr' := by
          simpa [IoqSys.setQueue,IoqSys.goto,hcur] using hchr
        have hb' := (hs.undisturbed hcur).awake hb
        exact absurd (h.recorded t ⟨⟨chr',hpc'⟩,hb'⟩) (hnone t)
    · intro t ht
      obtain rfl : s.cur = t := Option.some.inj ht
      refine ⟨⟨⟨⟨chr,by simp [IoqSys.setQueue,IoqSys.goto]⟩,hself⟩,?_,fun p o => ?_⟩,hfull⟩
      · exact hs.created ▸ hq.running_mem
      · change sched.resume s.sys.sched.runningThread ≠ _
        rw [hs.resume,Function.update_self]
        simp

/-- The thread calls lock_acquire before it waits. -/
theorem acquire (h : IoqInv s own) (hp : s.sys.sched.pending = none)
    (hl : s.sys.pc s.cur = .outside) (hd : s.sys.depth s.cur = 0) {p : IoqPc}
    (hcase : p = .getWait ∨ ∃ chr, p = .putWait chr) :
    ∃ own', IoqInv ((s.setSys (s.sys.goto .acquireTest)).goto p) own' ∧
      s.Wakes ((s.setSys (s.sys.goto .acquireTest)).goto p) := by
  have hlt : s.sys.depth s.cur+1 < 2^32 := by
    rw [hd]
    exact Nat.one_lt_two_pow (by decide)
  obtain ⟨own',hlock,-⟩ := h.lock.step (.acquire hp hl hlt)
  refine ⟨own',h.moved hlock rfl rfl rfl ?_ ?_ ?_ fun t _ _ => .of_eq rfl rfl rfl⟩
  · obtain rfl | ⟨chr,rfl⟩ := hcase <;> simp
  · have hpc : ((s.setSys (s.sys.goto .acquireTest)).goto p).sys.pc s.cur = .acquireTest := by
      simp [IoqSys.goto,IoqSys.setSys,IoqSys.cur,LockSys.goto]
    rw [hpc]
    obtain rfl | ⟨chr,rfl⟩ := hcase <;> exact .inr ⟨trivial,hd⟩
  · exact fun t ht => ⟨Function.update_of_ne ht _ _,rfl⟩

/-- The thread calls lock_release after it has been woken. -/
theorem release (h : IoqInv s own) (hp : s.sys.sched.pending = none)
    (hl : s.sys.pc s.cur = .outside) (hd : s.sys.depth s.cur = 1) (chr : UInt8) :
    ∃ own', IoqInv ((s.setSys (s.sys.goto .assertHolder)).goto (.putTest chr)) own' ∧
      s.Wakes ((s.setSys (s.sys.goto .assertHolder)).goto (.putTest chr)) := by
  have hpos : 0 < s.sys.depth s.cur := by
    rw [hd]
    exact Nat.one_pos
  obtain ⟨own',hlock,-⟩ := h.lock.step (.release hp hl hpos)
  refine ⟨own',h.moved hlock rfl rfl rfl (by simp) ?_ ?_ fun t _ _ => .of_eq rfl rfl rfl⟩
  · have hpc : ((s.setSys (s.sys.goto .assertHolder)).goto (.putTest chr)).sys.pc s.cur =
        .assertHolder := by simp [IoqSys.goto,IoqSys.setSys,IoqSys.cur,LockSys.goto]
    rw [hpc]
    exact .inr ⟨trivial,hd.le⟩
  · exact fun t ht => ⟨Function.update_of_ne ht _ _,rfl⟩

/-- What the running thread does in a function of the queue. -/
theorem stmt (h : IoqInv s own) (hw : s.WaitsWell) (hp : s.sys.sched.pending = none)
    (hpc : s.pc s.cur ≠ .outside) (hl : s.sys.pc s.cur = .outside) :
    Outcome s.stmt (fun s' => ∃ own', IoqInv s' own' ∧ s.Wakes s')
      (fun e => ¬ IoqSys.IoqPanic e) := by
  have hphase := h.phase s.cur
  simp only [IoqSys.stmt]
  cases hcase : s.pc s.cur with
  | outside => exact absurd hcase hpc
  | getTest =>
    simp only [hcase,hl,IoqPc.Phase,LockPc.Releasing,false_and,or_false,true_and] at hphase
    refine Outcome.bind (P := fun _ => True) ?_ fun empty _ => ?_
    · exact Outcome.bind (Outcome.assert (p := s.sys.sched.intr = false)
        (.inr (by simp [IoqSys.IoqPanic]))) fun _ _ => trivial
    · cases empty with
      | true => exact h.acquire hp hl hphase (.inl rfl)
      | false =>
        refine Outcome.bind ((h.take hp hl hphase).mono (fun _ ha => ha) fun _ he => he.elim) ?_
        exact fun r hr => ⟨own,hr⟩
  | getWait => exact absurd hcase (hw hl).1
  | getAsleep => exact absurd hcase (h.awake s.cur)
  | putTest chr =>
    simp only [hcase,hl,IoqPc.Phase,LockPc.Releasing,false_and,or_false,true_and] at hphase
    refine Outcome.bind (P := fun full => full = decide (nextPos s.ioq.head = s.ioq.tail)) ?_
      fun full hfull => ?_
    · exact Outcome.bind (Outcome.assert (p := s.sys.sched.intr = false)
        (.inr (by simp [IoqSys.IoqPanic]))) fun _ _ => rfl
    · cases full with
      | true => exact h.acquire hp hl hphase (.inr ⟨chr,rfl⟩)
      | false =>
        have hne : nextPos s.ioq.head ≠ s.ioq.tail := by simpa using hfull.symm
        refine Outcome.bind ((h.store hl hphase hne chr).mono (fun _ ha => ha)
          fun _ he => he.elim) ?_
        exact fun r hr => ⟨own,hr⟩
  | putWait chr =>
    simp only [hcase,hl,IoqPc.Phase,LockPc.Acquiring,false_and,or_false,true_and] at hphase
    refine Outcome.bind ((h.wait hp chr hl hphase ((hw hl).2 chr hcase)).mono (fun _ ha => ha) ?_)
      fun r hr => ⟨own,hr⟩
    rintro e rfl
    simp [IoqSys.IoqPanic,readyEmpty]
  | putAsleep chr =>
    simp only [hcase,hl,IoqPc.Phase,true_and] at hphase
    exact h.release hp hl hphase chr

theorem halt (h : IoqInv s own) {e : Panic} (he : ¬ IoqSys.IoqPanic e) :
    IoqInv { s with halted := some e } own ∧ s.Wakes { s with halted := some e } := by
  refine ⟨⟨h.lock,h.phase,h.awake,h.consumer,h.recorded,fun t ht => ?_,?_⟩,
    fun t ht => absurd ht.1 (h.awake t),fun t ht hf => absurd (h.protocol.producer t ht).2 hf⟩
  · obtain ⟨hs,hfull⟩ := h.sleeper t ht
    exact ⟨⟨hs.asleep,hs.created,hs.resume⟩,hfull⟩
  · rintro e' he'
    exact Option.some.inj he' ▸ he

/-- A thread in a lock function has been called from the queue, and is not in ioq_wait. -/
theorem lockStmt (h : IoqInv s own) {sys : LockSys} (hl : s.sys.pc s.cur ≠ .outside)
    (hp : s.sys.sched.pending = none ∨ s.sys.pc s.cur = .semaDownWait)
    (hs : s.sys.stmt = .ok sys) : ∃ own', IoqInv (s.setSys sys) own' ∧ s.Wakes (s.setSys sys) := by
  obtain ⟨own',hlock,-⟩ := (h.lock.stmt hl hp).of_ok hs
  obtain ⟨q,hq⟩ := h.lock.sched
  have hphase := h.phase s.cur
  refine ⟨own',h.moved (p := s.pc s.cur) hlock rfl rfl (Function.update_eq_self _ _).symm
    ⟨fun e => ?_,fun chr e => ?_⟩ ?_ (fun t ht => ?_) fun t ht _ => ?_⟩
  · rw [e] at hphase
    exact hl hphase.1
  · rw [e] at hphase
    exact hl hphase.1
  · cases hcase : s.pc s.cur with
    | outside | getAsleep | putAsleep chr =>
      rw [hcase] at hphase
      exact absurd hphase.1 hl
    | getTest | putTest chr =>
      rw [hcase] at hphase
      obtain ⟨ho,-⟩ | ⟨hr,hd⟩ := hphase
      · exact absurd ho hl
      · exact h.lock.stmt_releasing hr hd hs
    | getWait | putWait chr =>
      rw [hcase] at hphase
      obtain ⟨ho,-⟩ | ⟨ha,hd⟩ := hphase
      · exact absurd ho hl
      · exact h.lock.stmt_acquiring ha hd hs
  · obtain ⟨hpc,hd,-⟩ := LockSys.stmt_frame hs ht
    exact ⟨hpc,hd⟩
  · obtain he | ⟨op,hen,hop,-,hx⟩ := h.lock.stmt_sched hp hs
    · exact .of_eq (congrArg Sched.created he) (congrArg Sched.resume he)
        (congrArg (fun sched => (Sched.task sched t).status) he)
    · exact (hq.exec_undisturbed hen ht (hop t)).of_ok hx

/-- What the kernel does elsewhere. -/
theorem kernel (h : IoqInv s own) {sched : Sched} {op : Sched.Op} (hen : s.sys.sched.Enabled op)
    (he : s.Elsewhere) (hop : LockSys.Avoids s.sys.lock.semaphore op)
    (hwake : ∀ t, op = .threadUnblock t → ¬ s.AsleepGet t ∧ ¬ s.AsleepPut t)
    (hs : s.sys.sched.exec op = .ok sched) :
    ∃ own', IoqInv (s.setQueue sched s.ioq) own' ∧ s.Wakes (s.setQueue sched s.ioq) := by
  obtain ⟨own',hlock,-⟩ := h.lock.step (.kernel op hen he.2 hop hs)
  obtain ⟨q,hq⟩ := h.lock.sched
  refine ⟨own',h.moved (p := s.pc s.cur) hlock rfl rfl (Function.update_eq_self _ _).symm
    (by simp [he.1]) (h.phase s.cur) (fun _ _ => ⟨rfl,rfl⟩) fun t ht hasleep => ?_⟩
  by_cases hu : op = .threadUnblock t
  · subst hu
    obtain hb | hb := hasleep
    · exact absurd hb (hwake t rfl).2
    · obtain ⟨links,rfl,-⟩ := (hq.threadUnblock hen.2.1 hen.2.2).of_ok hs
      have hready := hb.2
      simp [IoqSys.setQueue,Sched.setStatus] at hready
  · exact (hq.exec_undisturbed hen ht hu).of_ok hs

/-- One step that waits well preserves the invariant. -/
theorem step (h : IoqInv s own) (hw : s.WaitsWell) (hs : s.Step s') :
    ∃ own', IoqInv s' own' ∧ s.Wakes s' := by
  have hcall : ∀ p, s.Elsewhere → (p = .getTest ∨ ∃ chr, p = .putTest chr) →
      ∃ own', IoqInv (s.goto p) own' ∧ s.Wakes (s.goto p) := by
    intro p he hcase
    have hphase := h.phase s.cur
    rw [he.1] at hphase
    refine ⟨own,h.moved h.lock rfl rfl rfl ?_ ?_ (fun _ _ => ⟨rfl,rfl⟩)
      fun t _ _ => .of_eq rfl rfl rfl⟩
    · obtain rfl | ⟨chr,rfl⟩ := hcase <;> simp
    · obtain rfl | ⟨chr,rfl⟩ := hcase <;> exact .inl hphase
  cases hs with
  | getchar hh hp he hi => exact hcall .getTest he (.inl rfl)
  | putchar chr hh hp he hi => exact hcall (.putTest chr) he (.inr ⟨chr,rfl⟩)
  | stmt hh hp hpc hl hs => exact (h.stmt hw hp hpc hl).of_ok hs
  | stmtFails hh hp hpc hl hs => exact ⟨own,h.halt ((h.stmt hw hp hpc hl).of_error hs)⟩
  | lock hh hl hp hs => exact h.lockStmt hl hp hs
  | lockFails hh hl hp hs =>
    have he := (h.lock.stmt hl hp).of_error hs
    exact ⟨own,h.halt (by simp [he,IoqSys.IoqPanic,readyEmpty])⟩
  | kernel op hh hen he hop hwake hs => exact h.kernel hen he hop hwake hs

theorem init (mainThread : TaskId) (value : SemaphoreId → ℕ) (psema : SemaphoreId)
    (buf : ℕ → UInt8) : IoqInv (IoqSys.init mainThread value psema buf) none := by
  refine ⟨.init mainThread value psema,fun _ => ⟨rfl,rfl⟩,?_,rfl,?_,?_,?_⟩
  · simp [IoqSys.init]
  · simp [IoqSys.AsleepPut,IoqSys.init]
  · simp [IoqSys.init,initIoqueue]
  · simp [IoqSys.init]

end IoqInv

namespace IoqSys

/-- The states that a run reaches whose steps all wait well. -/
def WellReachable (s : IoqSys) : Prop :=
  ∃ mainThread value psema buf,
    Relation.ReflTransGen (fun s s' => s.WaitsWell ∧ s.Step s') (init mainThread value psema buf) s

theorem WellReachable.inv {s : IoqSys} (h : s.WellReachable) : ∃ own, IoqInv s own := by
  obtain ⟨mainThread,value,psema,buf,hrun⟩ := h
  induction hrun with
  | refl => exact ⟨none,.init mainThread value psema buf⟩
  | tail _ hstep ih =>
    obtain ⟨own,hown⟩ := ih
    obtain ⟨own',h',-⟩ := hown.step hstep.1 hstep.2
    exact ⟨own',h'⟩

/-- As long as no consumer calls ioq_wait, and no producer calls it after the queue has got
room, the protocol holds: every sleeper is recorded, sleeps for a reason, and is woken by
the step that takes the reason away. -/
theorem wellReachable_protocol {s : IoqSys} (h : s.WellReachable) :
    s.Protocol ∧ ∀ s', s.WaitsWell → s.Step s' → s'.Protocol ∧ s.Wakes s' := by
  obtain ⟨own,hown⟩ := h.inv
  refine ⟨hown.protocol,fun s' hw hs => ?_⟩
  obtain ⟨own',h',hwakes⟩ := hown.step hw hs
  exact ⟨h'.protocol,hwakes⟩

/-- What happens next in a run that is written down. -/
inductive Move
  | getchar
  | putchar (chr : UInt8)
  /-- The next statement of the running thread, in a function of the queue or of the lock. -/
  | go
  | kernel (op : Sched.Op)

/-- The state after a move, if the move is possible. -/
def moved (s : IoqSys) (m : Move) : Option IoqSys :=
  if s.halted ≠ none ∨ s.sys.sched.pending ≠ none then none
  else match m with
  | .getchar =>
    if s.pc s.cur = .outside ∧ s.sys.pc s.cur = .outside ∧ s.sys.sched.intr = false then
      some (s.goto .getTest)
    else none
  | .putchar chr =>
    if s.pc s.cur = .outside ∧ s.sys.pc s.cur = .outside ∧ s.sys.sched.intr = false then
      some (s.goto (.putTest chr))
    else none
  | .go =>
    if s.sys.pc s.cur ≠ .outside then s.sys.stmt.toOption.map s.setSys
    else if s.pc s.cur ≠ .outside then s.stmt.toOption
    else none
  | .kernel op =>
    if s.pc s.cur = .outside then (s.sys.moved (.kernel op)).map fun sys => s.setQueue sys.sched s.ioq
    else none

theorem moved_step {s s' : IoqSys} {m : Move} (h : s.moved m = some s') : s.Step s' := by
  unfold moved at h
  obtain ⟨hready,h⟩ := Option.ite_none_left_eq_some.mp h
  obtain ⟨hh,hp⟩ := not_or.mp hready
  have hh := not_not.mp hh
  have hp := not_not.mp hp
  cases m with
  | getchar =>
    obtain ⟨⟨hpc,hl,hi⟩,h⟩ := Option.ite_none_right_eq_some.mp h
    exact Option.some.inj h ▸ .getchar hh hp ⟨hpc,hl⟩ hi
  | putchar chr =>
    obtain ⟨⟨hpc,hl,hi⟩,h⟩ := Option.ite_none_right_eq_some.mp h
    exact Option.some.inj h ▸ .putchar chr hh hp ⟨hpc,hl⟩ hi
  | go =>
    by_cases hl : s.sys.pc s.cur = .outside
    · simp only [hl,ne_eq,not_true_eq_false,if_false] at h
      obtain ⟨hpc,h⟩ := Option.ite_none_right_eq_some.mp h
      exact .stmt hh hp hpc hl (eq_ok_of_toOption h)
    · simp only [hl,ne_eq,not_false_eq_true,if_true] at h
      obtain ⟨sys,hs,rfl⟩ := Option.map_eq_some_iff.mp h
      exact .lock hh hl (.inl hp) (eq_ok_of_toOption hs)
  | kernel op =>
    obtain ⟨hpc,h⟩ := Option.ite_none_right_eq_some.mp h
    obtain ⟨sys,hs,rfl⟩ := Option.map_eq_some_iff.mp h
    obtain ⟨hl,hop,hen,sched,hx,rfl⟩ := LockSys.moved_kernel hs
    refine .kernel op hh hen.enabled ⟨hpc,hl⟩ hop ?_ hx
    rintro t rfl
    exact hen.elim

/-- A move from a state that waits well. -/
def wellMoved (s : IoqSys) (m : Move) : Option IoqSys :=
  match s.pc s.cur with
  | .getWait => none
  | .putWait _ => if nextPos s.ioq.head = s.ioq.tail then s.moved m else none
  | _ => s.moved m

theorem wellMoved_step {s s' : IoqSys} {m : Move} (h : s.wellMoved m = some s') :
    s.WaitsWell ∧ s.Step s' := by
  unfold wellMoved at h
  cases hpc : s.pc s.cur with
  | getWait =>
    rw [hpc] at h
    cases h
  | putWait chr =>
    rw [hpc] at h
    obtain ⟨hfull,h⟩ := Option.ite_none_right_eq_some.mp h
    exact ⟨fun _ => ⟨by simp [hpc],fun _ _ => hfull⟩,moved_step h⟩
  | outside | getTest | getAsleep | putTest | putAsleep =>
    rw [hpc] at h
    exact ⟨fun _ => ⟨by simp [hpc],fun _ hput => by simp [hpc] at hput⟩,moved_step h⟩

/-- Main is the only thread and has put n bytes into the queue. -/
def filled (n : ℕ) : IoqSys :=
  { init 1 (fun _ => 0) 7 fun _ => 0 with
    ioq := ⟨⟨fun i => if i < n then 97 else 0,n,0⟩,none,none⟩ }

/-- Main puts one more byte. -/
theorem filled_succ {n : ℕ} (h : n < 63) :
    Relation.ReflTransGen (fun s s' => s.WaitsWell ∧ s.Step s') (filled n) (filled (n+1)) := by
  have hnext : nextPos n = n+1 := Nat.mod_eq_of_lt (Nat.succ_lt_succ h)
  have hbuf : Function.update (fun i => if i < n then (97 : UInt8) else 0) n 97 =
      fun i => if i < n+1 then 97 else 0 := by
    funext i
    by_cases hi : i = n
    · simp [hi]
    · have hlt : i < n+1 ↔ i < n := by omega
      simp [hi,hlt]
  have hpc : (((filled n).goto (.putTest 97)).goto .outside).pc = (filled n).pc := by
    change Function.update (Function.update (filled n).pc 1 _) 1 _ = _
    rw [Function.update_idem]
    exact Function.update_eq_self _ _
  have hstmt : ((filled n).goto (.putTest 97)).stmt = .ok (filled (n+1)) := by
    have hput : ((filled n).goto (.putTest 97)).pc ((filled n).goto (.putTest 97)).cur =
        .putTest 97 := rfl
    have hfull : ioqFull ((filled n).goto (.putTest 97)).sys.sched
        ((filled n).goto (.putTest 97)).ioq = .ok false := by
      rw [ioqFull_eq rfl]
      exact congrArg Except.ok (decide_eq_false (by simp [filled,goto,hnext]))
    have hstore : storeByte ((filled n).goto (.putTest 97)).sys.sched
        ((filled n).goto (.putTest 97)).ioq 97 =
        .ok ((filled n).sys.sched,(filled (n+1)).ioq) := by
      simp only [storeByte,filled,goto,hnext,hbuf]
      rfl
    rw [stmt,hput]
    dsimp only
    rw [hfull,bind_of_ok rfl,if_neg Bool.false_ne_true,hstore,bind_of_ok rfl]
    refine congrArg Except.ok ?_
    simp only [setQueue,hpc]
    rfl
  have hcall : (filled n).Step ((filled n).goto (.putTest 97)) := .putchar 97 rfl rfl ⟨rfl,rfl⟩ rfl
  have hwell : (filled n).WaitsWell := fun _ => ⟨IoqPc.noConfusion,fun _ hw => by cases hw⟩
  have hwell' : ((filled n).goto (.putTest 97)).WaitsWell :=
    fun _ => ⟨IoqPc.noConfusion,fun _ hw => by cases hw⟩
  exact .tail (.single ⟨hwell,hcall⟩) ⟨hwell',.stmt rfl rfl IoqPc.noConfusion rfl hstmt⟩

theorem filled_run {n : ℕ} (h : n ≤ 63) :
    Relation.ReflTransGen (fun s s' => s.WaitsWell ∧ s.Step s') (filled 0) (filled n) := by
  induction n with
  | zero => exact .refl
  | succ n ih => exact (ih (Nat.le_of_succ_le h)).trans (filled_succ h)

/-- Thread 2 is started, main goes to sleep with a byte in hand, and thread 2 calls ioq_getchar. -/
def fallAsleep : List Move :=
  .kernel (.threadStart 2 31) :: .putchar 98 :: List.replicate 7 .go ++
  [.kernel (.intrSetStatus false),.getchar]

/-- Main is the recorded producer of a full queue, and the read of thread 2 wakes it. -/
theorem wellReachable_protocol_filled : ∃ s s' : IoqSys,
    (s.AsleepPut 1 ∧ s.ioq.producer = some 1 ∧ nextPos s.ioq.head = s.ioq.tail) ∧
    s.Step s' ∧ (s'.sys.sched.task 1).status = .ready := by
  have hplay : ∃ s, Script.play wellMoved fallAsleep (filled 63) = some s ∧
      (s.pc 1 = .putAsleep 98 ∧ (s.sys.sched.task 1).status = .blocked) ∧
      ∃ s', s.wellMoved .go = some s' ∧ nextPos s'.ioq.head ≠ s'.ioq.tail := by
    decide +kernel
  obtain ⟨s,hs,⟨hpc,hblocked⟩,s',hs',hroom⟩ := hplay
  have hrun := (filled_run (Nat.le_refl 63)).trans (Script.play_steps hs wellMoved_step)
  have hreach : s.WellReachable := ⟨1,fun _ => 0,7,fun i => if i < 0 then 97 else 0,hrun⟩
  have hasleep : s.AsleepPut 1 := ⟨⟨98,hpc⟩,hblocked⟩
  obtain ⟨hwaits,hstep⟩ := wellMoved_step hs'
  obtain ⟨hprotocol,hnext⟩ := wellReachable_protocol hreach
  have hwakes := (hnext s' hwaits hstep).2
  exact ⟨s,s',⟨hasleep,hprotocol.producer 1 hasleep⟩,hstep,hwakes.producer 1 hasleep hroom⟩

/-- The only thread calls ioq_getchar on the empty queue: the call, and what follows it. -/
def lonelyConsumer : ℕ → IoqSys
  | 0 => (init 1 (fun _ => 0) 7 fun _ => 0).goto .getTest
  | n+1 =>
    let s := lonelyConsumer n
    if s.sys.pc s.cur = .outside then
      match s.stmt with
      | .ok s' => s'
      | .error e => { s with halted := some e }
    else
      match s.sys.stmt with
      | .ok sys => s.setSys sys
      | .error e => { s with halted := some e }

/-- The content of ioq->consumer is NULL, and its address is what ioq_wait expects. -/
theorem lonelyConsumer_panics :
    (lonelyConsumer 7).Reachable ∧
    (lonelyConsumer 7).halted = some (.assert "ioq_wait" "*waiter==NULL&&waiter!=NULL") ∧
    ¬ (lonelyConsumer 7).Protocol := by
  have hcall : (init 1 (fun _ => 0) 7 fun _ => 0).Step (lonelyConsumer 0) :=
    .getchar rfl rfl ⟨rfl,rfl⟩ rfl
  have hlock : ∀ n, 0 < n → n < 6 → (lonelyConsumer n).Step (lonelyConsumer (n+1)) := by
    intro n h₀ h₁
    interval_cases n
    all_goals exact .lock rfl (by decide) (.inl rfl) rfl
  have hrun : ∀ n, n < 6 → Relation.ReflTransGen Step (init 1 (fun _ => 0) 7 fun _ => 0)
      (lonelyConsumer (n+1)) := by
    intro n
    induction n with
    | zero => exact fun _ => .tail (.single hcall) (.stmt rfl rfl (by decide) rfl rfl)
    | succ n ih => exact fun hn => .tail (ih (Nat.lt_of_succ_lt hn)) (hlock _ n.succ_pos hn)
  have hfail : (lonelyConsumer 6).Step (lonelyConsumer 7) :=
    .stmtFails rfl rfl (by decide) rfl rfl
  have hhalt : (lonelyConsumer 7).halted =
      some (.assert "ioq_wait" "*waiter==NULL&&waiter!=NULL") := rfl
  refine ⟨⟨1,fun _ => 0,7,fun _ => 0,(hrun 5 (by decide)).tail hfail⟩,hhalt,fun h => ?_⟩
  exact h.asserts _ hhalt (List.mem_cons_self)

end IoqSys
end OsKernel

import OsKernel.Thread.LockCalls

/-! Process identifiers. Any number of threads are in allocate_pid, one statement at a time,
with the lock functions on pid_lock. -/
namespace OsKernel

/-- The next statement of a thread in allocate_pid; a thread that has called a lock function
comes to it when that function returns. -/
inductive PidPc
  | outside
  /-- ++next_pid -/
  | increment
  /-- lock_release(&pid_lock) -/
  | release
  /-- return next_pid -/
  | read
  deriving DecidableEq, Repr

/-- The kernel with the counter, and the identifiers that init_thread has stored. -/
structure PidSys where
  sys : LockSys
  nextPid : BitVec 16
  pc : TaskId → PidPc
  pids : List (BitVec 16)

namespace PidSys

/-- The running thread. -/
def cur (s : PidSys) : TaskId := s.sys.sched.runningThread

def goto (s : PidSys) (p : PidPc) : PidSys := { s with pc := Function.update s.pc s.cur p }

def setSys (s : PidSys) (sys : LockSys) : PidSys := { s with sys := sys }

/-- The statement of allocate_pid that the running thread is at. -/
def stmt (s : PidSys) : PidSys :=
  match s.pc s.cur with
  | .outside => s
  | .increment => { s.goto .release with nextPid := s.nextPid+1 }
  | .release => (s.setSys (s.sys.goto .assertHolder)).goto .read
  | .read => { s.goto .outside with pids := s.pids++[s.nextPid] }

/-- One step: a call of allocate_pid, a statement of it, a statement of a lock function, a
timer interrupt between two statements, or any other activity of the kernel. -/
inductive Step (s : PidSys) : PidSys → Prop
  | call (hp : s.sys.sched.pending = none) (hpc : s.pc s.cur = .outside)
      (hl : s.sys.pc s.cur = .outside) : Step s ((s.setSys (s.sys.goto .acquireTest)).goto .increment)
  | stmt (hp : s.sys.sched.pending = none) (hpc : s.pc s.cur ≠ .outside)
      (hl : s.sys.pc s.cur = .outside) : Step s s.stmt
  | lock {sys} (hl : s.sys.pc s.cur ≠ .outside)
      (hp : s.sys.sched.pending = none ∨ s.sys.pc s.cur = .semaDownWait)
      (h : s.sys.stmt = .ok sys) : Step s (s.setSys sys)
  | tick {sched} (hen : s.sys.sched.Enabled .tick) (h : s.sys.sched.exec .tick = .ok sched) :
      Step s (s.setSys { s.sys with sched := sched })
  | kernel {sched} (op : Sched.Op) (hen : s.sys.sched.Enabled op) (hpc : s.pc s.cur = .outside)
      (hl : s.sys.pc s.cur = .outside) (hop : LockSys.Avoids s.sys.lock.semaphore op)
      (h : s.sys.sched.exec op = .ok sched) : Step s (s.setSys { s.sys with sched := sched })

/-- The state after thread_init has initialised pid_lock. -/
def init (mainThread : TaskId) (value : SemaphoreId → ℕ) (psema : SemaphoreId) : PidSys where
  sys := LockSys.init mainThread value psema
  nextPid := 0
  pc := fun _ => .outside
  pids := []

/-- The states that some run reaches. -/
def Reachable (s : PidSys) : Prop :=
  ∃ mainThread value psema, Relation.ReflTransGen Step (init mainThread value psema) s

/-- If the running thread is at the increment, then no other thread stands between its
lock_release and its read. -/
def ReadsFirst (s : PidSys) : Prop :=
  s.pc s.cur = .increment → s.sys.pc s.cur = .outside → ∀ t ≠ s.cur, s.pc t ≠ .read

/-- The thread has incremented the counter and not yet read it. -/
def Incremented (s : PidSys) (t : TaskId) : Prop := s.pc t = .release ∨ s.pc t = .read

/-- The states that a run reaches whose steps all read first. -/
def OrderlyReachable (s : PidSys) : Prop :=
  ∃ mainThread value psema,
    Relation.ReflTransGen (fun s s' => s.ReadsFirst ∧ s.Step s') (init mainThread value psema) s

end PidSys

/-- What the lock functions are doing while a thread is at a statement of allocate_pid. -/
def PidPc.Fits (lockPc : LockPc) (depth : ℕ) : PidPc → Prop
  | .outside => lockPc = .outside ∧ depth = 0
  | .increment => lockPc = .outside ∧ depth = 1 ∨ lockPc.Acquiring ∧ depth = 0
  | .release => lockPc = .outside ∧ depth = 1
  | .read => lockPc = .outside ∧ depth = 0 ∨ lockPc.Releasing ∧ depth ≤ 1

/-- The first n identifiers. -/
def firstPids (n : ℕ) : List (BitVec 16) := (List.range n).map fun i => BitVec.ofNat 16 (i+1)

theorem firstPids_nodup {n : ℕ} (h : n < 65536) : (firstPids n).Nodup := by
  apply List.Nodup.map_on _ List.nodup_range
  intro i hi j hj he
  have hi := List.mem_range.mp hi
  have hj := List.mem_range.mp hj
  have ht := congrArg BitVec.toNat he
  simp only [BitVec.toNat_ofNat] at ht
  omega

theorem firstPids_succ (n : ℕ) : firstPids n++[BitVec.ofNat 16 (n+1)] = firstPids (n+1) := by
  simp [firstPids,List.range_succ]

/-- At most one thread has incremented the counter and not read it, and then the counter is
one ahead of the identifiers. -/
structure PidInv (s : PidSys) (own : Option TaskId) : Prop where
  lock : LockInv s.sys own
  fits : ∀ t, (s.pc t).Fits (s.sys.pc t) (s.sys.depth t)
  unique : ∀ t u, s.Incremented t → s.Incremented u → t = u
  pids : s.pids = firstPids s.pids.length
  idle : (∀ t, ¬s.Incremented t) → s.nextPid = BitVec.ofNat 16 s.pids.length
  ahead : ∀ t, s.Incremented t → s.nextPid = BitVec.ofNat 16 (s.pids.length+1)

section Steps
variable {s s' : PidSys} {own own' : Option TaskId}

/-- Another state with the same counter, in which the same threads have incremented. -/
theorem PidInv.ofLock (h : PidInv s own) (hl : LockInv s'.sys own')
    (hfits : ∀ t, (s'.pc t).Fits (s'.sys.pc t) (s'.sys.depth t))
    (hinc : ∀ t, s'.Incremented t ↔ s.Incremented t) (hn : s'.nextPid = s.nextPid)
    (hp : s'.pids = s.pids) : PidInv s' own' := by
  refine ⟨hl,hfits,fun t u ht hu => ?_,by rw [hp]; exact h.pids,fun hi => ?_,fun t ht => ?_⟩
  · exact h.unique t u ((hinc t).mp ht) ((hinc u).mp hu)
  · rw [hn,hp]
    exact h.idle fun t ht => hi t ((hinc t).mpr ht)
  · rw [hn,hp]
    exact h.ahead t ((hinc t).mp ht)

/-- The running thread calls a lock function, or goes on in allocate_pid without touching the
counter; whether it has incremented stays as it is. -/
theorem PidInv.called (h : PidInv s own) {p : LockPc} {q : PidPc}
    (hl : LockInv (s.sys.goto p) own')
    (hq : q.Fits p (s.sys.depth s.cur))
    (hinc : (q = .release ∨ q = .read) ↔ s.Incremented s.cur) :
    PidInv ((s.setSys (s.sys.goto p)).goto q) own' := by
  refine h.ofLock hl (fun t => ?_) (fun t => ?_) rfl rfl
  · by_cases ht : t = s.cur
    · subst ht
      simpa [PidSys.goto,PidSys.setSys,PidSys.cur,LockSys.goto] using hq
    · have hf := h.fits t
      simp only [PidSys.cur] at ht
      simpa [PidSys.goto,PidSys.setSys,PidSys.cur,LockSys.goto,ht] using hf
  · by_cases ht : t = s.cur
    · subst ht
      rw [← hinc]
      simp [PidSys.Incremented,PidSys.goto,PidSys.setSys,PidSys.cur,LockSys.goto]
    · simp only [PidSys.cur] at ht
      simp [PidSys.Incremented,PidSys.goto,PidSys.setSys,PidSys.cur,LockSys.goto,ht]

/-- The increment, by the thread that holds the lock, while nobody has to read. -/
theorem PidInv.increment (h : PidInv s own) (hr : s.ReadsFirst) (hpc : s.pc s.cur = .increment)
    (hl : s.sys.pc s.cur = .outside) :
    PidInv { s.goto .release with nextPid := s.nextPid+1 } own := by
  have hd : s.sys.depth s.cur = 1 := by
    have hf := h.fits s.cur
    rw [hpc] at hf
    obtain ⟨-,hd⟩ | ⟨ha,-⟩ := hf
    · exact hd
    · rw [hl] at ha
      exact ha.elim
  have hown : own = some s.cur := (h.lock.owns _).mp (by simp [hl,LockPc.Owns,hd])
  have hnone : ∀ t, ¬s.Incremented t := by
    rintro t (ht | ht)
    · have hf := h.fits t
      rw [ht] at hf
      have ho : own = some t := (h.lock.owns _).mp (by simp [hf.1,LockPc.Owns,hf.2])
      obtain rfl := Option.some.inj (hown.symm.trans ho)
      simp [hpc] at ht
    · by_cases he : t = s.cur
      · simp [he,hpc] at ht
      · exact hr hpc hl t he ht
  have hinc : ∀ t, ({ s.goto .release with nextPid := s.nextPid+1 } : PidSys).Incremented t ↔
      t = s.cur := by
    intro t
    by_cases ht : t = s.cur
    · simp [PidSys.Incremented,PidSys.goto,ht]
    · have hn := hnone t
      simp only [PidSys.Incremented] at hn
      simp [PidSys.Incremented,PidSys.goto,ht,hn]
  refine ⟨h.lock,fun t => ?_,fun t u ht hu => ?_,h.pids,fun hi => ?_,fun t _ => ?_⟩
  · by_cases ht : t = s.cur
    · subst ht
      simpa [PidSys.goto,PidPc.Fits] using ⟨hl,hd⟩
    · simpa [PidSys.goto,ht] using h.fits t
  · rw [(hinc t).mp ht,(hinc u).mp hu]
  · exact absurd ((hinc s.cur).mpr rfl) (hi _)
  · change s.nextPid+1 = BitVec.ofNat 16 (s.pids.length+1)
    rw [h.idle hnone,BitVec.ofNat_add]
    rfl

/-- The read gives the thread the identifier that it made. -/
theorem PidInv.read (h : PidInv s own) (hpc : s.pc s.cur = .read)
    (hl : s.sys.pc s.cur = .outside) :
    PidInv { s.goto .outside with pids := s.pids++[s.nextPid] } own := by
  have hd : s.sys.depth s.cur = 0 := by
    have hf := h.fits s.cur
    rw [hpc] at hf
    obtain ⟨-,hd⟩ | ⟨hr,-⟩ := hf
    · exact hd
    · rw [hl] at hr
      exact hr.elim
  have hcur : s.Incremented s.cur := .inr hpc
  have hnone : ∀ t, ¬({ s.goto .outside with pids := s.pids++[s.nextPid] } : PidSys).Incremented t := by
    intro t
    by_cases ht : t = s.cur
    · simp [PidSys.Incremented,PidSys.goto,ht]
    · have hn : ¬s.Incremented t := fun hi => ht (h.unique t _ hi hcur)
      simpa [PidSys.Incremented,PidSys.goto,ht] using hn
  refine ⟨h.lock,fun t => ?_,fun t _ ht => absurd ht (hnone t),?_,fun _ => ?_,
    fun t ht => absurd ht (hnone t)⟩
  · by_cases ht : t = s.cur
    · subst ht
      simpa [PidSys.goto,PidPc.Fits] using ⟨hl,hd⟩
    · simpa [PidSys.goto,ht] using h.fits t
  · change s.pids++[s.nextPid] = firstPids (s.pids++[s.nextPid]).length
    rw [h.ahead _ hcur,List.length_append,List.length_singleton,← firstPids_succ,← h.pids]
  · change s.nextPid = BitVec.ofNat 16 (s.pids++[s.nextPid]).length
    rw [h.ahead _ hcur]
    simp

/-- One step preserves the invariant, provided that it reads first. -/
theorem PidInv.step (h : PidInv s own) (hr : s.ReadsFirst) (hs : s.Step s') :
    ∃ own', PidInv s' own' := by
  have hfits := h.fits s.cur
  cases hs with
  | call hp hpc hl =>
    rw [hpc] at hfits
    have hd : s.sys.depth s.sys.sched.runningThread = 0 := hfits.2
    obtain ⟨own',hl',-⟩ := h.lock.step (.acquire hp hl (by simp [hd]))
    exact ⟨own',h.called hl' (.inr ⟨trivial,hd⟩) (by simp [PidSys.Incremented,hpc])⟩
  | stmt hp hpc hl =>
    cases hcase : s.pc s.cur with
    | outside => exact absurd hcase hpc
    | increment =>
      simp only [PidSys.stmt,hcase]
      exact ⟨own,h.increment hr hcase hl⟩
    | release =>
      rw [hcase] at hfits
      have hd : s.sys.depth s.sys.sched.runningThread = 1 := hfits.2
      obtain ⟨own',hl',-⟩ := h.lock.step (.release hp hl (by simp [hd]))
      simp only [PidSys.stmt,hcase]
      exact ⟨own',h.called hl' (.inr ⟨trivial,hfits.2.le⟩) (by simp [PidSys.Incremented,hcase])⟩
    | read =>
      simp only [PidSys.stmt,hcase]
      exact ⟨own,h.read hcase hl⟩
  | lock hl hp hs =>
    obtain ⟨own',hl',-⟩ := h.lock.step (.stmt hl hp hs)
    refine ⟨own',h.ofLock hl' (fun t => ?_) (fun _ => Iff.rfl) rfl rfl⟩
    by_cases ht : t = s.cur
    · subst ht
      change (s.pc s.cur).Fits _ _
      cases hpc : s.pc s.cur with
      | outside | release =>
        rw [hpc] at hfits
        exact absurd hfits.1 hl
      | increment =>
        rw [hpc] at hfits
        obtain ⟨ha,hd⟩ := hfits.resolve_left fun hf => hl hf.1
        exact h.lock.stmt_acquiring ha hd hs
      | read =>
        rw [hpc] at hfits
        obtain ⟨ha,hd⟩ := hfits.resolve_left fun hf => hl hf.1
        exact h.lock.stmt_releasing ha hd hs
    · obtain ⟨hpc,hd,-⟩ := LockSys.stmt_frame hs ht
      have hf := h.fits t
      rw [← hpc,← hd] at hf
      exact hf
  | tick hen hs =>
    obtain ⟨own',hl',-⟩ := h.lock.step (.tick hen hs)
    exact ⟨own',h.ofLock hl' h.fits (fun _ => Iff.rfl) rfl rfl⟩
  | kernel op hen hpc hl hop hs =>
    obtain ⟨own',hl',-⟩ := h.lock.step (.kernel op hen hl hop hs)
    exact ⟨own',h.ofLock hl' h.fits (fun _ => Iff.rfl) rfl rfl⟩

theorem PidInv.init (mainThread : TaskId) (value : SemaphoreId → ℕ) (psema : SemaphoreId) :
    PidInv (PidSys.init mainThread value psema) none := by
  refine ⟨.init mainThread value psema,fun _ => ⟨rfl,rfl⟩,?_,rfl,fun _ => rfl,?_⟩
  all_goals simp [PidSys.Incremented,PidSys.init]

end Steps

end OsKernel

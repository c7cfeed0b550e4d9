import OsKernel.Thread.SchedulerInvariant

/-! Every operation of the scheduler preserves the invariant, and can only fail at an assertion
about what its caller promised, or in schedule when no task is ready. -/
namespace OsKernel.Sched
open IntrusiveList

/-- The assertions that check a promise of the caller. -/
def callerAsserts : List Panic :=
  [.assert "schedule" "intr_get_status()==INTR_OFF",
    .assert "thread_block"
      "((stat == TASK_BLOCKED) || (stat == TASK_WAITING) || stat == TASK_HANGING)",
    .assert "thread_unblock"
      "((pthread->status == TASK_BLOCKED) || (pthread->status == TASK_WAITING) || (pthread->status == TASK_HANGING))",
    .assert "sema_down" "psema->value==0",
    .assert "sema_up" "psema->value==0",
    .assert "sema_up" "psema->value==1"]

section Operations
variable {s : Sched} {q : Queues} {r : Resume}

/-- The invariant reads the links, the tasks, the running task and the interrupt flag only. -/
theorem Inv.of_eq (h : Inv s q) {s' : Sched} (hl : s'.links = s.links) (ht : s'.task = s.task)
    (hr : s'.resume = s.resume) (hc : s'.created = s.created)
    (hcur : s'.runningThread = s.runningThread) (hp : s'.pending ≠ none → s'.intr = false) :
    Inv s' q := by
  refine ⟨⟨h.toLinkage.of_eq hl hc,?_,?_,?_,?_,?_⟩,?_,?_,hp⟩
  · rw [hcur,hc]; exact h.running_mem
  · rw [hcur,hc,ht]; exact h.running_only
  · rw [hc,ht]; exact h.ready_iff
  · rw [hc]; exact h.all_eq
  · rw [hc,ht]; exact h.magic
  · rw [hcur,ht]; exact h.running
  · intro t p
    rw [h.waiters_iff t p]
    simp only [WaitsFor,hc,ht,hr]

/-- A running task that calls schedule goes to the end of the ready list. -/
theorem Inv.schedule (h : Inv s q) (hi : s.intr = false) (hp : s.pending = none) :
    Outcome (s.schedule r) (fun s' => (∃ l, Inv s' (q.setReady l)) ∧ Switched s r s')
      (fun _ => False) := by
  have hoff := h.off_running
  have hfind := h.elemFind_eq "schedule" .threadReadyList (.generalTag s.runningThread)
  simp only [Queues.lists,List.mem_map,Node.generalTag.injEq,exists_eq_right,hoff.1,
    decide_false] at hfind
  let s₁ := (s.listAppend .threadReadyList (.generalTag s.runningThread)).setTask s.runningThread
    fun p => { p with ticks := p.priority, status := .ready }
  have hne : ∀ t, t ≠ s.runningThread → s₁.task t = s.task t :=
    fun t ht => setTask_task_of_ne _ _ _ ht
  have hself : (s₁.task s.runningThread).status = .ready := by simp [s₁]
  have hcore : Core s₁ (q.setReady (q.ready ++ [s.runningThread])) := by
    refine ⟨(h.listAppend_ready hoff h.running_mem).of_eq rfl rfl,h.running_mem,?_,?_,h.all_eq,?_⟩
    · intro t hc hr
      by_contra hn
      rw [hne t hn] at hr
      exact hn (h.running_only t hc hr)
    · intro t
      by_cases hn : t = s.runningThread
      · subst hn
        simp only [Queues.setReady,List.mem_append,List.mem_singleton,or_true,hself,and_true,true_iff]
        exact h.running_mem
      · rw [hne t hn]
        simpa [Queues.setReady,hn,s₁,listAppend] using h.ready_iff t
    · intro t hc
      by_cases hn : t = s.runningThread
      · subst hn
        simpa [s₁,listAppend] using h.magic _ h.running_mem
      · rw [hne t hn]
        exact h.magic t hc
  have hnext := hcore.scheduleNext (r := r) hi hp (by
      change (s₁.task s.runningThread).status ≠ .running
      rw [hself]
      simp) (fun t p ht => by
      rw [show (q.setReady (q.ready ++ [s.runningThread])).waiters p = q.waiters p from rfl,
        h.waiters_iff t p]
      simp only [WaitsFor]
      rw [hne t ht]
      rfl) (fun p => by
      change s.runningThread ∈ q.waiters p ↔ (s₁.task s.runningThread).status = .blocked ∧ _
      simp [hself,hoff.2 p])
  have heq : s.schedule r = s₁.scheduleNext s₁.runningThread r := by
    rw [OsKernel.Sched.schedule,assert_of hi,bind_of_ok rfl]
    simp only [h.running,if_true,hfind]
    rfl
  rw [heq]
  refine hnext.mono ?_ ?_
  · rintro s' ⟨⟨l,hl⟩,hs⟩
    refine ⟨⟨l,hl⟩,hs.resume,hs.value,hs.created,hs.pending,?_,?_,hs.next_mem⟩
    · intro t h₁ h₂
      have hn : t ≠ s.runningThread := fun e => h₂ (e ▸ h.running)
      have ha := hs.asleep t
      rw [hne t hn] at ha
      exact ha h₁ h₂
    · intro t hn
      have ha := hs.others t hn
      rw [hne t hn] at ha
      exact ha
  · rintro e ⟨-,hempty⟩
    simp [Queues.setReady] at hempty

/-- thread_block suspends the running task. Its general_tag is on a waiters list exactly when
its caller is the loop of sema_down. -/
theorem Core.threadBlock (h : Core s q) (hp : s.pending = none)
    (hrun : (s.task s.runningThread).status = .running) (stat : TaskStatus) (f : Bool → Resume)
    (hw : ∀ t p, t ≠ s.runningThread → (t ∈ q.waiters p ↔ s.WaitsFor t p))
    (hwc : ∀ p, s.runningThread ∈ q.waiters p ↔ stat = .blocked ∧ ∃ o, f s.intr = .semaDown p o) :
    Outcome (s.threadBlock stat f)
      (fun s' => (∃ l, Inv s' (q.setReady l)) ∧ Switched s (f s.intr) s' ∧
        (s'.task s.runningThread).status = stat)
      (fun e => e ∈ callerAsserts ∧ ¬ (stat = .blocked ∨ stat = .waiting ∨ stat = .hanging) ∨
        e = readyEmpty ∧ q.ready = []) := by
  refine Outcome.bind (Outcome.assert (p := stat = .blocked ∨ stat = .waiting ∨ stat = .hanging)
    ((Decidable.em _).imp_right fun hn => .inl ⟨by simp [callerAsserts],hn⟩)) fun _ hstat => ?_
  have hnr : stat ≠ .running ∧ stat ≠ .ready := by
    obtain h₁ | h₁ | h₁ := hstat <;> simp [h₁]
  let s₁ := (s.setIntr false).setStatus s.runningThread stat
  have hne : ∀ t, t ≠ s.runningThread → s₁.task t = s.task t :=
    fun t ht => setTask_task_of_ne _ _ _ ht
  have hself : (s₁.task s.runningThread).status = stat := by simp [s₁,setStatus]
  have hcore : Core s₁ q := by
    refine ⟨h.toLinkage.of_eq rfl rfl,h.running_mem,?_,?_,h.all_eq,?_⟩
    · intro t hc hr
      by_contra hn
      rw [hne t hn] at hr
      exact hn (h.running_only t hc hr)
    · intro t
      by_cases hn : t = s.runningThread
      · subst hn
        rw [h.ready_iff,hrun,hself]
        simp [hnr.2]
      · rw [hne t hn]
        exact h.ready_iff t
    · intro t hc
      by_cases hn : t = s.runningThread
      · subst hn
        simpa [s₁,setStatus,setIntr] using h.magic _ h.running_mem
      · rw [hne t hn]
        exact h.magic t hc
  have heq : s₁.schedule (f s.intr) = s₁.scheduleNext s₁.runningThread (f s.intr) := by
    have hstat' : (s₁.task s₁.runningThread).status ≠ .running := by
      change (s₁.task s.runningThread).status ≠ .running
      rw [hself]
      exact hnr.1
    rw [OsKernel.Sched.schedule,assert_of (show s₁.intr = false from rfl),bind_of_ok rfl]
    simp only [hstat',if_false]
    rfl
  change Outcome (s₁.schedule (f s.intr)) _ _
  rw [heq]
  refine (hcore.scheduleNext rfl hp ?_ ?_ ?_).mono ?_ (fun e he => .inr he)
  · change (s₁.task s.runningThread).status ≠ .running
    rw [hself]
    exact hnr.1
  · intro t p ht
    rw [hw t p ht]
    simp only [WaitsFor]
    rw [hne t ht]
    rfl
  · intro p
    change s.runningThread ∈ q.waiters p ↔ (s₁.task s.runningThread).status = .blocked ∧ _
    rw [hself]
    exact hwc p
  · rintro s' ⟨hl,hs⟩
    refine ⟨hl,⟨hs.resume,hs.value,hs.created,hs.pending,?_,?_,hs.next_mem⟩,?_⟩
    · intro t h₁ h₂
      have hn : t ≠ s.runningThread := fun e => h₂ (e ▸ hrun)
      have ha := hs.asleep t
      rw [hne t hn] at ha
      exact ha h₁ h₂
    · intro t hn
      have ha := hs.others t hn
      rw [hne t hn] at ha
      exact ha
    · have ha := hs.asleep s.runningThread
      rw [hself] at ha
      exact ha hnr.2 hnr.1

/-- thread_unblock puts a task that is on no list at the front of the ready list. -/
theorem Linkage.threadUnblock (h : Linkage s q) {t : TaskId}
    (hoff : (s.task t).status ≠ .ready → q.Off t) (hc : t ∈ s.created) :
    Outcome (s.threadUnblock t)
      (fun s' => ∃ links, s' = ({ s with links := links } : Sched).setStatus t .ready ∧
        (s.task t).status ≠ .running ∧ (s.task t).status ≠ .ready ∧
        Linkage s' (q.setReady (t :: q.ready)))
      (fun e => e ∈ callerAsserts ∧ (s.task t).status ≠ .blocked) := by
  refine Outcome.bind (Outcome.assert (p := (s.task t).status = .blocked ∨
    (s.task t).status = .waiting ∨ (s.task t).status = .hanging)
    ((Decidable.em _).imp_right fun hn => ⟨by simp [callerAsserts],fun hb => hn (.inl hb)⟩))
    fun _ hstat => ?_
  have hne : (s.task t).status ≠ .ready ∧ (s.task t).status ≠ .running := by
    obtain h₁ | h₁ | h₁ := hstat <;> simp [h₁]
  have ht := hoff hne.1
  have hlink₀ : Linkage (s.setIntr false) q := h.of_eq rfl rfl
  have hfind := hlink₀.elemFind_eq "thread_unblock" .threadReadyList (.generalTag t)
  simp only [Queues.lists,List.mem_map,Node.generalTag.injEq,exists_eq_right,ht.1,
    decide_false] at hfind
  have hlink := hlink₀.listPush_ready ht hc
  have hset : ((s.setIntr false).task t).status ≠ .ready := hne.1
  refine Outcome.of_eq (a := ({ s with
    links := insertBefore s.links (s.links.next (.head .threadReadyList)) (.generalTag t) } :
    Sched).setStatus t .ready) ?_ ⟨_,rfl,hne.2,hne.1,hlink.of_eq rfl rfl⟩
  simp only [if_pos hset,hfind,bind_of_ok rfl]
  rfl

/-- A task leaves its waiters list, if it is on one, and becomes ready. -/
theorem Inv.wake (h : Inv s q) (q₁ : Queues) {t : TaskId} {links : Links Node}
    (hall : q₁.all = q.all)
    (hw : ∀ u p, u ≠ t → (u ∈ q₁.waiters p ↔ u ∈ q.waiters p)) (ht : ∀ p, t ∉ q₁.waiters p)
    (hc : t ∈ s.created) (hrun : (s.task t).status ≠ .running)
    (hlink : Linkage (({ s with links := links } : Sched).setStatus t .ready)
      (q₁.setReady (t :: q.ready))) :
    Inv (({ s with links := links } : Sched).setStatus t .ready) (q₁.setReady (t :: q.ready)) := by
  have hne : ∀ u, u ≠ t → (({ s with links := links } : Sched).setStatus t .ready).task u =
      s.task u := fun u hu => setTask_task_of_ne _ _ _ hu
  have hself : ((({ s with links := links } : Sched).setStatus t .ready).task t).status = .ready :=
    by simp [setStatus]
  have hcur : s.runningThread ≠ t := fun e => hrun (e ▸ h.running)
  refine ⟨⟨hlink,h.running_mem,?_,?_,?_,?_⟩,?_,?_,h.pending_off⟩
  · intro u hu hr
    by_cases hn : u = t
    · rw [hn,hself] at hr
      contradiction
    · rw [hne u hn] at hr
      exact h.running_only u hu hr
  · intro u
    by_cases hn : u = t
    · subst hn
      simp only [Queues.setReady,List.mem_cons,true_or,hself,and_true,true_iff]
      exact hc
    · rw [hne u hn]
      simpa [Queues.setReady,hn,setStatus] using h.ready_iff u
  · rw [show (q₁.setReady (t :: q.ready)).all = q₁.all from rfl,hall]
    exact h.all_eq
  · intro u hu
    by_cases hn : u = t
    · subst hn
      simpa [setStatus] using h.magic u hc
    · rw [hne u hn]
      exact h.magic u hu
  · exact (congrArg Task.status (hne _ hcur)).trans h.running
  · intro u p
    by_cases hn : u = t
    · subst hn
      simp [Queues.setReady,ht p,WaitsFor,hself]
    · rw [show (q₁.setReady (t :: q.ready)).waiters p = q₁.waiters p from rfl,hw u p hn,
        h.waiters_iff u p]
      simp only [WaitsFor]
      rw [hne u hn]
      rfl

/-- A task that does not sleep in sema_down becomes ready. -/
theorem Inv.threadUnblock (h : Inv s q) {t : TaskId} (hc : t ∈ s.created)
    (hnw : ∀ p, ¬ s.WaitsFor t p) :
    Outcome (s.threadUnblock t)
      (fun s' => ∃ links, s' = ({ s with links := links } : Sched).setStatus t .ready ∧
        Inv s' (q.setReady (t :: q.ready)))
      (fun e => e ∈ callerAsserts ∧ (s.task t).status ≠ .blocked) := by
  have hw : ∀ p, t ∉ q.waiters p := fun p hm => hnw p ((h.waiters_iff t p).mp hm)
  refine (h.toLinkage.threadUnblock (fun hr => ⟨fun hm => hr ((h.ready_iff t).mp hm).2,hw⟩) hc).mono
    ?_ fun e he => he
  rintro s' ⟨links,rfl,hrun,-,hlink⟩
  exact ⟨links,rfl,h.wake q rfl (fun _ _ _ => Iff.rfl) hw hc hrun hlink⟩

/-- The loop of sema_down: the running task waits, or takes the semaphore. -/
theorem Inv.semaDownLoop (h : Inv s q) (hp : s.pending = none) (psema : SemaphoreId) (o : Bool) :
    Outcome (s.semaDownLoop psema o)
      (fun s' => (∃ q', Inv s' q') ∧
        (s.value psema = 0 ∧ Switched s (.semaDown psema o) s' ∧
            (s'.task s.runningThread).status = .blocked ∨
          s.value psema = 1 ∧
            s' = { s with intr := o, value := Function.update s.value psema 0 }))
      (fun e => e ∈ callerAsserts ∧ 1 < s.value psema ∨
        s.value psema = 0 ∧ e = readyEmpty ∧ q.ready = []) := by
  have hoff := h.off_running
  have hfind := h.elemFind_eq "sema_down" (.waiters psema) (.generalTag s.runningThread)
  simp only [Queues.lists,List.mem_map,Node.generalTag.injEq,exists_eq_right,hoff.2 psema,
    decide_false] at hfind
  by_cases hv : s.value psema = 0
  · let s₁ := s.listAppend (.waiters psema) (.generalTag s.runningThread)
    have heq : s.semaDownLoop psema o = s₁.threadBlock .blocked fun _ => .semaDown psema o := by
      simp only [OsKernel.Sched.semaDownLoop,hv,if_true,hfind,bind_of_ok rfl]
      rfl
    have hcore : Core s₁ (q.setWaiters psema (q.waiters psema ++ [s.runningThread])) :=
      ⟨h.listAppend_waiters hoff h.running_mem psema,h.running_mem,h.running_only,h.ready_iff,
        h.all_eq,h.magic⟩
    rw [heq]
    refine (hcore.threadBlock hp h.running .blocked (fun _ => .semaDown psema o) ?_ ?_).mono ?_ ?_
    · intro t p ht
      change t ∈ Function.update q.waiters psema _ p ↔ s.WaitsFor t p
      rw [← h.waiters_iff t p]
      by_cases hpp : p = psema
      · subst hpp
        simp only [Function.update_self,List.mem_append,List.mem_singleton,or_iff_left_iff_imp]
        exact fun e => absurd e ht
      · rw [Function.update_of_ne hpp]
    · intro p
      change s.runningThread ∈ Function.update q.waiters psema _ p ↔ _
      by_cases hpp : p = psema
      · subst hpp
        simp
      · simp [Function.update_of_ne hpp,hoff.2 p,Ne.symm hpp]
    · rintro s' ⟨⟨l,hl⟩,hs,hstat⟩
      refine ⟨⟨_,hl⟩,.inl ⟨hv,⟨hs.resume,hs.value,hs.created,hs.pending,hs.asleep,hs.others,hs.next_mem⟩,?_⟩⟩
      exact hstat
    · rintro e (⟨-,hn⟩ | ⟨he,hready⟩)
      · exact absurd (.inl rfl) hn
      · exact .inr ⟨hv,he,hready⟩
  · have heq : s.semaDownLoop psema o = (do
        assert (s.value psema-1 = 0) "sema_down" "psema->value==0"
        return { s with intr := o, value := Function.update s.value psema (s.value psema-1) }) := by
      simp only [OsKernel.Sched.semaDownLoop,hv,if_false,Function.update_self]
      rfl
    rw [heq]
    refine Outcome.bind (Outcome.assert (p := s.value psema-1 = 0)
      ((Decidable.em _).imp_right fun hn => .inl ⟨by simp [callerAsserts],by omega⟩)) fun _ h₁ => ?_
    have hone : s.value psema = 1 := by omega
    rw [h₁]
    exact ⟨⟨q,h.of_eq rfl rfl rfl rfl rfl fun hn => absurd hp hn⟩,.inr ⟨hone,rfl⟩⟩

/-- What sema_up changes: the value, and the status of the waiter it wakes. -/
structure Upped (s : Sched) (psema : SemaphoreId) (s' : Sched) : Prop where
  zero : s.value psema = 0
  value : s'.value = Function.update s.value psema 1
  resume : s'.resume = s.resume
  created : s'.created = s.created
  runningThread : s'.runningThread = s.runningThread
  pending : s'.pending = s.pending
  intr : s'.intr = s.intr
  task : ∀ t, ¬ s.WaitsFor t psema → s'.task t = s.task t

/-- The first waiter leaves the waiters list before it joins the ready list. -/
theorem Inv.wakeWaiter (h : Inv s q) (psema : SemaphoreId) :
    Outcome (s.wakeWaiter psema)
      (fun s' => (∃ q', Inv s' q') ∧ (∃ links task, s' = { s with links := links, task := task }) ∧
        (q.waiters psema = [] ∧ s'.task = s.task ∨ ∃ t l, q.waiters psema = t :: l ∧
          s'.task = Function.update s.task t { s.task t with status := .ready }))
      (fun _ => False) := by
  unfold OsKernel.Sched.wakeWaiter
  cases hl : q.waiters psema with
  | nil =>
    have he : s.listEmpty (.waiters psema) = true := by
      rw [h.listEmpty_eq]
      simp [Queues.lists,hl]
    rw [he]
    exact ⟨⟨q,h⟩,⟨s.links,s.task,rfl⟩,.inl ⟨rfl,rfl⟩⟩
  | cons t l =>
    have he : s.listEmpty (.waiters psema) = false := by
      rw [h.listEmpty_eq]
      simp [Queues.lists,hl]
    obtain ⟨links,hpop,hlink⟩ := h.listPop_waiters hl
    rw [he,if_pos rfl,hpop]
    have ht := (h.waiters_iff t psema).mp (by simp [hl])
    have hnd := h.nodup_waiters psema
    rw [hl,List.nodup_cons] at hnd
    have hw : ∀ u p, u ≠ t → (u ∈ (q.setWaiters psema l).waiters p ↔ u ∈ q.waiters p) := by
      intro u p hu
      by_cases hp : p = psema
      · subst hp
        simp [Queues.setWaiters,hl,hu]
      · simp [Queues.setWaiters,Function.update_of_ne hp]
    have htw : ∀ p, t ∉ (q.setWaiters psema l).waiters p := by
      intro p
      by_cases hp : p = psema
      · subst hp
        simpa [Queues.setWaiters] using hnd.1
      · simp only [Queues.setWaiters,Function.update_of_ne hp]
        intro hm
        obtain ⟨-,-,o,ho⟩ := ht
        obtain ⟨-,-,o',ho'⟩ := (h.waiters_iff t p).mp hm
        rw [ho] at ho'
        exact hp (Resume.semaDown.inj ho').1.symm
    have htr : t ∉ q.ready := by
      intro hm
      have := ((h.ready_iff t).mp hm).2
      rw [ht.2.1] at this
      contradiction
    refine (hlink.threadUnblock (fun _ => ⟨htr,htw⟩) ht.1).mono ?_ fun e he => he.2 ht.2.1
    rintro s' ⟨links',rfl,hrun,-,hlink'⟩
    refine ⟨⟨_,h.wake (q.setWaiters psema l) rfl hw htw ht.1 hrun hlink'⟩,⟨links',_,rfl⟩,?_⟩
    exact .inr ⟨t,l,rfl,rfl⟩

theorem Inv.semaUp (h : Inv s q) (psema : SemaphoreId) :
    Outcome (s.semaUp psema) (fun s' => (∃ q', Inv s' q') ∧ Upped s psema s')
      (fun e => e ∈ callerAsserts ∧ s.value psema ≠ 0) := by
  refine Outcome.bind (Outcome.assert (p := s.value psema = 0)
    ((Decidable.em _).imp_right fun hn => ⟨by simp [callerAsserts],hn⟩)) fun _ hv => ?_
  have h₀ : Inv (s.setIntr false) q := h.of_eq rfl rfl rfl rfl rfl fun _ => rfl
  refine Outcome.bind ((h₀.wakeWaiter psema).mono (fun _ ha => ha) fun _ he => he.elim)
    fun s₁ hwake => ?_
  obtain ⟨⟨q₁,h₁⟩,⟨links,task,hs₁⟩,htask⟩ := hwake
  subst hs₁
  have hone : (s.value psema+1) % 2^8 = 1 := by rw [hv]; rfl
  simp only [setIntr,Function.update_self,hone]
  refine ⟨⟨q₁,h₁.of_eq rfl rfl rfl rfl rfl fun hp => h.pending_off hp⟩,
    hv,rfl,rfl,rfl,rfl,rfl,rfl,fun t ht => ?_⟩
  obtain ⟨-,htask⟩ | ⟨u,l,hl,htask⟩ := htask
  · exact congrFun htask t
  · have hu := (h.waiters_iff u psema).mp (by simp [hl])
    have hne : t ≠ u := fun e => ht (e ▸ hu)
    exact (congrFun htask t).trans (Function.update_of_ne hne _ _)

/-- sema_up makes the first waiter ready, and changes no other task. -/
theorem Inv.semaUp_task (h : Inv s q) (psema : SemaphoreId) :
    Outcome (s.semaUp psema)
      (fun s' => q.waiters psema = [] ∧ s'.task = s.task ∨ ∃ t l, q.waiters psema = t :: l ∧
        s'.task = Function.update s.task t { s.task t with status := .ready })
      (fun _ => True) := by
  refine Outcome.bind (Outcome.assert (p := s.value psema = 0) (.inr trivial)) fun _ hv => ?_
  have h₀ : Inv (s.setIntr false) q := h.of_eq rfl rfl rfl rfl rfl fun _ => rfl
  refine Outcome.bind ((h₀.wakeWaiter psema).mono (fun _ ha => ha) fun _ he => he.elim) ?_
  rintro s₁ ⟨-,⟨links,task,rfl⟩,htask⟩
  have hone : (s.value psema+1) % 2^8 = 1 := by rw [hv]; rfl
  simp only [setIntr,Function.update_self,hone]
  exact htask

/-- The timer interrupt accounts a tick and may switch to another task. -/
theorem Inv.intrTimerHandler (h : Inv s q) (hp : s.pending = none) :
    Outcome s.intrTimerHandler
      (fun s' => (∃ q', Inv s' q') ∧ (Switched s .timer s' ∨
        s'.value = s.value ∧ s'.resume = s.resume ∧ s'.created = s.created ∧
        s'.runningThread = s.runningThread ∧ s'.pending = none ∧
        ∀ t, (s'.task t).status = (s.task t).status))
      (fun _ => False) := by
  refine Outcome.bind (Outcome.assert (p := (s.task s.runningThread).stackMagic = 0x19980906)
    (.inl (h.magic _ h.running_mem))) fun _ _ => ?_
  let s₁ : Sched := { (s.setIntr false).setTask s.runningThread fun p =>
    { p with elapsedTicks := (p.elapsedTicks+1) % 2^32 } with ticks := (s.ticks+1) % 2^32 }
  have hsame : ∀ (s' : Sched) (f : Task → Task), s'.task = Function.update s.task s.runningThread
      (f (s.task s.runningThread)) → (∀ p, (f p).status = p.status ∧ (f p).stackMagic = p.stackMagic) →
      ∀ t, (s'.task t).status = (s.task t).status ∧ (s'.task t).stackMagic = (s.task t).stackMagic := by
    intro s' f hs hf t
    by_cases ht : t = s.runningThread
    · subst ht
      rw [hs,Function.update_self]
      exact hf _
    · rw [hs,Function.update_of_ne ht]
      exact ⟨rfl,rfl⟩
  have hinv : ∀ s' : Sched, s'.links = s.links → s'.resume = s.resume → s'.created = s.created →
      s'.runningThread = s.runningThread → s'.pending = none →
      (∀ t, (s'.task t).status = (s.task t).status ∧ (s'.task t).stackMagic = (s.task t).stackMagic) →
      Inv s' q := by
    intro s' hl hr hc hcur hpend ht
    refine ⟨⟨h.toLinkage.of_eq hl hc,?_,?_,?_,?_,?_⟩,?_,?_,fun hn => absurd hpend hn⟩
    · rw [hcur,hc]; exact h.running_mem
    · intro t; rw [hcur,hc,(ht t).1]; exact h.running_only t
    · intro t; rw [hc,(ht t).1]; exact h.ready_iff t
    · rw [hc]; exact h.all_eq
    · intro t; rw [hc,(ht t).2]; exact h.magic t
    · rw [hcur,(ht _).1]; exact h.running
    · intro t p
      rw [h.waiters_iff t p]
      simp only [WaitsFor,hc,(ht t).1,hr]
  have ht₁ := hsame s₁ (fun p => { p with elapsedTicks := (p.elapsedTicks+1) % 2^32 }) rfl
    fun _ => ⟨rfl,rfl⟩
  change Outcome (if (s₁.task s.runningThread).ticks = 0 then s₁.schedule .timer else
    .ok ((s₁.setTask s.runningThread fun p => { p with ticks := p.ticks-1 }).setIntr true)) _ _
  split
  · refine ((hinv s₁ rfl rfl rfl rfl hp ht₁).schedule (r := .timer) rfl hp).mono ?_ fun e he => he
    rintro s' ⟨⟨l,hl⟩,hs⟩
    refine ⟨⟨_,hl⟩,.inl ⟨hs.resume,hs.value,hs.created,hs.pending,?_,?_,hs.next_mem⟩⟩
    · intro t
      rw [← (ht₁ t).1]
      exact hs.asleep t
    · intro t
      rw [← (ht₁ t).1]
      exact hs.others t
  · have ht₂ := hsame ((s₁.setTask s.runningThread fun p =>
        { p with ticks := p.ticks-1 }).setIntr true)
      (fun p => { p with elapsedTicks := (p.elapsedTicks+1) % 2^32, ticks := p.ticks-1 })
      (by simp [s₁,setTask,setIntr]) fun _ => ⟨rfl,rfl⟩
    exact ⟨⟨q,hinv _ rfl rfl rfl rfl hp ht₂⟩,.inr ⟨rfl,rfl,rfl,rfl,hp,fun t => (ht₂ t).1⟩⟩

/-- A completed thread_start or process_execute adds one ready task. -/
theorem Inv.enqueue (h : Inv s q) (hp : s.pending = none) {t : TaskId} (ht : t ∉ s.created)
    (prio : ℕ) (func : String) (b : Bool) :
    Outcome (((s.create t prio).setIntr b).enqueue func t)
      (fun s' => (∃ q', Inv s' q') ∧ ∃ links, s' = { (s.create t prio).setIntr b with links := links })
      (fun _ => False) := by
  let s₀ := (s.create t prio).setIntr b
  have hoff : q.Off t := ⟨fun hm => ht (h.ready_sub hm),fun p hm => ht (h.waiters_sub p hm)⟩
  have hsub : ∀ u, u ∈ s.created → u ∈ s₀.created := fun u hu => List.mem_append_left _ hu
  have htc : t ∈ s₀.created := List.mem_append_right _ (List.mem_singleton.mpr rfl)
  have h₀ : Linkage s₀ q := ⟨h.represents,fun u hu => hsub u (h.ready_sub hu),
    fun u hu => hsub u (h.all_sub hu),fun p u hu => hsub u (h.waiters_sub p hu)⟩
  have h₁ := h₀.listAppend_ready hoff htc
  have hall : t ∉ (q.setReady (q.ready ++ [t])).all := fun hm => ht (h.all_sub hm)
  have h₂ := h₁.listAppend_all hall htc
  have hf₁ := h₀.elemFind_eq func .threadReadyList (.generalTag t)
  have hf₂ := h₁.elemFind_eq func .threadAllList (.allListTag t)
  simp only [Queues.lists,List.mem_map,Node.generalTag.injEq,exists_eq_right,hoff.1,
    decide_false] at hf₁
  simp only [Queues.lists,List.mem_map,Node.allListTag.injEq,exists_eq_right,hall,
    decide_false] at hf₂
  refine Outcome.of_eq (a := (s₀.listAppend .threadReadyList (.generalTag t)).listAppend
    .threadAllList (.allListTag t)) ?_ ⟨⟨_,⟨h₂,?_,?_,?_,?_,?_⟩,?_,?_,?_⟩,⟨_,rfl⟩⟩
  · simp only [OsKernel.Sched.enqueue]
    rw [show ((s.create t prio).setIntr b) = s₀ from rfl,hf₁]
    simp only [bind_of_ok rfl,hf₂]
    rfl
  · exact hsub _ h.running_mem
  · intro u hu hr
    by_cases hn : u = t
    · subst hn
      simp [listAppend,s₀,create,setIntr,initThread] at hr
    · have hu' : u ∈ s.created := by simpa [s₀,create,setIntr,listAppend,hn] using hu
      exact h.running_only u hu' (by simpa [listAppend,s₀,create,setIntr,hn] using hr)
  · intro u
    by_cases hn : u = t
    · subst hn
      simp [Queues.setReady,Queues.setAll,listAppend,s₀,create,setIntr,initThread]
    · have hr := h.ready_iff u
      simp only [Queues.setReady,Queues.setAll,listAppend,s₀,create,setIntr,List.mem_append,
        List.mem_singleton,hn,or_false,Function.update_of_ne hn]
      exact hr
  · simp [Queues.setReady,Queues.setAll,listAppend,s₀,create,setIntr,h.all_eq]
  · intro u hu
    by_cases hn : u = t
    · subst hn
      simp [listAppend,s₀,create,setIntr,initThread]
    · have hu' : u ∈ s.created := by simpa [s₀,create,setIntr,listAppend,hn] using hu
      simpa [listAppend,s₀,create,setIntr,hn] using h.magic u hu'
  · have hne : s.runningThread ≠ t := fun e => ht (e ▸ h.running_mem)
    simpa [listAppend,s₀,create,setIntr,hne] using h.running
  · intro u p
    change u ∈ q.waiters p ↔ _
    by_cases hn : u = t
    · subst hn
      simp [hoff.2 p,WaitsFor,listAppend,s₀,create,setIntr,initThread]
    · rw [h.waiters_iff u p]
      simp [WaitsFor,listAppend,s₀,create,setIntr,hn]
  · exact fun hn => absurd hp hn

end Operations

end OsKernel.Sched

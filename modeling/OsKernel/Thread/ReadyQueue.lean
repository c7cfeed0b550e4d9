import OsKernel.Thread.SchedulerRuns

/-! What every operation does to the sequence of ready tasks and to the time slices: the exact
ready list after the operation, not only who is on it. -/
namespace OsKernel.Sched
open IntrusiveList

/-- The links have the tasks in l on the ready list, in this order. -/
def ReadyList (s : Sched) (l : List TaskId) : Prop := ∃ q, Linkage s q ∧ q.ready = l

/-- The first task of l has the processor, and the others are ready. -/
def Dispatches (l : List TaskId) (s' : Sched) : Prop :=
  ∃ next rest, l = next :: rest ∧ s'.runningThread = next ∧ ReadyList s' rest

section Lists
variable {s s' : Sched} {q : Queues} {r : Resume} {l l' : List TaskId} {t : TaskId}

theorem ReadyList.unique (h : ReadyList s l) (h' : ReadyList s l') : l = l' := by
  obtain ⟨q,hq,rfl⟩ := h
  obtain ⟨q',hq',rfl⟩ := h'
  have heq := hq.represents.unique hq'.represents .threadReadyList
  exact List.map_injective_iff.mpr (fun _ _ he => Node.generalTag.inj he) heq

theorem Inv.readyList (h : Inv s q) : ReadyList s q.ready := ⟨q,h.toLinkage,rfl⟩

/-- The first half of the scheduler invariant, for a list that is known. -/
theorem ReadyList.eq_of_inv (h : ReadyList s l) (hq : Inv s q) : q.ready = l :=
  hq.readyList.unique h

/-- schedule gives the processor to the first ready task. -/
theorem Linkage.scheduleNext (h : Linkage s q) (cur : TaskId) :
    Outcome (s.scheduleNext cur r) (Dispatches q.ready) (fun _ => True) := by
  refine Outcome.bind (Outcome.assert (.inr trivial)) fun _ hne => ?_
  cases hl : q.ready with
  | nil =>
    rw [h.listEmpty_eq] at hne
    simp [Queues.lists,hl] at hne
  | cons next rest =>
    obtain ⟨links,hpop,hlink⟩ := h.listPop_ready hl
    rw [hpop]
    refine ⟨next,rest,rfl,?_,_,hlink.of_eq ?_ ?_,rfl⟩ <;> simp [switchTo,setStatus]

/-- The running task joins the ready list behind all others. -/
theorem Linkage.schedule (h : Linkage s q) (hoff : q.Off s.runningThread)
    (hmem : s.runningThread ∈ s.created) (hrun : (s.task s.runningThread).status = .running) :
    Outcome (s.schedule r) (Dispatches (q.ready ++ [s.runningThread])) (fun _ => True) := by
  have hfind := h.elemFind_eq "schedule" .threadReadyList (.generalTag s.runningThread)
  simp only [Queues.lists,List.mem_map,Node.generalTag.injEq,exists_eq_right,hoff.1,
    decide_false] at hfind
  let s₁ := (s.listAppend .threadReadyList (.generalTag s.runningThread)).setTask s.runningThread
    fun p => { p with ticks := p.priority, status := .ready }
  have hlink : Linkage s₁ (q.setReady (q.ready ++ [s.runningThread])) :=
    (h.listAppend_ready hoff hmem).of_eq rfl rfl
  by_cases hi : s.intr = false
  · have heq : s.schedule r = s₁.scheduleNext s₁.runningThread r := by
      rw [OsKernel.Sched.schedule,assert_of hi,bind_of_ok rfl]
      simp only [hrun,if_true,hfind]
      rfl
    rw [heq]
    exact hlink.scheduleNext _
  · exact Outcome.bind (Outcome.assert (.inr trivial)) fun _ h => absurd h hi

/-- A task that goes to sleep is on no ready list. -/
theorem Linkage.threadBlock (h : Linkage s q) (stat : TaskStatus) (f : Bool → Resume) :
    Outcome (s.threadBlock stat f) (Dispatches q.ready) (fun _ => True) := by
  refine Outcome.bind (Outcome.assert (.inr trivial)) fun _ hstat => ?_
  have hnr : stat ≠ .running := by
    obtain h₁|h₁|h₁ := hstat <;> simp [h₁]
  let s₁ := (s.setIntr false).setStatus s.runningThread stat
  have hself : (s₁.task s₁.runningThread).status ≠ .running := by
    change (s₁.task s.runningThread).status ≠ .running
    simpa [s₁,setStatus] using hnr
  have heq : s₁.schedule (f s.intr) = s₁.scheduleNext s₁.runningThread (f s.intr) := by
    rw [OsKernel.Sched.schedule,assert_of (show s₁.intr = false from rfl),bind_of_ok rfl]
    simp only [hself,if_false]
    rfl
  change Outcome (s₁.schedule (f s.intr)) _ _
  rw [heq]
  exact (h.of_eq rfl rfl : Linkage s₁ q).scheduleNext _

theorem Inv.semaDownLoop_ready (h : Inv s q) (psema : SemaphoreId) (o : Bool) :
    Outcome (s.semaDownLoop psema o) (fun s' => Dispatches q.ready s' ∨
      s' = { s with intr := o, value := Function.update s.value psema (s.value psema-1) })
      (fun _ => True) := by
  have hoff := h.off_running
  have hfind := h.elemFind_eq "sema_down" (.waiters psema) (.generalTag s.runningThread)
  simp only [Queues.lists,List.mem_map,Node.generalTag.injEq,exists_eq_right,hoff.2 psema,
    decide_false] at hfind
  by_cases hv : s.value psema = 0
  · have hlink := h.listAppend_waiters hoff h.running_mem psema
    have heq : s.semaDownLoop psema o = (s.listAppend (.waiters psema)
        (.generalTag s.runningThread)).threadBlock .blocked fun _ => .semaDown psema o := by
      simp only [OsKernel.Sched.semaDownLoop,hv,if_true,hfind,bind_of_ok rfl]
      rfl
    rw [heq]
    exact (hlink.threadBlock _ _).mono (fun _ ha => Or.inl ha) fun _ he => he
  · simp only [OsKernel.Sched.semaDownLoop,hv,if_false]
    exact Outcome.bind (Outcome.assert (.inr trivial)) fun _ _ => .inr rfl

/-- The waiter that sema_up takes off its list comes before all ready tasks. -/
theorem Inv.wakeWaiter_ready (h : Inv s q) (psema : SemaphoreId) :
    Outcome (s.wakeWaiter psema) (fun s' =>
      if s.listEmpty (.waiters psema) then ReadyList s' q.ready
      else ∃ u, ReadyList s' (u :: q.ready)) (fun _ => True) := by
  unfold OsKernel.Sched.wakeWaiter
  rw [h.listEmpty_eq]
  cases hl : q.waiters psema with
  | nil =>
    simp only [Queues.lists,hl,List.map_nil,decide_true]
    exact h.readyList
  | cons t l =>
    obtain ⟨links,hpop,hlink⟩ := h.listPop_waiters hl
    have ht := (h.waiters_iff t psema).mp (by simp [hl])
    have hready : t ∉ q.ready := by
      intro hm
      have hs := ((h.ready_iff t).mp hm).2
      rw [ht.2.1] at hs
      contradiction
    have hoff : ∀ p, t ∉ (q.setWaiters psema l).waiters p := by
      intro p
      by_cases hp : p = psema
      · subst hp
        have hnd := h.nodup_waiters p
        rw [hl,List.nodup_cons] at hnd
        simpa [Queues.setWaiters] using hnd.1
      · simp only [Queues.setWaiters,Function.update_of_ne hp]
        intro hm
        obtain ⟨-,-,o,ho⟩ := ht
        obtain ⟨-,-,o',ho'⟩ := (h.waiters_iff t p).mp hm
        rw [ho] at ho'
        exact hp (Resume.semaDown.inj ho').1.symm
    simp only [Queues.lists,hl,List.map_cons,reduceCtorEq,decide_false,if_true,hpop]
    refine (hlink.threadUnblock (fun _ => ⟨hready,hoff⟩) ht.1).mono ?_ fun _ _ => trivial
    rintro s' ⟨links',-,-,-,hlink'⟩
    exact ⟨t,_,hlink',rfl⟩

theorem Inv.semaUp_ready (h : Inv s q) (psema : SemaphoreId) :
    Outcome (s.semaUp psema) (fun s' =>
      if s.listEmpty (.waiters psema) then ReadyList s' q.ready
      else ∃ u, ReadyList s' (u :: q.ready)) (fun _ => True) := by
  have h₀ : Inv (s.setIntr false) q := h.of_eq rfl rfl rfl rfl rfl fun _ => rfl
  refine Outcome.bind (Outcome.assert (.inr trivial)) fun _ _ => ?_
  refine Outcome.bind (h₀.wakeWaiter_ready psema) fun s₁ h₁ => ?_
  refine Outcome.bind (Outcome.assert (.inr trivial)) fun _ _ => ?_
  have hkeep {l : List TaskId} {s' : Sched} (hl : ReadyList s₁ l) (hlinks : s'.links = s₁.links)
      (hcreated : s'.created = s₁.created) : ReadyList s' l := by
    obtain ⟨q₁,hq₁,rfl⟩ := hl
    exact ⟨q₁,hq₁.of_eq hlinks hcreated,rfl⟩
  change if s.listEmpty (.waiters psema) then _ else _ at h₁
  change if s.listEmpty (.waiters psema) then _ else _
  split
  · rw [if_pos ‹_›] at h₁
    exact hkeep h₁ rfl rfl
  · rw [if_neg ‹_›] at h₁
    obtain ⟨u,hu⟩ := h₁
    exact ⟨u,hkeep hu rfl rfl⟩

/-- A new task comes behind all others. -/
theorem Inv.enqueue_ready (h : Inv s q) (ht : t ∉ s.created) (prio : ℕ) (func : String)
    (b : Bool) : Outcome (((s.create t prio).setIntr b).enqueue func t)
      (fun s' => ReadyList s' (q.ready ++ [t])) (fun _ => True) := by
  let s₀ := (s.create t prio).setIntr b
  have hoff : q.Off t := ⟨fun hm => ht (h.ready_sub hm),fun p hm => ht (h.waiters_sub p hm)⟩
  have hsub : ∀ u, u ∈ s.created → u ∈ s₀.created := fun u hu => List.mem_append_left _ hu
  have htc : t ∈ s₀.created := List.mem_append_right _ (List.mem_singleton.mpr rfl)
  have h₀ : Linkage s₀ q := ⟨h.represents,fun u hu => hsub u (h.ready_sub hu),
    fun u hu => hsub u (h.all_sub hu),fun p u hu => hsub u (h.waiters_sub p hu)⟩
  have h₁ := h₀.listAppend_ready hoff htc
  have hall : t ∉ (q.setReady (q.ready ++ [t])).all := fun hm => ht (h.all_sub hm)
  have h₂ := h₁.listAppend_all hall htc
  have hf₁ := h₀.elemFind_eq func .threadReadyList (.generalTag t)
  have hf₂ := h₁.elemFind_eq func .threadAllList (.allListTag t)
  simp only [Queues.lists,List.mem_map,Node.generalTag.injEq,exists_eq_right,hoff.1,
    decide_false] at hf₁
  simp only [Queues.lists,List.mem_map,Node.allListTag.injEq,exists_eq_right,hall,
    decide_false] at hf₂
  refine Outcome.of_eq ?_ (⟨_,h₂,rfl⟩ : ReadyList _ _)
  simp only [OsKernel.Sched.enqueue]
  rw [show ((s.create t prio).setIntr b) = s₀ from rfl,hf₁]
  simp only [bind_of_ok rfl,hf₂]
  rfl

end Lists

/-! The time slices. No operation changes the slice of a task other than the running one, and
only schedule renews it. -/

/-- The clock and the accounts of all tasks are the same, and only the running task may have got
a new slice. -/
structure SameTime (s s' : Sched) : Prop where
  ticks : s'.ticks = s.ticks
  elapsed : ∀ t, (s'.task t).elapsedTicks = (s.task t).elapsedTicks
  priority : ∀ t, (s'.task t).priority = (s.task t).priority
  slice : ∀ t, (s'.task t).ticks = (s.task t).ticks ∨
    t = s.runningThread ∧ (s'.task t).ticks = (s.task t).priority
  created : s'.created = s.created

section Time
variable {s s' s'' : Sched} {r : Resume} {t : TaskId}

@[simp] theorem goOn_ticks : (s.goOn r).ticks = s.ticks := by cases r <;> rfl

theorem SameTime.of_eq (hticks : s'.ticks = s.ticks) (htask : s'.task = s.task)
    (hcreated : s'.created = s.created) : SameTime s s' :=
  ⟨hticks,fun _ => by rw [htask],fun _ => by rw [htask],fun _ => .inl (by rw [htask]),hcreated⟩

theorem SameTime.trans (h : SameTime s s') (h' : SameTime s' s'')
    (hr : s'.runningThread = s.runningThread) : SameTime s s'' := by
  refine ⟨h'.ticks.trans h.ticks,fun t => (h'.elapsed t).trans (h.elapsed t),
    fun t => (h'.priority t).trans (h.priority t),fun t => ?_,h'.created.trans h.created⟩
  obtain hs|⟨ht,hs⟩ := h'.slice t
  · rw [hs]
    exact h.slice t
  · exact .inr ⟨ht.trans hr,hs.trans (h.priority t)⟩

theorem SameTime.setStatus (s : Sched) (t : TaskId) (stat : TaskStatus) :
    SameTime s (s.setStatus t stat) := by
  have hcase : ∀ u, (s.setStatus t stat).task u = s.task u ∨
      (s.setStatus t stat).task u = { s.task u with status := stat } := by
    intro u
    by_cases hu : u = t
    · subst hu
      exact .inr (setTask_task_self _ _ _)
    · exact .inl (setTask_task_of_ne _ _ _ hu)
  refine ⟨rfl,fun u => ?_,fun u => ?_,fun u => .inl ?_,rfl⟩ <;> obtain h|h := hcase u <;> rw [h]

theorem sameTime_scheduleNext (s : Sched) (cur : TaskId) :
    Outcome (s.scheduleNext cur r) (SameTime s) (fun _ => True) := by
  refine Outcome.bind (Outcome.assert (.inr trivial)) fun _ _ => ?_
  refine Outcome.bind (P := fun a => SameTime s a.2 ∧ a.2.runningThread = s.runningThread)
    (Outcome.bind (Outcome.assert (.inr trivial)) fun _ _ => ⟨.of_eq rfl rfl rfl,rfl⟩) ?_
  rintro ⟨tag,s₁⟩ ⟨h₁,hrun⟩
  refine Outcome.bind (P := fun _ => True) ?_ fun next _ => ?_
  · cases tag <;> trivial
  · refine h₁.trans ((SameTime.setStatus s₁ next .running).trans (.of_eq ?_ ?_ ?_) rfl) hrun
    · simp [switchTo]
    · simp [switchTo]
    · simp [switchTo]

/-- The running task joins the list and gets a new slice. -/
theorem sameTime_requeue (s : Sched) : SameTime s ((s.listAppend .threadReadyList
    (.generalTag s.runningThread)).setTask s.runningThread fun p =>
      { p with ticks := p.priority, status := .ready }) := by
  refine ⟨rfl,?_,?_,?_,rfl⟩
  all_goals
    intro t
    by_cases ht : t = s.runningThread
    · simp [listAppend,setTask,ht]
    · simp [listAppend,setTask,ht]

theorem sameTime_schedule (s : Sched) :
    Outcome (s.schedule r) (SameTime s) (fun _ => True) := by
  refine Outcome.bind (Outcome.assert (.inr trivial)) fun _ _ => ?_
  dsimp only
  split
  · refine Outcome.bind (Outcome.true _) fun _ _ => ?_
    refine Outcome.bind (Outcome.assert (.inr trivial)) fun _ _ => ?_
    exact (sameTime_scheduleNext _ _).mono
      (fun _ h => (sameTime_requeue s).trans h rfl) fun _ he => he
  · exact sameTime_scheduleNext s _

theorem sameTime_threadBlock (s : Sched) (stat : TaskStatus) (f : Bool → Resume) :
    Outcome (s.threadBlock stat f) (SameTime s) (fun _ => True) := by
  refine Outcome.bind (Outcome.assert (.inr trivial)) fun _ _ => ?_
  have h₁ := SameTime.setStatus (s.setIntr false) s.runningThread stat
  exact (sameTime_schedule _).mono
    (fun _ h₂ => (SameTime.of_eq rfl rfl rfl : SameTime s (s.setIntr false)).trans
      (h₁.trans h₂ rfl) rfl) fun _ he => he

theorem sameTime_semaDownLoop (s : Sched) (psema : SemaphoreId) (o : Bool) :
    Outcome (s.semaDownLoop psema o) (SameTime s) (fun _ => True) := by
  unfold OsKernel.Sched.semaDownLoop
  split
  · refine Outcome.bind (Outcome.true _) fun _ _ => ?_
    refine Outcome.bind (Outcome.assert (.inr trivial)) fun _ _ => ?_
    refine Outcome.bind (Outcome.true _) fun found _ => ?_
    split
    · trivial
    · have h₁ : SameTime s (s.listAppend (.waiters psema) (.generalTag s.runningThread)) :=
        .of_eq rfl rfl rfl
      exact (sameTime_threadBlock _ _ _).mono (fun _ h₂ => h₁.trans h₂ rfl) fun _ he => he
  · refine Outcome.bind (Outcome.assert (.inr trivial)) fun _ _ => ?_
    exact SameTime.of_eq rfl rfl rfl

/-- The running task goes on, and no slice changes. -/
structure Stays (s s' : Sched) : Prop extends SameTime s s' where
  runningThread : s'.runningThread = s.runningThread
  same : ∀ t, (s'.task t).ticks = (s.task t).ticks

theorem Stays.of_eq (hticks : s'.ticks = s.ticks) (htask : s'.task = s.task)
    (hcreated : s'.created = s.created) (hrun : s'.runningThread = s.runningThread) :
    Stays s s' :=
  ⟨.of_eq hticks htask hcreated,hrun,fun _ => by rw [htask]⟩

theorem Stays.trans (h : Stays s s') (h' : Stays s' s'') : Stays s s'' :=
  ⟨h.toSameTime.trans h'.toSameTime h.runningThread,h'.runningThread.trans h.runningThread,
    fun t => (h'.same t).trans (h.same t)⟩

theorem Stays.setStatus (s : Sched) (t : TaskId) (stat : TaskStatus) :
    Stays s (s.setStatus t stat) := by
  refine ⟨.setStatus s t stat,rfl,fun u => ?_⟩
  by_cases hu : u = t
  · subst hu
    simp [OsKernel.Sched.setStatus]
  · exact congrArg Task.ticks (setTask_task_of_ne _ _ _ hu)

theorem stays_threadUnblock (s : Sched) (t : TaskId) :
    Outcome (s.threadUnblock t) (Stays s) (fun _ => True) := by
  refine Outcome.bind (Outcome.assert (.inr trivial)) fun _ _ => ?_
  dsimp only
  split
  · refine Outcome.bind (Outcome.true _) fun _ _ => ?_
    refine Outcome.bind (Outcome.assert (.inr trivial)) fun _ _ => ?_
    refine Outcome.bind (Outcome.true _) fun found _ => ?_
    split
    · trivial
    · have h₁ : Stays s ((s.setIntr false).listPush .threadReadyList (.generalTag t)) :=
        .of_eq rfl rfl rfl rfl
      exact (h₁.trans (.setStatus _ t .ready)).trans (.of_eq rfl rfl rfl rfl)
  · exact Stays.of_eq rfl rfl rfl rfl

theorem stays_semaUp (s : Sched) (psema : SemaphoreId) :
    Outcome (s.semaUp psema) (Stays s) (fun _ => True) := by
  refine Outcome.bind (Outcome.assert (.inr trivial)) fun _ _ => ?_
  refine Outcome.bind (P := Stays s) ?_ fun s₁ h₁ => ?_
  · unfold OsKernel.Sched.wakeWaiter
    split
    · refine Outcome.bind (P := fun a => Stays s a.2)
        (Outcome.bind (Outcome.assert (.inr trivial)) fun _ _ => Stays.of_eq rfl rfl rfl rfl) ?_
      rintro ⟨tag,s₂⟩ h₂
      refine Outcome.bind (Outcome.true _) fun u _ => ?_
      exact (stays_threadUnblock s₂ u).mono (fun _ h₃ => h₂.trans h₃) fun _ he => he
    · exact Stays.of_eq rfl rfl rfl rfl
  · refine Outcome.bind (Outcome.assert (.inr trivial)) fun _ _ => ?_
    exact h₁.trans (.of_eq rfl rfl rfl rfl)

end Time
end OsKernel.Sched

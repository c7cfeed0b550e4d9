import OsKernel.Device.IoqThreads
import OsKernel.Thread.LockCalls

/-! What the steps of one thread leave unchanged for the others. -/
namespace OsKernel
open Sched (Inv Switched readyEmpty callerAsserts)

section Frame
variable {s s' : Sched} {q : Sched.Queues} {r : Resume} {t : TaskId}

/-- What another thread may do to t: a sleeper that waits for no semaphore sleeps on, and
nobody falls asleep without doing so itself. -/
structure Sched.Undisturbed (t : TaskId) (s s' : Sched) : Prop where
  created : t ∈ s.created → t ∈ s'.created
  resume : t ∈ s.created → s'.resume t = s.resume t
  asleep : t ∈ s.created → (s.task t).status = .blocked → (∀ p o, s.resume t ≠ .semaDown p o) →
    (s'.task t).status = .blocked
  awake : (s'.task t).status = .blocked → (s.task t).status = .blocked

theorem Sched.Undisturbed.of_eq (hc : s'.created = s.created) (hr : s'.resume = s.resume)
    (hs : (s'.task t).status = (s.task t).status) : Undisturbed t s s' :=
  ⟨fun h => hc ▸ h,fun _ => by rw [hr],fun _ h _ => hs.trans h,fun h => hs.symm.trans h⟩

theorem Sched.Undisturbed.trans {s'' : Sched} (h : Undisturbed t s s')
    (h' : Undisturbed t s' s'') : Undisturbed t s s'' := by
  refine ⟨fun hc => h'.created (h.created hc),fun hc => ?_,fun hc hb hr => ?_,
    fun hb => h.awake (h'.awake hb)⟩
  · rw [h'.resume (h.created hc),h.resume hc]
  · apply h'.asleep (h.created hc) (h.asleep hc hb hr)
    rw [h.resume hc]
    exact hr

theorem Sched.Switched.undisturbed (h : Switched s r s') (ht : t ≠ s.runningThread) :
    Undisturbed t s s' := by
  refine ⟨fun hc => h.created ▸ hc,fun _ => ?_,fun _ hb _ => ?_,fun hb => ?_⟩
  · rw [h.resume,Function.update_of_ne ht]
  · rw [h.asleep t (by simp [hb]) (by simp [hb]),hb]
  · obtain he | he := h.others t ht
    · rw [← he,hb]
    · rw [he] at hb
      contradiction

theorem Sched.undisturbed_create {u : TaskId} (hu : u ∉ s.created) (prio : ℕ) (b : Bool)
    (links : IntrusiveList.Links Node) :
    Undisturbed t s { (s.create u prio).setIntr b with links := links } := by
  by_cases h : t = u
  · subst h
    refine ⟨fun hc => absurd hc hu,fun hc => absurd hc hu,fun hc => absurd hc hu,fun hb => ?_⟩
    simp [create,setIntr,initThread] at hb
  · refine ⟨fun hc => ?_,fun _ => ?_,fun _ hb _ => ?_,fun hb => ?_⟩
    · exact List.mem_append_left _ hc
    · simp [create,setIntr,h]
    · simpa [create,setIntr,h] using hb
    · simpa [create,setIntr,h] using hb

/-- Only wakeup disturbs a sleeper that waits for no semaphore. -/
theorem Sched.Inv.exec_undisturbed (h : Inv s q) {op : Sched.Op} (hen : s.Enabled op)
    (ht : t ≠ s.runningThread) (hop : op ≠ .threadUnblock t) :
    Outcome (s.exec op) (Undisturbed t s) (fun _ => True) := by
  have hloop : ∀ (s₀ : Sched) (p : SemaphoreId) (o : Bool), Inv s₀ q → s₀.pending = none →
      t ≠ s₀.runningThread → Outcome (s₀.semaDownLoop p o) (Undisturbed t s₀) (fun _ => True) := by
    intro s₀ p o h₀ hpend hne
    refine (h₀.semaDownLoop hpend p o).mono ?_ fun _ _ => trivial
    rintro s' ⟨-,⟨-,hs,-⟩ | ⟨-,rfl⟩⟩
    · exact hs.undisturbed hne
    · exact .of_eq rfl rfl rfl
  cases op with
  | retest =>
    cases hpo : s.pending with
    | none => exact absurd hpo hen
    | some po =>
      obtain ⟨p,o⟩ := po
      have h' : Inv { s with pending := none } q :=
        h.of_eq rfl rfl rfl rfl rfl fun hn => absurd rfl hn
      have hk : Undisturbed t s { s with pending := none } := .of_eq rfl rfl rfl
      simp only [Sched.exec,hpo]
      exact (hloop _ p o h' rfl ht).mono (fun s' hs => hk.trans hs) fun _ _ => trivial
  | tick =>
    refine (h.intrTimerHandler hen.1).mono ?_ fun _ _ => trivial
    rintro s' ⟨-,hs | ⟨-,hr,hc,-,-,hstat⟩⟩
    · exact hs.undisturbed ht
    · exact .of_eq hc hr (hstat t)
  | intrSetStatus status => exact Undisturbed.of_eq rfl rfl rfl
  | schedule =>
    by_cases hi : s.intr = false
    · refine (h.schedule hi hen).mono (fun s' hs => ?_) fun _ _ => trivial
      exact hs.2.undisturbed ht
    · simp [Sched.exec,Sched.schedule,OsKernel.assert,hi,bind,Except.bind]
  | threadBlock stat =>
    refine (h.toCore.threadBlock hen h.running stat .threadBlock (fun t p _ => h.waiters_iff t p)
      fun p => ?_).mono (fun s' hs => hs.2.1.undisturbed ht) fun _ _ => trivial
    simp [h.off_running.2 p]
  | threadUnblock u =>
    refine (h.threadUnblock hen.2.1 hen.2.2).mono ?_ fun _ _ => trivial
    rintro s' ⟨links,rfl,-⟩
    have hu : t ≠ u := fun e => hop (e ▸ rfl)
    exact .of_eq rfl rfl (by simp [setStatus,setTask,hu])
  | semaDown p =>
    have h' : Inv (s.setIntr false) q := h.of_eq rfl rfl rfl rfl rfl fun _ => rfl
    have hk : Undisturbed t s (s.setIntr false) := .of_eq rfl rfl rfl
    exact (hloop _ p s.intr h' hen ht).mono (fun s' hs => hk.trans hs) fun _ _ => trivial
  | semaUp p =>
    refine (h.semaUp p).mono ?_ fun _ _ => trivial
    rintro s' ⟨-,hu⟩
    refine ⟨fun hc => hu.created ▸ hc,fun _ => by rw [hu.resume],fun _ hb hr => ?_,fun hb => ?_⟩
    · rw [hu.task t fun hw => hr p hw.2.2.choose hw.2.2.choose_spec,hb]
    · by_cases hw : s.WaitsFor t p
      · exact hw.2.1
      · rw [← hu.task t hw,hb]
  | threadStart u prio =>
    refine (h.enqueue hen.1 hen.2 prio "thread_start" s.intr).mono ?_ fun _ _ => trivial
    rintro s' ⟨-,links,rfl⟩
    exact undisturbed_create hen.2 prio s.intr links
  | processExecute u =>
    refine Outcome.bind ((h.enqueue hen.1 hen.2 defaultPrio "process_execute" false).mono
      (fun _ ha => ha.2) fun _ _ => trivial) ?_
    rintro s' ⟨links,rfl⟩
    exact undisturbed_create hen.2 defaultPrio s.intr links

end Frame

end OsKernel

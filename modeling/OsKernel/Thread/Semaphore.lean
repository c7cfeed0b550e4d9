import OsKernel.Thread.LockInvariant

/-! Semaphores lose no wake-up. Runs of the kernel are recorded with the calls that have been
completed on every semaphore, and with the threads that sema_up has taken from the waiters
list and that have not tested the value since. -/
namespace OsKernel
open IntrusiveList
open Sched (Inv Switched Queues)

/-- The kernel with its history. The code does not read the history. -/
structure SemaSys where
  sched : Sched
  /-- The completed calls of sema_up and of sema_down. -/
  ups : SemaphoreId → ℕ
  downs : SemaphoreId → ℕ
  /-- Taken from the waiters list by a sema_up, and still on the way to the test. -/
  woken : SemaphoreId → Set TaskId

/-- The thread that list_pop takes from the waiters list. -/
def Sched.firstWaiter (s : Sched) (psema : SemaphoreId) : Set TaskId :=
  { t | s.links.next (.head (.waiters psema)) = .generalTag t }

namespace SemaSys

def countDown (s : SemaSys) (psema : SemaphoreId) : SemaSys :=
  { s with downs := Function.update s.downs psema (s.downs psema+1) }

/-- The history after an operation that leads to the state sched. A call of sema_down is
complete when it finds a value other than 0. -/
def after (s : SemaSys) (op : Sched.Op) (sched : Sched) : SemaSys :=
  match op with
  | .semaDown psema =>
    if s.sched.value psema = 0 then { s with sched := sched }
    else { s.countDown psema with sched := sched }
  | .retest =>
    match s.sched.pending with
    | none => { s with sched := sched }
    | some (psema,_) =>
      let woken := Function.update s.woken psema (s.woken psema \ {s.sched.runningThread})
      if s.sched.value psema = 0 then { s with sched := sched, woken := woken }
      else { s.countDown psema with sched := sched, woken := woken }
  | .semaUp psema =>
    { s with
      sched := sched
      ups := Function.update s.ups psema (s.ups psema+1)
      woken := Function.update s.woken psema (s.woken psema ∪ s.sched.firstWaiter psema) }
  | _ => { s with sched := sched }

inductive Step (s : SemaSys) : SemaSys → Prop
  | exec {sched} (op : Sched.Op) (hen : s.sched.Enabled op) (h : s.sched.exec op = .ok sched) :
    Step s (s.after op sched)

/-- The state after thread_init, and after a sema_init of every semaphore. -/
def init (mainThread : TaskId) (value : SemaphoreId → ℕ) : SemaSys where
  sched := Sched.threadInit mainThread value
  ups := fun _ => 0
  downs := fun _ => 0
  woken := fun _ => ∅

/-- The states that some run reaches from the given initial values. -/
def Reachable (value : SemaphoreId → ℕ) (s : SemaSys) : Prop :=
  ∃ mainThread, Relation.ReflTransGen Step (init mainThread value) s

end SemaSys

/-- The thread can run, or is running. -/
def Sched.Awake (s : Sched) (t : TaskId) : Prop :=
  (s.task t).status = .ready ∨ t = s.runningThread

section Others
variable {s s' : Sched} {q : Queues} {psema : SemaphoreId} {r : Resume} {t : TaskId}

/-- A thread in the loop of sema_down does not fall asleep there when another thread acts, and
stays awake. -/
def Sched.StaysAwake (psema : SemaphoreId) (s s' : Sched) : Prop :=
  ∀ t, s.InSema psema t →
    ((s'.task t).status = .blocked → (s.task t).status = .blocked) ∧ (s.Awake t → s'.Awake t)

theorem Sched.StaysAwake.of_eq (ht : ∀ t, (s'.task t).status = (s.task t).status)
    (hcur : s'.runningThread = s.runningThread) : StaysAwake psema s s' := by
  intro t _
  simp only [Awake,ht,hcur,imp_self,and_self]

theorem Sched.Switched.awake (hs : Switched s r s') (h' : Inv s' q) (hc : t ∈ s.created)
    (hne : t ≠ s.runningThread) :
    ((s'.task t).status = .blocked → (s.task t).status = .blocked) ∧
      (s.Awake t → s'.Awake t) := by
  obtain ho | ho := hs.others t hne
  · rw [ho]
    exact ⟨id,fun ha => .inl (ho.trans (ha.resolve_right hne))⟩
  · rw [ho]
    exact ⟨fun e => by contradiction,
      fun _ => .inr (h'.running_only t (hs.created ▸ hc) ho)⟩

/-- The running thread is not in the loop unless it is about to test the value. -/
theorem Sched.InSema.ne_running (ht : s.InSema psema t) (hp : ∀ o, s.pending ≠ some (psema,o)) :
    t ≠ s.runningThread := by
  intro e
  obtain ⟨-,hin⟩ := ht
  rw [if_pos e] at hin
  exact hin.elim hp

theorem Sched.Switched.staysAwake (hs : Switched s r s') (h' : Inv s' q)
    (hp : ∀ o, s.pending ≠ some (psema,o)) : StaysAwake psema s s' :=
  fun _ ht => hs.awake h' ht.1 (ht.ne_running hp)

theorem Sched.staysAwake_create {u : TaskId} (hu : u ∉ s.created) (prio : ℕ)
    (b : Bool) (links : Links Node) :
    StaysAwake psema s { (s.create u prio).setIntr b with links := links } := by
  intro t ht
  have hne : t ≠ u := fun e => hu (e ▸ ht.1)
  simp [Awake,create,setIntr,hne]

/-- A task that becomes ready was not awake, and is in no loop when it sleeps elsewhere. -/
theorem Sched.staysAwake_wake {u : TaskId} {links : Links Node} :
    StaysAwake psema s (({ s with links := links } : Sched).setStatus u .ready) := by
  intro t ht
  by_cases hu : t = u
  · subst hu
    simp [Awake,setStatus]
  · simp [Awake,setStatus,setTask,hu]

/-- An operation on other semaphores. -/
theorem Sched.Inv.exec_staysAwake (h : Inv s q) {op : Sched.Op} (hen : s.Enabled op)
    (hop : LockSys.Avoids psema op) (hp : ∀ o, s.pending ≠ some (psema,o)) :
    Outcome (s.exec op) (StaysAwake psema s) (fun _ => True) := by
  have hloop : ∀ (s₀ : Sched) (p : SemaphoreId) (o : Bool), Inv s₀ q → s₀.pending = none →
      Outcome (s₀.semaDownLoop p o) (StaysAwake psema s₀) (fun _ => True) := by
    intro s₀ p o h₀ hpend
    refine (h₀.semaDownLoop hpend p o).mono ?_ fun _ _ => trivial
    rintro s' ⟨⟨q',hq'⟩,⟨-,hs,-⟩ | ⟨-,rfl⟩⟩
    · exact hs.staysAwake hq' (by simp [hpend])
    · exact .of_eq (fun _ => rfl) rfl
  cases op with
  | retest =>
    cases hpo : s.pending with
    | none => exact absurd hpo hen
    | some po =>
      obtain ⟨p,o⟩ := po
      have hne : p ≠ psema := fun e => hp o (e ▸ hpo)
      have h' : Inv { s with pending := none } q :=
        h.of_eq rfl rfl rfl rfl rfl fun hn => absurd rfl hn
      simp only [Sched.exec,hpo]
      refine (hloop _ p o h' rfl).mono (fun s' hu t ht => hu t ⟨ht.1,?_⟩) fun _ _ => trivial
      rw [if_neg (ht.ne_running hp)]
      have hin := ht.2
      rwa [if_neg (ht.ne_running hp)] at hin
  | tick =>
    refine (h.intrTimerHandler hen.1).mono ?_ fun _ _ => trivial
    rintro s' ⟨⟨q',hq'⟩,hs | ⟨-,-,-,hcur,-,ht⟩⟩
    · exact hs.staysAwake hq' hp
    · exact .of_eq ht hcur
  | intrSetStatus status => exact StaysAwake.of_eq (fun _ => rfl) rfl
  | schedule =>
    by_cases hi : s.intr = false
    · refine (h.schedule hi hen).mono ?_ fun _ _ => trivial
      rintro s' ⟨⟨l,hl⟩,hs⟩
      exact hs.staysAwake hl hp
    · simp [Sched.exec,Sched.schedule,OsKernel.assert,hi,bind,Except.bind]
  | threadBlock stat =>
    refine (h.toCore.threadBlock hen h.running stat .threadBlock (fun t p _ => h.waiters_iff t p)
      fun p => ?_).mono ?_ fun _ _ => trivial
    · simp [h.off_running.2 p]
    · rintro s' ⟨⟨l,hl⟩,hs,-⟩
      exact hs.staysAwake hl hp
  | threadUnblock t =>
    refine (h.threadUnblock hen.2.1 hen.2.2).mono ?_ fun _ _ => trivial
    rintro s' ⟨links,rfl,-⟩
    exact staysAwake_wake
  | semaDown p =>
    have h' : Inv (s.setIntr false) q := h.of_eq rfl rfl rfl rfl rfl fun _ => rfl
    exact hloop _ p s.intr h' hen
  | semaUp p =>
    refine ((h.semaUp p).conj (h.semaUp_task p)).mono ?_ fun _ _ => trivial
    rintro s' ⟨⟨-,hu⟩,⟨-,ht⟩ | ⟨u,l,-,ht⟩⟩
    · exact .of_eq (fun t => by rw [ht]) hu.runningThread
    · intro t _
      by_cases htu : t = u
      · subst htu
        simp [Awake,ht]
      · simp [Awake,ht,htu,hu.runningThread]
  | threadStart t prio =>
    refine (h.enqueue hen.1 hen.2 prio "thread_start" s.intr).mono ?_ fun _ _ => trivial
    rintro s' ⟨-,links,rfl⟩
    exact Sched.staysAwake_create hen.2 prio s.intr links
  | processExecute t =>
    refine Outcome.bind ((h.enqueue hen.1 hen.2 defaultPrio "process_execute" false).mono
      (fun _ ha => ha.2) fun _ _ => trivial) ?_
    rintro s' ⟨links,rfl⟩
    exact Sched.staysAwake_create hen.2 defaultPrio s.intr links

end Others

/-- The invariant of one semaphore, from its initial value, the completed calls, and the set W
of woken threads. A thread that sleeps beside a free semaphore is not lost, because the
thread that was woken for it has yet to test the value. -/
structure SemaOk (value : ℕ) (s : Sched) (p : SemaphoreId) (ups downs : ℕ) (W : Set TaskId) :
    Prop where
  count : downs+s.value p = value+ups
  awake : ∀ t, t ∈ W → s.InSema p t ∧ s.Awake t
  wake : s.value p = 1 → (∃ u, s.WaitsFor u p) → ∃ t, t ∈ W

structure SemaInv (value : SemaphoreId → ℕ) (s : SemaSys) : Prop where
  sched : ∃ q, Inv s.sched q
  ok : ∀ p, SemaOk (value p) s.sched p (s.ups p) (s.downs p) (s.woken p)

section Invariant
variable {value : SemaphoreId → ℕ} {s : SemaSys} {sched : Sched} {q : Queues} {p : SemaphoreId}

theorem Sched.WaitsFor.inSema {s : Sched} (h : Inv s q) {u : TaskId} (hu : s.WaitsFor u p) :
    s.InSema p u := by
  have hne : u ≠ s.runningThread := by
    rintro rfl
    have hb := hu.2.1
    rw [h.running] at hb
    contradiction
  exact ⟨hu.1,by rw [if_neg hne]; exact hu.2.2⟩

theorem Sched.InSema.waitsFor {s : Sched} (h : Inv s q) {u : TaskId} (hu : s.InSema p u)
    (hb : (s.task u).status = .blocked) : s.WaitsFor u p := by
  have hne : u ≠ s.runningThread := by
    rintro rfl
    rw [h.running] at hb
    contradiction
  obtain ⟨hc,hin⟩ := hu
  rw [if_neg hne] at hin
  exact ⟨hc,hb,hin⟩

/-- Activity elsewhere keeps the part of one semaphore. -/
theorem SemaOk.keeps {v ups downs : ℕ} {W : Set TaskId} {s : Sched} {q' : Queues}
    (h : SemaOk v s p ups downs W) (hq : Inv s q) (hq' : Inv sched q')
    (hk : Sched.Keeps p s sched) (hu : Sched.StaysAwake p s sched) :
    SemaOk v sched p ups downs W := by
  refine ⟨by rw [hk.value]; exact h.count,fun t ht => ?_,fun hv hw => ?_⟩
  · obtain ⟨hin,ha⟩ := h.awake t ht
    exact ⟨(hk.inSema t).mpr hin,(hu t hin).2 ha⟩
  · obtain ⟨u,hw⟩ := hw
    have hin := (hk.inSema u).mp (hw.inSema hq')
    exact h.wake (hk.value ▸ hv) ⟨u,hin.waitsFor hq ((hu u hin).1 hw.2.1)⟩

/-- A test of the value: the running thread goes to sleep, or takes the semaphore. Either way
the value is 0 afterwards, so that no sleeper is passed over. -/
theorem SemaOk.test {v ups downs : ℕ} {W : Set TaskId} {s : Sched}
    (hcount : downs+s.value p = v+ups) (hawake : ∀ t, t ∈ W → s.InSema p t ∧ s.Awake t)
    (hq : Inv s q) (hp : s.pending = none) (o : Bool) (hne : s.runningThread ∉ W) :
    Outcome (s.semaDownLoop p o)
      (fun sched => SemaOk v sched p ups (if s.value p = 0 then downs else downs+1) W)
      (fun _ => True) := by
  have hpend : ∀ o, s.pending ≠ some (p,o) := by simp [hp]
  refine (hq.semaDownLoop hp p o).mono ?_ fun _ _ => trivial
  rintro sched ⟨⟨q',hq'⟩,⟨hv,hs,-⟩ | ⟨hv,rfl⟩⟩
  · rw [if_pos hv]
    refine ⟨by rw [hs.value]; exact hcount,fun t ht => ?_,fun h₁ => ?_⟩
    · obtain ⟨hin,ha⟩ := hawake t ht
      have hcur : t ≠ s.runningThread := fun e => hne (e ▸ ht)
      refine ⟨(hs.inSema t).mpr ⟨hin.1,?_⟩,(hs.awake hq' hin.1 hcur).2 ha⟩
      have hr := hin.2
      rw [if_neg hcur] at hr ⊢
      exact hr
    · rw [hs.value,hv] at h₁
      contradiction
  · rw [if_neg (by omega)]
    refine ⟨?_,fun t ht => hawake t ht,fun h₁ => ?_⟩
    · simp only [Function.update_self]
      omega
    · simp only [Function.update_self] at h₁
      contradiction

/-- sema_up takes the first waiter off the list before it sets the value. -/
theorem SemaOk.up {v ups downs : ℕ} {W : Set TaskId} {s : Sched}
    (h : SemaOk v s p ups downs W) (hq : Inv s q) : Outcome (s.semaUp p)
      (fun sched => SemaOk v sched p (ups+1) downs (W ∪ s.firstWaiter p))
      (fun _ => True) := by
  have hhead := hq.represents.next_head (.waiters p)
  have hfirst : ∀ t l, q.waiters p = t :: l → s.firstWaiter p = {t} := by
    intro t l hl
    simp only [Queues.lists,hl,List.map_cons,List.cons_append,List.head_cons] at hhead
    simp [Sched.firstWaiter,hhead]
  have hnone : q.waiters p = [] → s.firstWaiter p = ∅ := by
    intro hl
    simp only [Queues.lists,hl,List.map_nil,List.nil_append,List.head_cons] at hhead
    simp [Sched.firstWaiter,hhead]
  refine ((hq.semaUp p).conj (hq.semaUp_task p)).mono ?_ fun _ _ => trivial
  rintro sched ⟨⟨⟨q',hq'⟩,hu⟩,htask⟩
  have hcount := h.count
  have hval : sched.value p = 1 := by rw [hu.value,Function.update_self]
  have hin : ∀ t, sched.InSema p t ↔ s.InSema p t := by
    intro t
    simp only [Sched.InSema,hu.created,hu.runningThread,hu.pending,hu.resume]
  rw [hu.zero] at hcount
  have hawake : ∀ t, s.Awake t → sched.Awake t := by
    rintro t (ht | ht)
    · left
      obtain ⟨-,he⟩ | ⟨u,l,-,he⟩ := htask
      · rw [he]
        exact ht
      · by_cases htu : t = u
        · subst htu
          rw [he,Function.update_self]
        · rw [he,Function.update_of_ne htu]
          exact ht
    · exact .inr (hu.runningThread.symm ▸ ht)
  have hold : ∀ t, t ∈ W → sched.InSema p t ∧ sched.Awake t := by
    intro t ht
    exact ⟨(hin t).mpr (h.awake t ht).1,hawake t (h.awake t ht).2⟩
  obtain ⟨hl,he⟩ | ⟨u,l,hl,he⟩ := htask
  · rw [hnone hl,Set.union_empty]
    refine ⟨by omega,hold,fun _ hsome => ?_⟩
    obtain ⟨w,hw⟩ := hsome
    have hwait : s.WaitsFor w p := by
      simpa only [Sched.WaitsFor,hu.created,he,hu.resume] using hw
    have hm := (hq.waiters_iff w p).mpr hwait
    simp [hl] at hm
  · rw [hfirst u l hl]
    have hwait := (hq.waiters_iff u p).mp (by simp [hl])
    refine ⟨by omega,?_,fun _ _ => ⟨u,.inr rfl⟩⟩
    rintro t (ht | rfl)
    · exact hold t ht
    · refine ⟨(hin t).mpr (hwait.inSema hq),.inl ?_⟩
      rw [he,Function.update_self]

/-- An operation that leaves the semaphore p to the others. -/
theorem SemaInv.others (h : SemaInv value s) {op : Sched.Op} (hen : s.sched.Enabled op)
    (hop : LockSys.Avoids p op) (hp : ∀ o, s.sched.pending ≠ some (p,o))
    (he : s.sched.exec op = .ok sched) :
    SemaOk (value p) sched p (s.ups p) (s.downs p) (s.woken p) := by
  obtain ⟨q,hq⟩ := h.sched
  obtain ⟨q',hq'⟩ := (hq.exec hen).of_ok he
  exact (h.ok p).keeps hq hq' ((hq.exec_keeps hen hop hp).of_ok he)
    ((hq.exec_staysAwake hen hop hp).of_ok he)

theorem SemaInv.down (h : SemaInv value s) (hen : s.sched.pending = none)
    (he : s.sched.semaDown p = .ok sched) :
    SemaOk (value p) sched p (s.ups p)
      (if s.sched.value p = 0 then s.downs p else s.downs p+1) (s.woken p) := by
  obtain ⟨q,hq⟩ := h.sched
  have hq₀ : Inv (s.sched.setIntr false) q := hq.of_eq rfl rfl rfl rfl rfl fun _ => rfl
  have hok := (h.ok p).keeps hq hq₀ (.of_eq rfl rfl rfl rfl rfl) (.of_eq (fun _ => rfl) rfl)
  refine (SemaOk.test hok.count hok.awake hq₀ hen s.sched.intr fun hm => ?_).of_ok he
  exact ((h.ok p).awake _ hm).1.ne_running (by simp [hen]) rfl

theorem SemaInv.retest (h : SemaInv value s) {o : Bool} (hp : s.sched.pending = some (p,o))
    (he : s.sched.exec .retest = .ok sched) :
    SemaOk (value p) sched p (s.ups p)
      (if s.sched.value p = 0 then s.downs p else s.downs p+1)
      (s.woken p \ {s.sched.runningThread}) := by
  obtain ⟨q,hq⟩ := h.sched
  have hq₀ : Inv { s.sched with pending := none } q :=
    hq.of_eq rfl rfl rfl rfl rfl fun hn => absurd rfl hn
  have hok := h.ok p
  simp only [Sched.exec,hp] at he
  refine (SemaOk.test (s := { s.sched with pending := none }) hok.count (fun t ht => ?_) hq₀ rfl o fun hm => hm.2 rfl).of_ok he
  obtain ⟨⟨hc,hin⟩,ha⟩ := hok.awake t ht.1
  have hne : t ≠ s.sched.runningThread := ht.2
  rw [if_neg hne] at hin
  exact ⟨⟨hc,by rw [if_neg hne]; exact hin⟩,ha⟩

/-- Every operation preserves the invariant. -/
theorem SemaInv.step (h : SemaInv value s) {s' : SemaSys} (hs : s.Step s') : SemaInv value s' := by
  obtain @⟨sched,op,hen,he⟩ := hs
  obtain ⟨q,hq⟩ := h.sched
  have hinv := (hq.exec hen).of_ok he
  cases op with
  | semaDown psema =>
    have hpend : s.sched.pending = none := hen
    have hothers : ∀ p, p ≠ psema →
        SemaOk (value p) sched p (s.ups p) (s.downs p) (s.woken p) :=
      fun p hp => h.others hen (Ne.symm hp) (by simp [hpend]) he
    have hself := h.down hpend he
    by_cases hv : s.sched.value psema = 0
    · simp only [SemaSys.after,if_pos hv]
      rw [if_pos hv] at hself
      refine ⟨hinv,fun p => ?_⟩
      by_cases hp : p = psema
      · exact hp ▸ hself
      · exact hothers p hp
    · simp only [SemaSys.after,if_neg hv]
      rw [if_neg hv] at hself
      refine ⟨hinv,fun p => ?_⟩
      by_cases hp : p = psema
      · subst hp
        simpa [SemaSys.countDown] using hself
      · simpa [SemaSys.countDown,hp] using hothers p hp
  | retest =>
    cases hpo : s.sched.pending with
    | none => exact absurd hpo hen
    | some po =>
      obtain ⟨psema,o⟩ := po
      have hothers : ∀ p, p ≠ psema →
          SemaOk (value p) sched p (s.ups p) (s.downs p) (s.woken p) :=
        fun p hp => h.others hen trivial (by simp [hpo,Ne.symm hp]) he
      have hself := h.retest hpo he
      by_cases hv : s.sched.value psema = 0
      · simp only [SemaSys.after,hpo,if_pos hv]
        rw [if_pos hv] at hself
        refine ⟨hinv,fun p => ?_⟩
        by_cases hp : p = psema
        · subst hp
          simpa using hself
        · simpa [hp] using hothers p hp
      · simp only [SemaSys.after,hpo,if_neg hv]
        rw [if_neg hv] at hself
        refine ⟨hinv,fun p => ?_⟩
        by_cases hp : p = psema
        · subst hp
          simpa [SemaSys.countDown] using hself
        · simpa [SemaSys.countDown,hp] using hothers p hp
  | semaUp psema =>
    have hpend : s.sched.pending = none := hen
    refine ⟨hinv,fun p => ?_⟩
    by_cases hp : p = psema
    · subst hp
      simpa [SemaSys.after] using ((h.ok p).up hq).of_ok he
    · simpa [SemaSys.after,hp] using h.others hen (Ne.symm hp) (by simp [hpend]) he
  | tick => exact ⟨hinv,fun p => h.others hen trivial (by simp [hen.1]) he⟩
  | threadUnblock t => exact ⟨hinv,fun p => h.others hen trivial (by simp [hen.1]) he⟩
  | threadStart t prio => exact ⟨hinv,fun p => h.others hen trivial (by simp [hen.1]) he⟩
  | processExecute t => exact ⟨hinv,fun p => h.others hen trivial (by simp [hen.1]) he⟩
  | intrSetStatus b =>
    have hpend : s.sched.pending = none := hen
    exact ⟨hinv,fun p => h.others hen trivial (by simp [hpend]) he⟩
  | schedule =>
    have hpend : s.sched.pending = none := hen
    exact ⟨hinv,fun p => h.others hen trivial (by simp [hpend]) he⟩
  | threadBlock stat =>
    have hpend : s.sched.pending = none := hen
    exact ⟨hinv,fun p => h.others hen trivial (by simp [hpend]) he⟩

theorem SemaSys.Reachable.inv (h : s.Reachable value) : SemaInv value s := by
  obtain ⟨mainThread,hrun⟩ := h
  induction hrun with
  | refl =>
    refine ⟨⟨_,Sched.threadInit_inv mainThread value⟩,fun p => ⟨?_,?_,?_⟩⟩
    · exact Nat.add_comm 0 _
    · intro t ht
      exact absurd ht (Set.notMem_empty t)
    · rintro - ⟨u,-,hb,-⟩
      simp [init,Sched.threadInit,Sched.initThread] at hb
  | tail _ hstep ih => exact ih.step hstep

/-- No wake-up is lost, in every reachable state and for any number of threads. If the value
is 1 while threads wait, then a thread that sema_up took from the list is ready, or has just
been given the processor, and has yet to test the value. The completed calls account for the
value, and whoever is on the list sleeps in the loop of sema_down. -/
theorem SemaSys.reachable_noLostWakeUp (h : s.Reachable value) (psema : SemaphoreId) :
    (∃ ls, Represents s.sched.links Node.head Node.tail ls ∧
      (ls (.waiters psema) ≠ [] → s.sched.value psema = 1 → ∃ t ∈ s.woken psema,
        ((s.sched.task t).status = .ready ∧ ∃ o, s.sched.resume t = .semaDown psema o) ∨
        (t = s.sched.runningThread ∧ ∃ o, s.sched.pending = some (psema,o))) ∧
      ∀ x ∈ ls (.waiters psema), ∃ t, x = .generalTag t ∧
        (s.sched.task t).status = .blocked ∧ ∃ o, s.sched.resume t = .semaDown psema o) ∧
    s.downs psema+s.sched.value psema = value psema+s.ups psema := by
  have hinv := h.inv
  have hok := hinv.ok psema
  obtain ⟨q,hq⟩ := hinv.sched
  refine ⟨⟨q.lists,hq.represents,fun hne hv => ?_,fun x hx => ?_⟩,hok.count⟩
  · obtain ⟨u,hu⟩ := List.exists_mem_of_ne_nil _ hne
    obtain ⟨u,hu,-⟩ := List.mem_map.mp hu
    obtain ⟨t,ht⟩ := hok.wake hv ⟨u,(hq.waiters_iff u psema).mp hu⟩
    obtain ⟨⟨hc,hin⟩,ha⟩ := hok.awake t ht
    refine ⟨t,ht,?_⟩
    by_cases hcur : t = s.sched.runningThread
    · rw [if_pos hcur] at hin
      exact .inr ⟨hcur,hin⟩
    · rw [if_neg hcur] at hin
      exact .inl ⟨ha.resolve_right hcur,hin⟩
  · obtain ⟨t,ht,rfl⟩ := List.mem_map.mp hx
    exact ⟨t,rfl,((hq.waiters_iff t psema).mp ht).2⟩

/-- The state after an operation, with its history, if the operation is possible and returns. -/
def SemaSys.perform (s : SemaSys) (op : Sched.Op) : Option SemaSys :=
  (s.sched.perform op).map (s.after op)

theorem SemaSys.perform_step {s s' : SemaSys} {op : Sched.Op} (h : s.perform op = some s') :
    s.Step s' := by
  obtain ⟨sched,hs,rfl⟩ := Option.map_eq_some_iff.mp h
  exact .exec op (Sched.perform_eq_some hs).1.enabled (Sched.perform_eq_some hs).2

/-- Threads 2 and 3 block in sema_down, and main calls sema_up. -/
def SemaSys.raised : List Sched.Op :=
  [.threadStart 2 31,.threadStart 3 31,.intrSetStatus true,.tick,.tick,.semaDown 7,.semaDown 7,
    .semaUp 7]

/-- After the call of main one of the threads still waits and the other is on its way to the test;
when main blocks, that one completes its call. -/
theorem SemaSys.reachable_noLostWakeUp_raised : ∃ s s' : SemaSys,
    ((s.sched.task 3).status = .blocked ∧ s.sched.value 7 = 1 ∧ ∃ t ∈ s.woken 7,
      ((s.sched.task t).status = .ready ∧ ∃ o, s.sched.resume t = .semaDown 7 o) ∨
      (t = s.sched.runningThread ∧ ∃ o, s.sched.pending = some (7,o))) ∧
    s'.downs 7 = 1 ∧ s'.downs 7+s'.sched.value 7 = 0+s'.ups 7 := by
  have hplay : ∃ s, Script.play perform raised (init 1 fun _ => 0) = some s ∧
      ((s.sched.task 3).status = .blocked ∧ s.sched.value 7 = 1 ∧
        s.sched.listEmpty (.waiters 7) = false) ∧
      ∃ s', Script.play perform [.threadBlock .blocked,.retest] s = some s' ∧ s'.downs 7 = 1 := by
    decide +kernel
  obtain ⟨s,hs,⟨hblocked,hvalue,hwaiters⟩,s',hs',hdowns⟩ := hplay
  have hrun := Script.play_steps hs perform_step
  have hrun' := hrun.trans (Script.play_steps hs' perform_step)
  obtain ⟨⟨ls,hls,hwake,-⟩,-⟩ := reachable_noLostWakeUp ⟨1,hrun⟩ 7
  have hcount := (reachable_noLostWakeUp ⟨1,hrun'⟩ 7).2
  refine ⟨s,s',⟨hblocked,hvalue,hwake (fun he => ?_) hvalue⟩,hdowns,hcount⟩
  have hempty := (hls.isEmpty_iff (.waiters 7)).mpr he
  simp [Sched.listEmpty,hempty] at hwaiters

end Invariant
end OsKernel

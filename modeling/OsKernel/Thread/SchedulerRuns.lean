import OsKernel.Library.Script
import OsKernel.Thread.SchedulerSteps
import Mathlib.Logic.Relation

/-! Runs of the kernel from the end of thread_init, for any number of tasks and semaphores and
any order of operations, and what holds in every state they reach. -/
namespace OsKernel.Sched
open IntrusiveList

/-- The calls of the running task, and the two ways in which the processor goes on by itself. -/
inductive Op
  /-- The loop of sema_down tests the value again after a wake-up. -/
  | retest
  | tick
  | intrSetStatus (status : Bool)
  | schedule
  | threadBlock (stat : TaskStatus)
  | threadUnblock (pthread : TaskId)
  | semaDown (psema : SemaphoreId)
  | semaUp (psema : SemaphoreId)
  | threadStart (thread : TaskId) (prio : ℕ)
  | processExecute (thread : TaskId)
  deriving DecidableEq, Repr

def exec (s : Sched) : Op → Except Panic Sched
  | .retest =>
    match s.pending with
    | some (psema,oldStatus) => { s with pending := none }.semaDownLoop psema oldStatus
    | none => .ok s
  | .tick => s.intrTimerHandler
  | .intrSetStatus status => .ok (s.setIntr status)
  | .schedule => s.schedule .schedule
  | .threadBlock stat => s.threadBlock stat .threadBlock
  | .threadUnblock pthread => s.threadUnblock pthread
  | .semaDown psema => s.semaDown psema
  | .semaUp psema => s.semaUp psema
  | .threadStart thread prio => s.threadStart thread prio
  | .processExecute thread => s.processExecute thread

/-- When an operation can happen. The timer needs the interrupt flag. Besides sema_up, which
unblocks the task it has popped, the kernel unblocks only tasks that have put themselves to
sleep by thread_block (wakeup in ioqueue.c), never a task that is waiting in sema_down. A new
PCB is a page that is not in use. -/
def Enabled (s : Sched) : Op → Prop
  | .retest => s.pending ≠ none
  | .tick => s.pending = none ∧ s.intr = true
  | .threadUnblock pthread =>
    s.pending = none ∧ pthread ∈ s.created ∧ ∀ psema, ¬ s.WaitsFor pthread psema
  | .threadStart thread _ => s.pending = none ∧ thread ∉ s.created
  | .processExecute thread => s.pending = none ∧ thread ∉ s.created
  | _ => s.pending = none

/-- The operation suspends the running task until some event. -/
def Blocks (s : Sched) : Op → Prop
  | .retest => ∃ p o, s.pending = some (p,o) ∧ s.value p = 0
  | .threadBlock _ => True
  | .semaDown psema => s.value psema = 0
  | _ => False

/-- One operation preserves the invariant. It fails at an assertion on a promise of its
caller, or because it blocks while no task is ready. -/
theorem Inv.exec {s : Sched} {q : Queues} (h : Inv s q) {op : Op} (hen : s.Enabled op) :
    Outcome (s.exec op) (fun s' => ∃ q', Inv s' q')
      (fun e => e ∈ callerAsserts ∨ s.Blocks op ∧ e = readyEmpty ∧ q.ready = []) := by
  cases op with
  | retest =>
    cases hp : s.pending with
    | none => exact absurd hp hen
    | some po =>
      obtain ⟨p,o⟩ := po
      have h' : Inv { s with pending := none } q :=
        h.of_eq rfl rfl rfl rfl rfl fun hn => absurd rfl hn
      simp only [OsKernel.Sched.exec,hp]
      refine (h'.semaDownLoop rfl p o).mono (fun _ ha => ha.1) ?_
      rintro e (he | ⟨hv,he⟩)
      · exact .inl he.1
      · exact .inr ⟨⟨p,o,hp,hv⟩,he⟩
  | tick => exact (h.intrTimerHandler hen.1).mono (fun _ ha => ha.1) fun _ he => he.elim
  | intrSetStatus status => exact ⟨q,h.of_eq rfl rfl rfl rfl rfl fun hn => absurd hen hn⟩
  | schedule =>
    by_cases hi : s.intr = false
    · exact (h.schedule hi hen).mono (fun _ ha => ⟨_,ha.1.choose_spec⟩) fun _ he => he.elim
    · have heq : s.exec .schedule = .error (.assert "schedule" "intr_get_status()==INTR_OFF") := by
        simp only [OsKernel.Sched.exec,OsKernel.Sched.schedule,OsKernel.assert,hi]
        rfl
      rw [heq]
      exact .inl (by simp [callerAsserts])
  | threadBlock stat =>
    refine (h.toCore.threadBlock hen h.running stat .threadBlock (fun t p _ => h.waiters_iff t p)
      fun p => ?_).mono (fun _ ha => ⟨_,ha.1.choose_spec⟩) ?_
    · simp [h.off_running.2 p]
    · rintro e (he | he)
      · exact .inl he.1
      · exact .inr ⟨trivial,he⟩
  | threadUnblock t =>
    refine (h.threadUnblock hen.2.1 hen.2.2).mono ?_ fun e he => .inl he.1
    rintro s' ⟨_,_,hs⟩
    exact ⟨_,hs⟩
  | semaDown p =>
    have h' : Inv (s.setIntr false) q := h.of_eq rfl rfl rfl rfl rfl fun _ => rfl
    refine (h'.semaDownLoop hen p s.intr).mono (fun _ ha => ha.1) ?_
    rintro e (he | ⟨hv,he⟩)
    · exact .inl he.1
    · exact .inr ⟨hv,he⟩
  | semaUp p => exact (h.semaUp p).mono (fun _ ha => ha.1) fun e he => .inl he.1
  | threadStart t prio =>
    exact (h.enqueue hen.1 hen.2 prio "thread_start" s.intr).mono (fun _ ha => ha.1)
      fun _ he => he.elim
  | processExecute t =>
    refine Outcome.bind ((h.enqueue hen.1 hen.2 defaultPrio "process_execute" false).mono
      (fun _ ha => ha) fun _ he => he.elim) ?_
    rintro s' ⟨⟨q',hq'⟩,links,rfl⟩
    exact ⟨q',hq'.of_eq rfl rfl rfl rfl rfl fun hn => absurd hen.1 hn⟩

/-- One step of the kernel. -/
def Step (s s' : Sched) : Prop := ∃ op, s.Enabled op ∧ s.exec op = .ok s'

/-- The states that some run reaches from the end of thread_init. -/
def Reachable (s : Sched) : Prop :=
  ∃ mainThread value, Relation.ReflTransGen Step (threadInit mainThread value) s

theorem threadInit_inv (mainThread : TaskId) (value : SemaphoreId → ℕ) :
    Inv (threadInit mainThread value) ⟨[],[mainThread],fun _ => []⟩ := by
  have hempty : Represents listInit Node.head Node.tail fun _ => [] := by
    refine ⟨fun l => ?_,fun l => ?_,fun l m hlm => ?_⟩
    · simp [spine,Linked,listInit]
    · simp [spine]
    · simp [spine,Ne.symm hlm]
  have hfresh : ∀ l, Node.allListTag mainThread ∉ spine Node.head Node.tail (fun _ => []) l := by
    simp [spine]
  have hr := hempty.append .threadAllList hfresh
  have hlists : (Queues.mk [] [mainThread] fun _ => []).lists =
      Function.update (fun _ => []) .threadAllList ([] ++ [Node.allListTag mainThread]) := by
    funext l
    cases l <;> simp [Queues.lists]
  refine ⟨⟨⟨?_,by simp,by simp [threadInit],by simp⟩,?_,?_,?_,?_,?_⟩,?_,?_,?_⟩
  · rw [hlists]
    exact hr
  all_goals simp [threadInit,initThread,WaitsFor]

theorem Reachable.inv {s : Sched} (h : s.Reachable) : ∃ q, Inv s q := by
  obtain ⟨mainThread,value,hrun⟩ := h
  induction hrun with
  | refl => exact ⟨_,threadInit_inv mainThread value⟩
  | tail _ hstep ih =>
    obtain ⟨q,hq⟩ := ih
    obtain ⟨op,hen,hop⟩ := hstep
    exact (hq.exec hen).of_ok hop

/-- The failures that a damaged list can cause. -/
def ListPanic (e : Panic) : Prop :=
  e ∈ [Panic.assert "schedule" "!elem_find(&thread_ready_list,&cur->general_tag)",
    .assert "schedule" "!list_empty(&thread_ready_list)",
    .assert "list_pop" "plist->head.next != &plist->tail",
    .assert "thread_unblock" "!elem_find(&thread_ready_list,&pthread->general_tag)",
    .panic "thread_unblock" "thread_unblock: blocked thread in ready_list\n",
    .assert "sema_down" "!elem_find(&psema->waiters,&running_thread()->general_tag)",
    .panic "sema_down" "sema_down: seme_down thread already in ready_list\n",
    .assert "thread_start" "!elem_find(&thread_ready_list,&thread->general_tag)",
    .assert "thread_start" "!elem_find(&thread_all_list,&thread->all_list_tag)",
    .assert "process_execute" "!elem_find(&thread_ready_list,&thread->general_tag)",
    .assert "process_execute" "!elem_find(&thread_all_list,&thread->all_list_tag)"] ∨
  ∃ func, e = .undefined func

theorem not_listPanic_of_caller {e : Panic} (h : e ∈ callerAsserts) : ¬ ListPanic e := by
  simp only [callerAsserts,List.mem_cons,List.not_mem_nil,or_false] at h
  rintro (hl | ⟨func,rfl⟩)
  · obtain rfl | rfl | rfl | rfl | rfl | rfl := h <;> simp at hl
  · simp at h

/-- The lists of the kernel, as the sequences they represent, agree with the statuses. -/
structure Consistent (s : Sched) (ls : ListName → List Node) : Prop where
  represents : Represents s.links Node.head Node.tail ls
  current : s.runningThread ∈ s.created ∧
    ∀ t ∈ s.created, (s.task t).status = .running ↔ t = s.runningThread
  ready_once : ∀ t ∈ s.created, (s.task t).status = .ready →
    (ls .threadReadyList).count (.generalTag t) = 1
  ready_only : ∀ x ∈ ls .threadReadyList, ∃ t ∈ s.created,
    x = .generalTag t ∧ (s.task t).status = .ready
  waits_once : ∀ t psema, s.WaitsFor t psema → (ls (.waiters psema)).count (.generalTag t) = 1 ∧
    ∀ l, .generalTag t ∈ ls l → l = .waiters psema
  running_off : ∀ l, .generalTag s.runningThread ∉ ls l
  all_once : ∀ t ∈ s.created, (ls .threadAllList).count (.allListTag t) = 1

theorem Inv.consistent {s : Sched} {q : Queues} (h : Inv s q) : Consistent s q.lists := by
  have hr := h.represents
  refine ⟨hr,⟨h.running_mem,fun t ht => ⟨h.running_only t ht,?_⟩⟩,?_,?_,?_,?_,?_⟩
  · rintro rfl
    exact h.running
  · intro t ht hs
    apply List.count_eq_one_of_mem (hr.nodup_list _)
    simpa [Queues.lists] using (h.ready_iff t).mpr ⟨ht,hs⟩
  · intro x hx
    obtain ⟨t,ht,rfl⟩ := List.mem_map.mp hx
    obtain ⟨hc,hs⟩ := (h.ready_iff t).mp ht
    exact ⟨t,hc,rfl,hs⟩
  · intro t p hw
    have hm : Node.generalTag t ∈ q.lists (.waiters p) := by
      simpa [Queues.lists] using (h.waiters_iff t p).mpr hw
    refine ⟨List.count_eq_one_of_mem (hr.nodup_list _) hm,fun l hl => ?_⟩
    by_contra hne
    exact hr.not_mem_of_ne hne (mem_spine_of_mem hl) (mem_spine_of_mem hm)
  · intro l hl
    exact h.off_running.not_mem_spine l (mem_spine_of_mem hl)
  · intro t ht
    apply List.count_eq_one_of_mem (hr.nodup_list _)
    simpa [Queues.lists,h.all_eq] using ht

/-- In every reachable state the lists are consistent, and no operation can trip over a list,
provided that another task is ready when the running one blocks. -/
theorem reachable_consistent {s : Sched} (h : s.Reachable) :
    (∃ ls, Consistent s ls) ∧
    ∀ op e, s.Enabled op →
      (s.Blocks op → ∃ t ∈ s.created, t ≠ s.runningThread ∧ (s.task t).status = .ready) →
      s.exec op = .error e → ¬ ListPanic e := by
  obtain ⟨q,hq⟩ := h.inv
  refine ⟨⟨_,hq.consistent⟩,fun op e hen hready he => ?_⟩
  obtain hc | ⟨hb,-,hempty⟩ := (hq.exec hen).of_error he
  · exact not_listPanic_of_caller hc
  · obtain ⟨t,ht,-,hs⟩ := hready hb
    have hm := (hq.ready_iff t).mpr ⟨ht,hs⟩
    rw [hempty] at hm
    exact absurd hm (List.not_mem_nil)

/-- Operations that are enabled for a reason that can be computed. -/
def Possible (s : Sched) : Op → Prop
  | .retest => s.pending ≠ none
  | .tick => s.pending = none ∧ s.intr = true
  | .threadUnblock _ => False
  | .threadStart thread _ => s.pending = none ∧ thread ∉ s.created
  | .processExecute thread => s.pending = none ∧ thread ∉ s.created
  | _ => s.pending = none

instance (s : Sched) : DecidablePred s.Possible := fun op => by
  cases op <;> unfold Possible <;> infer_instance

theorem Possible.enabled {s : Sched} {op : Op} (h : s.Possible op) : s.Enabled op := by
  cases op with
  | threadUnblock => exact h.elim
  | _ => exact h

/-- The state after an operation, if it is possible and returns. -/
def perform (s : Sched) (op : Op) : Option Sched :=
  if s.Possible op then (s.exec op).toOption else none

theorem perform_eq_some {s s' : Sched} {op : Op} (h : s.perform op = some s') :
    s.Possible op ∧ s.exec op = .ok s' := by
  obtain ⟨hen,h⟩ := Option.ite_none_right_eq_some.mp h
  exact ⟨hen,eq_ok_of_toOption h⟩

theorem perform_step {s s' : Sched} {op : Op} (h : s.perform op = some s') : s.Step s' :=
  ⟨op,(perform_eq_some h).1.enabled,(perform_eq_some h).2⟩

/-- The state after main has started one more thread. -/
def twoTasks : Sched :=
  match (threadInit 1 fun _ => 1).exec (.threadStart 2 31) with
  | .ok s => s
  | .error _ => threadInit 1 fun _ => 1

theorem reachable_consistent_twoTasks :
    twoTasks.created = [1,2] ∧ ∃ ls, Consistent twoTasks ls := by
  refine ⟨rfl,(reachable_consistent ⟨1,fun _ => 1,.single ⟨.threadStart 2 31,?_,rfl⟩⟩).1⟩
  simp [Enabled,threadInit]

end OsKernel.Sched

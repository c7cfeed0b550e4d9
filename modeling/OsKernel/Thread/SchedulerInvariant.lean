import OsKernel.Thread.Scheduler
import Mathlib.Logic.Relation

/-! The invariant of the scheduler. The pointer structure represents one sequence of tasks for
each list; the sequences determine the status of every task and conversely. Each operation is
followed once on the represented sequences, and the invariant is derived from that. -/
namespace OsKernel.Sched
open IntrusiveList

/-- The sequences that the scheduler lists and the waiters lists stand for. -/
structure Queues where
  ready : List TaskId
  all : List TaskId
  waiters : SemaphoreId → List TaskId

namespace Queues

def lists (q : Queues) : ListName → List Node
  | .threadReadyList => q.ready.map .generalTag
  | .threadAllList => q.all.map .allListTag
  | .waiters psema => (q.waiters psema).map .generalTag

def setReady (q : Queues) (l : List TaskId) : Queues := { q with ready := l }
def setAll (q : Queues) (l : List TaskId) : Queues := { q with all := l }
def setWaiters (q : Queues) (psema : SemaphoreId) (l : List TaskId) : Queues :=
  { q with waiters := Function.update q.waiters psema l }

theorem lists_setReady (q : Queues) (l : List TaskId) :
    (q.setReady l).lists = Function.update q.lists .threadReadyList (l.map .generalTag) := by
  funext n
  cases n <;> simp [lists,setReady]

theorem lists_setAll (q : Queues) (l : List TaskId) :
    (q.setAll l).lists = Function.update q.lists .threadAllList (l.map .allListTag) := by
  funext n
  cases n <;> simp [lists,setAll]

theorem lists_setWaiters (q : Queues) (psema : SemaphoreId) (l : List TaskId) :
    (q.setWaiters psema l).lists = Function.update q.lists (.waiters psema) (l.map .generalTag) := by
  funext n
  cases n with
  | waiters p => by_cases hp : p = psema <;> simp [lists,setWaiters,hp]
  | threadReadyList => simp [lists,setWaiters]
  | threadAllList => simp [lists,setWaiters]

/-- A task whose general_tag is on no list. -/
def Off (q : Queues) (t : TaskId) : Prop := t ∉ q.ready ∧ ∀ psema, t ∉ q.waiters psema

theorem Off.not_mem_spine {q : Queues} {t : TaskId} (h : q.Off t) (l : ListName) :
    Node.generalTag t ∉ spine Node.head Node.tail q.lists l := by
  cases l with
  | threadReadyList => simp [mem_spine,lists,h.1]
  | threadAllList => simp [mem_spine,lists]
  | waiters p => simp [mem_spine,lists,h.2 p]

theorem allListTag_not_mem_spine {q : Queues} {t : TaskId} (h : t ∉ q.all) (l : ListName) :
    Node.allListTag t ∉ spine Node.head Node.tail q.lists l := by
  cases l <;> simp [mem_spine,lists,h]

end Queues

/-- The links represent the sequences, and no sequence is longer than the list of tasks. -/
structure Linkage (s : Sched) (q : Queues) : Prop where
  represents : Represents s.links Node.head Node.tail q.lists
  ready_sub : q.ready ⊆ s.created
  all_sub : q.all ⊆ s.created
  waiters_sub : ∀ psema, q.waiters psema ⊆ s.created

section Operations
variable {s : Sched} {q : Queues}

theorem Linkage.of_eq (h : Linkage s q) {s' : Sched} (hl : s'.links = s.links)
    (hc : s'.created = s.created) : Linkage s' q := by
  obtain ⟨h₁,h₂,h₃,h₄⟩ := h
  rw [← hl] at h₁
  rw [← hc] at h₂ h₃ h₄
  exact ⟨h₁,h₂,h₃,h₄⟩

theorem Linkage.length_le (h : Linkage s q) (l : ListName) :
    (q.lists l).length ≤ s.created.length := by
  have hn := h.represents.nodup_list l
  cases l with
  | threadReadyList => simpa [Queues.lists] using ((hn.of_map).subperm h.ready_sub).length_le
  | threadAllList => simpa [Queues.lists] using ((hn.of_map).subperm h.all_sub).length_le
  | waiters p => simpa [Queues.lists] using ((hn.of_map).subperm (h.waiters_sub p)).length_le

theorem Linkage.nodup_ready (h : Linkage s q) : q.ready.Nodup :=
  (h.represents.nodup_list .threadReadyList).of_map

theorem Linkage.nodup_waiters (h : Linkage s q) (psema : SemaphoreId) :
    (q.waiters psema).Nodup :=
  (h.represents.nodup_list (.waiters psema)).of_map

theorem Linkage.elemFind_eq (h : Linkage s q) (func : String) (l : ListName) (x : Node) :
    s.elemFind func l x = .ok (decide (x ∈ q.lists l)) := by
  have hf := h.represents.find_eq l x (Nat.lt_succ_of_le (h.length_le l))
  simp only [elemFind]
  rw [hf]

theorem Linkage.listEmpty_eq (h : Linkage s q) (l : ListName) :
    s.listEmpty l = decide (q.lists l = []) := by
  simp only [listEmpty,h.represents.isEmpty_iff l]

theorem Linkage.listAppend_ready (h : Linkage s q) {t : TaskId} (ht : q.Off t)
    (hc : t ∈ s.created) :
    Linkage (s.listAppend .threadReadyList (.generalTag t)) (q.setReady (q.ready ++ [t])) := by
  refine ⟨?_,?_,h.all_sub,h.waiters_sub⟩
  · have hr := h.represents.append .threadReadyList ht.not_mem_spine
    rw [Queues.lists_setReady,List.map_append]
    exact hr
  · intro u hu
    simp only [Queues.setReady,List.mem_append,List.mem_singleton] at hu
    exact hu.elim (fun hm => h.ready_sub hm) (fun e => e ▸ hc)

theorem Linkage.listPush_ready (h : Linkage s q) {t : TaskId} (ht : q.Off t)
    (hc : t ∈ s.created) :
    Linkage (s.listPush .threadReadyList (.generalTag t)) (q.setReady (t :: q.ready)) := by
  refine ⟨?_,?_,h.all_sub,h.waiters_sub⟩
  · have hr := h.represents.push .threadReadyList ht.not_mem_spine
    rw [Queues.lists_setReady,List.map_cons]
    exact hr
  · intro u hu
    simp only [Queues.setReady,List.mem_cons] at hu
    exact hu.elim (fun e => e ▸ hc) (fun hm => h.ready_sub hm)

theorem Linkage.listAppend_all (h : Linkage s q) {t : TaskId} (ht : t ∉ q.all)
    (hc : t ∈ s.created) :
    Linkage (s.listAppend .threadAllList (.allListTag t)) (q.setAll (q.all ++ [t])) := by
  refine ⟨?_,h.ready_sub,?_,h.waiters_sub⟩
  · have hr := h.represents.append .threadAllList (Queues.allListTag_not_mem_spine ht)
    rw [Queues.lists_setAll,List.map_append]
    exact hr
  · intro u hu
    simp only [Queues.setAll,List.mem_append,List.mem_singleton] at hu
    exact hu.elim (fun hm => h.all_sub hm) (fun e => e ▸ hc)

theorem Linkage.listAppend_waiters (h : Linkage s q) {t : TaskId} (ht : q.Off t)
    (hc : t ∈ s.created) (psema : SemaphoreId) :
    Linkage (s.listAppend (.waiters psema) (.generalTag t))
      (q.setWaiters psema (q.waiters psema ++ [t])) := by
  refine ⟨?_,h.ready_sub,h.all_sub,?_⟩
  · have hr := h.represents.append (.waiters psema) ht.not_mem_spine
    rw [Queues.lists_setWaiters,List.map_append]
    exact hr
  · intro p u hu
    by_cases hp : p = psema
    · subst hp
      simp only [Queues.setWaiters,Function.update_self,List.mem_append,List.mem_singleton] at hu
      exact hu.elim (fun hm => h.waiters_sub p hm) (fun e => e ▸ hc)
    · simp only [Queues.setWaiters,Function.update_of_ne hp] at hu
      exact h.waiters_sub p hu

/-- Popping the ready list returns the tag of its first task. -/
theorem Linkage.listPop_ready (h : Linkage s q) {t : TaskId} {l : List TaskId}
    (hl : q.ready = t :: l) :
    ∃ links, s.listPop .threadReadyList = .ok (.generalTag t,{ s with links := links }) ∧
      Linkage { s with links := links } (q.setReady l) := by
  obtain ⟨hx,hr⟩ := h.represents.pop (i := .threadReadyList) (x := Node.generalTag t)
    (l := l.map .generalTag) (by simp only [Queues.lists,hl,List.map_cons])
  refine ⟨IntrusiveList.remove s.links (.generalTag t),?_,⟨?_,?_,h.all_sub,h.waiters_sub⟩⟩
  · simp only [listPop,hx]
    rw [assert_of (by simp)]
    rfl
  · rw [Queues.lists_setReady]
    exact hr
  · intro u hu
    exact h.ready_sub (by rw [hl]; exact List.mem_cons_of_mem _ hu)

theorem Linkage.listPop_waiters (h : Linkage s q) {psema : SemaphoreId} {t : TaskId}
    {l : List TaskId} (hl : q.waiters psema = t :: l) :
    ∃ links, s.listPop (.waiters psema) = .ok (.generalTag t,{ s with links := links }) ∧
      Linkage { s with links := links } (q.setWaiters psema l) := by
  obtain ⟨hx,hr⟩ := h.represents.pop (i := .waiters psema) (x := Node.generalTag t)
    (l := l.map .generalTag) (by simp only [Queues.lists,hl,List.map_cons])
  refine ⟨IntrusiveList.remove s.links (.generalTag t),?_,⟨?_,h.ready_sub,h.all_sub,?_⟩⟩
  · simp only [listPop,hx]
    rw [assert_of (by simp)]
    rfl
  · rw [Queues.lists_setWaiters]
    exact hr
  · intro p u hu
    by_cases hp : p = psema
    · subst hp
      simp only [Queues.setWaiters,Function.update_self] at hu
      exact h.waiters_sub p (by rw [hl]; exact List.mem_cons_of_mem _ hu)
    · simp only [Queues.setWaiters,Function.update_of_ne hp] at hu
      exact h.waiters_sub p hu

end Operations

/-- The sequences agree with the statuses, the waiters lists left aside. -/
structure Core (s : Sched) (q : Queues) : Prop extends Linkage s q where
  running_mem : s.runningThread ∈ s.created
  running_only : ∀ t ∈ s.created, (s.task t).status = .running → t = s.runningThread
  ready_iff : ∀ t, t ∈ q.ready ↔ t ∈ s.created ∧ (s.task t).status = .ready
  all_eq : q.all = s.created
  magic : ∀ t ∈ s.created, (s.task t).stackMagic = 0x19980906

/-- The task t went to sleep in the loop of sema_down on psema. -/
def WaitsFor (s : Sched) (t : TaskId) (psema : SemaphoreId) : Prop :=
  t ∈ s.created ∧ (s.task t).status = .blocked ∧ ∃ o, s.resume t = .semaDown psema o

/-- The scheduler invariant. -/
structure Inv (s : Sched) (q : Queues) : Prop extends Core s q where
  running : (s.task s.runningThread).status = .running
  waiters_iff : ∀ t psema, t ∈ q.waiters psema ↔ s.WaitsFor t psema
  pending_off : s.pending ≠ none → s.intr = false

/-- What a switch away from the running task leaves behind. -/
structure Switched (s : Sched) (r : Resume) (s' : Sched) : Prop where
  resume : s'.resume = Function.update s.resume s.runningThread r
  value : s'.value = s.value
  created : s'.created = s.created
  pending : ∀ p o, s'.pending = some (p,o) ↔ s'.resume s'.runningThread = .semaDown p o
  asleep : ∀ t, (s.task t).status ≠ .ready → (s.task t).status ≠ .running →
    (s'.task t).status = (s.task t).status
  others : ∀ t, t ≠ s.runningThread →
    (s'.task t).status = (s.task t).status ∨ (s'.task t).status = .running
  next_mem : s'.runningThread ∈ s.created

/-- The failure of schedule when no task is ready. -/
def readyEmpty : Panic := .assert "schedule" "!list_empty(&thread_ready_list)"

section Projections
variable (s : Sched) (t cur next : TaskId) (f : Task → Task) (stat : TaskStatus) (r : Resume)

@[simp] theorem setTask_links : (s.setTask t f).links = s.links := rfl
@[simp] theorem setTask_created : (s.setTask t f).created = s.created := rfl
@[simp] theorem setTask_task_self : (s.setTask t f).task t = f (s.task t) := by simp [setTask]
theorem setTask_task_of_ne {u : TaskId} (h : u ≠ t) : (s.setTask t f).task u = s.task u := by
  simp [setTask,h]

@[simp] theorem goOn_links : (s.goOn r).links = s.links := by cases r <;> rfl
@[simp] theorem goOn_task : (s.goOn r).task = s.task := by cases r <;> rfl
@[simp] theorem goOn_created : (s.goOn r).created = s.created := by cases r <;> rfl
@[simp] theorem goOn_value : (s.goOn r).value = s.value := by cases r <;> rfl
@[simp] theorem goOn_runningThread : (s.goOn r).runningThread = s.runningThread := by
  cases r <;> rfl
@[simp] theorem goOn_resume : (s.goOn r).resume = s.resume := by cases r <;> rfl

theorem goOn_pending (h : s.pending = none) (p : SemaphoreId) (o : Bool) :
    (s.goOn r).pending = some (p,o) ↔ r = .semaDown p o := by
  cases r <;> simp [goOn,h,setIntr]

theorem goOn_intr (hi : s.intr = false) (h : s.pending = none) (hp : (s.goOn r).pending ≠ none) :
    (s.goOn r).intr = false := by
  cases r <;> simp_all [goOn,setIntr]

end Projections

section Switching
variable {s : Sched} {q : Queues} {r : Resume}

theorem Inv.off_running (h : Inv s q) : q.Off s.runningThread := by
  refine ⟨fun hm => ?_,fun p hm => ?_⟩
  · have := ((h.ready_iff _).mp hm).2
    rw [h.running] at this
    contradiction
  · have := ((h.waiters_iff _ _).mp hm).2.1
    rw [h.running] at this
    contradiction

/-- The fields of the state in which next has taken over from the running task. -/
structure TookOver (s : Sched) (next : TaskId) (r : Resume) (s' : Sched) : Prop where
  task : s'.task = Function.update s.task next { s.task next with status := .running }
  resume : s'.resume = Function.update s.resume s.runningThread r
  runningThread : s'.runningThread = next
  value : s'.value = s.value
  created : s'.created = s.created
  pending : ∀ p o, s'.pending = some (p,o) ↔ s'.resume next = .semaDown p o
  pending_off : s'.pending ≠ none → s'.intr = false

theorem switchTo_tookOver (links : Links Node) (next : TaskId) (hi : s.intr = false)
    (hp : s.pending = none) :
    TookOver s next r ((({ s with links := links } : Sched).setStatus next .running).switchTo
      s.runningThread next r) := by
  refine ⟨?_,?_,?_,?_,?_,?_,?_⟩
  · simp [switchTo,setStatus,setTask]
  · simp [switchTo,setStatus,setTask]
  · simp [switchTo]
  · simp [switchTo,setStatus,setTask]
  · simp [switchTo,setStatus,setTask]
  · intro p o
    simp only [switchTo,goOn_resume]
    exact goOn_pending _ _ (by exact hp) p o
  · exact goOn_intr _ _ (by exact hi) (by exact hp)

theorem TookOver.task_of_ne {next t : TaskId} {s' : Sched} (h : TookOver s next r s')
    (ht : t ≠ next) : s'.task t = s.task t := by rw [h.task,Function.update_of_ne ht]

theorem TookOver.status_next {next : TaskId} {s' : Sched} (h : TookOver s next r s') :
    (s'.task next).status = .running := by rw [h.task,Function.update_self]

/-- The state after a switch satisfies the invariant when the state before it does, except
that the running task has been suspended as r says. -/
theorem Core.tookOver (h : Core s q) {next : TaskId} {l : List TaskId} {s' : Sched}
    (hl : q.ready = next :: l) (ht : TookOver s next r s') (hlink : Linkage s' (q.setReady l))
    (hcur : (s.task s.runningThread).status ≠ .running)
    (hw : ∀ t p, t ≠ s.runningThread → (t ∈ q.waiters p ↔ s.WaitsFor t p))
    (hwc : ∀ p, s.runningThread ∈ q.waiters p ↔
      (s.task s.runningThread).status = .blocked ∧ ∃ o, r = .semaDown p o) :
    Inv s' (q.setReady l) := by
  have hnext := (h.ready_iff next).mp (by simp [hl])
  have hnd := h.nodup_ready
  rw [hl,List.nodup_cons] at hnd
  refine ⟨⟨hlink,?_,?_,?_,?_,?_⟩,?_,?_,ht.pending_off⟩
  · rw [ht.runningThread,ht.created]
    exact hnext.1
  · intro t hc hr
    rw [ht.runningThread]
    by_contra hne
    rw [ht.task_of_ne hne] at hr
    have he := h.running_only t (ht.created ▸ hc) hr
    exact hcur (he ▸ hr)
  · intro t
    simp only [Queues.setReady]
    by_cases hn : t = next
    · subst hn
      simp [hnd.1,ht.status_next]
    · have hm := h.ready_iff t
      rw [hl,List.mem_cons] at hm
      rw [ht.task_of_ne hn,ht.created,← hm]
      simp [hn]
  · simpa [Queues.setReady,ht.created] using h.all_eq
  · intro t hc
    rw [ht.created] at hc
    by_cases hn : t = next
    · subst hn
      simpa [ht.task] using h.magic t hc
    · rw [ht.task_of_ne hn]
      exact h.magic t hc
  · rw [ht.runningThread]
    exact ht.status_next
  · intro t p
    simp only [Queues.setReady,WaitsFor,ht.created,ht.resume]
    by_cases hn : t = next
    · subst hn
      have hne : t ∉ q.waiters p := by
        by_cases hc : t = s.runningThread
        · rw [hc,hwc p,← hc,hnext.2]
          simp
        · rw [hw t p hc]
          simp [WaitsFor,hnext.2]
      simp [hne,ht.status_next]
    · rw [ht.task_of_ne hn]
      by_cases hc : t = s.runningThread
      · subst hc
        rw [hwc p]
        simp [h.running_mem]
      · rw [hw t p hc]
        simp [WaitsFor,hc]

theorem Core.switched (h : Core s q) {next : TaskId} {l : List TaskId} {s' : Sched}
    (hl : q.ready = next :: l) (ht : TookOver s next r s') : Switched s r s' := by
  have hnext := (h.ready_iff next).mp (by simp [hl])
  refine ⟨ht.resume,ht.value,ht.created,?_,?_,?_,?_⟩
  · rw [ht.runningThread]
    exact ht.pending
  · intro t h₁ _
    by_cases hn : t = next
    · exact absurd hnext.2 (hn ▸ h₁)
    · rw [ht.task_of_ne hn]
  · intro t _
    by_cases hn : t = next
    · exact .inr (hn ▸ ht.status_next)
    · exact .inl (by rw [ht.task_of_ne hn])
  · rw [ht.runningThread]
    exact hnext.1

/-- The first ready task gets the processor. -/
theorem Core.scheduleNext (h : Core s q) (hi : s.intr = false) (hp : s.pending = none)
    (hcur : (s.task s.runningThread).status ≠ .running)
    (hw : ∀ t p, t ≠ s.runningThread → (t ∈ q.waiters p ↔ s.WaitsFor t p))
    (hwc : ∀ p, s.runningThread ∈ q.waiters p ↔
      (s.task s.runningThread).status = .blocked ∧ ∃ o, r = .semaDown p o) :
    Outcome (s.scheduleNext s.runningThread r)
      (fun s' => (∃ l, Inv s' (q.setReady l)) ∧ Switched s r s')
      (fun e => e = readyEmpty ∧ q.ready = []) := by
  cases hl : q.ready with
  | nil =>
    have he : s.listEmpty .threadReadyList = true := by
      rw [h.listEmpty_eq]
      simp [Queues.lists,hl]
    simp [OsKernel.Sched.scheduleNext,he,OsKernel.assert,bind,Except.bind,readyEmpty]
  | cons next l =>
    have he : s.listEmpty .threadReadyList = false := by
      rw [h.listEmpty_eq]
      simp [Queues.lists,hl]
    obtain ⟨links,hpop,hlink⟩ := h.listPop_ready hl
    have ht := switchTo_tookOver (r := r) links next hi hp
    refine Outcome.of_eq ?_ ⟨⟨l,h.tookOver hl ht (hlink.of_eq ?_ ?_) hcur hw hwc⟩,h.switched hl ht⟩
    · rw [OsKernel.Sched.scheduleNext,assert_of he,bind_of_ok rfl,hpop]
      rfl
    · simp [switchTo,setStatus]
    · simp [switchTo,setStatus]

end Switching
end OsKernel.Sched

import OsKernel.Thread.RoundRobin

/-! The turns of the tasks while only the timer interrupts them: everyone gets exactly the slice
that its priority stands for, and after one round the ready list is as it was. -/
namespace OsKernel.Sched
open IntrusiveList

/-- A run of n timer interrupts, each taken with interrupts on. -/
inductive Ticks : ℕ → Sched → Sched → Prop
  | refl (s : Sched) : Ticks 0 s s
  | step {n : ℕ} {s s' s'' : Sched} (hen : s.Enabled .tick) (hop : s.exec .tick = .ok s')
    (h : Ticks n s' s'') : Ticks (n+1) s s''

/-- The ticks of one turn of every task in l. -/
def turns (s : Sched) (l : List TaskId) : ℕ := (l.map fun t => (s.task t).priority+1).sum

/-- The tasks in l take turns: the first one has the processor, the others have been preempted
or are new, and have a full slice before them. -/
structure Turning (s : Sched) (l : List TaskId) : Prop where
  inv : ∃ q, Inv s q
  queue : ∃ ready, l = s.runningThread :: ready ∧ ReadyList s ready
  preempted : ∀ t ∈ l, t ≠ s.runningThread → s.resume t = .timer ∨ s.resume t = .kernelThread
  full : ∀ t ∈ l, t ≠ s.runningThread → (s.task t).ticks = (s.task t).priority
  enabled : s.Enabled .tick

/-- The first task of l has n more ticks before it is preempted. -/
structure Slice (s : Sched) (l : List TaskId) (n : ℕ) : Prop extends Turning s l where
  left : (s.task s.runningThread).ticks = n

/-- What the ticks of a run are charged to. -/
structure Charges (s : Sched) (charge : TaskId → ℕ) (s' : Sched) : Prop where
  priority : ∀ t, (s'.task t).priority = (s.task t).priority
  elapsed : ∀ t, (s'.task t).elapsedTicks ≡ (s.task t).elapsedTicks+charge t [MOD 2^32]

section Turns
variable {s s' s'' : Sched} {q : Queues} {t : TaskId} {l l₁ l₂ : List TaskId} {n m : ℕ}

theorem Ticks.trans (h : Ticks n s s') (h' : Ticks m s' s'') : Ticks (n+m) s s'' := by
  induction h with
  | refl => simpa using h'
  | step hen hop _ ih =>
    rw [Nat.add_right_comm]
    exact .step hen hop (ih h')

theorem Charges.trans {c c' : TaskId → ℕ} (h : Charges s c s') (h' : Charges s' c' s'') :
    Charges s (fun t => c t+c' t) s'' := by
  refine ⟨fun t => (h'.priority t).trans (h.priority t),fun t => ?_⟩
  have h₁ := (h.elapsed t).add_right (c' t)
  rw [Nat.add_assoc] at h₁
  exact (h'.elapsed t).trans h₁

theorem Charges.congr {c c' : TaskId → ℕ} (h : Charges s c s') (hc : ∀ t, c t = c' t) :
    Charges s c' s' := by
  obtain rfl : c = c' := funext hc
  exact h

theorem account_charges (s : Sched) :
    Charges s (fun t => if t = s.runningThread then 1 else 0) s.account := by
  refine ⟨fun t => ?_,fun t => ?_⟩
  · by_cases ht : t = s.runningThread <;> simp [account,setIntr,setTask,ht]
  · by_cases ht : t = s.runningThread
    · subst ht
      simp [account,setIntr,Nat.ModEq]
    · simp [account,setIntr,setTask,ht,Nat.ModEq]

theorem SameTime.charges {s₀ : Sched} {c : TaskId → ℕ} (h : SameTime s s') (hc : Charges s₀ c s) :
    Charges s₀ c s' :=
  ⟨fun t => (h.priority t).trans (hc.priority t),fun t => h.elapsed t ▸ hc.elapsed t⟩

/-- The state after a switch from the running task, whose slice has ended. -/
theorem schedule_preempts (hrun : (s.task s.runningThread).status = .running) :
    Outcome (s.schedule .timer) (fun s' => ∃ links next, s' = ((({ s with links := links }).setTask
      s.runningThread fun p => { p with ticks := p.priority, status := .ready }).setStatus
        next .running).switchTo s.runningThread next .timer) (fun _ => True) := by
  refine Outcome.bind (Outcome.assert (.inr trivial)) fun _ _ => ?_
  dsimp only
  rw [if_pos hrun]
  refine Outcome.bind (Outcome.true _) fun _ _ => ?_
  refine Outcome.bind (Outcome.assert (.inr trivial)) fun _ _ => ?_
  change Outcome (OsKernel.Sched.scheduleNext _ _ _) _ _
  refine Outcome.bind (Outcome.assert (.inr trivial)) fun _ _ => ?_
  refine Outcome.bind (P := fun a => ∃ links, a.2 = (({ s with links := links }).setTask
      s.runningThread fun p => { p with ticks := p.priority, status := .ready }))
    (Outcome.bind (Outcome.assert (.inr trivial)) fun _ _ => ⟨_,rfl⟩) ?_
  rintro ⟨tag,s₁⟩ ⟨links,rfl⟩
  refine Outcome.bind (Outcome.true _) fun next _ => ?_
  exact ⟨links,next,rfl⟩

theorem goOn_preempted {r : Resume} (hr : r = .timer ∨ r = .kernelThread) :
    (s.goOn r).intr = true ∧ (s.goOn r).pending = s.pending := by
  obtain rfl|rfl := hr <;> exact ⟨rfl,rfl⟩

theorem Turning.nodup (h : Turning s l) : l.Nodup := by
  obtain ⟨q,hq⟩ := h.inv
  obtain ⟨ready,rfl,hready⟩ := h.queue
  obtain rfl := hready.eq_of_inv hq
  exact List.nodup_cons.mpr ⟨hq.off_running.1,hq.nodup_ready⟩

/-- A tick within the slice. -/
theorem Slice.tick (h : Slice s l (n+1)) : ∃ s', s.exec .tick = .ok s' ∧ Slice s' l n ∧
    s'.runningThread = s.runningThread ∧
    Charges s (fun t => if t = s.runningThread then 1 else 0) s' := by
  obtain ⟨q,hq⟩ := h.inv
  have hop := hq.tick_eq
  rw [if_neg (by rw [h.left]; exact Nat.succ_ne_zero n)] at hop
  have hinv := (hq.exec h.enabled).of_ok hop
  refine ⟨_,hop,⟨⟨hinv,?_,?_,?_,?_⟩,?_⟩,rfl,?_⟩
  · obtain ⟨ready,hl,hready⟩ := h.queue
    exact ⟨ready,hl,hready.of_eq rfl rfl⟩
  · exact h.preempted
  · intro t ht hne
    have hne' : t ≠ s.runningThread := hne
    simpa [account,setIntr,setTask,hne'] using h.full t ht hne
  · exact ⟨h.enabled.1,rfl⟩
  · have hleft := h.left
    simp [account,setIntr,setTask,hleft]
  · have hsame : ∀ t, ((s.account.setTask s.runningThread fun p =>
        { p with ticks := p.ticks-1 }).task t).priority = (s.account.task t).priority ∧
        ((s.account.setTask s.runningThread fun p =>
          { p with ticks := p.ticks-1 }).task t).elapsedTicks = (s.account.task t).elapsedTicks := by
      intro t
      by_cases ht : t = s.runningThread <;> simp [setTask,ht]
    have hc := account_charges s
    exact ⟨fun t => (hsame t).1.trans (hc.priority t),fun t => (hsame t).2 ▸ hc.elapsed t⟩

/-- The tick after the last one of the slice hands the processor on. -/
theorem Slice.switch (h : Slice s (t :: l) 0) : ∃ s', s.exec .tick = .ok s' ∧
    Slice s' (l ++ [t]) (s'.task s'.runningThread).priority ∧
    Charges s (fun u => if u = t then 1 else 0) s' := by
  obtain ⟨q,hq⟩ := h.inv
  obtain ⟨ready,hl,hready⟩ := h.queue
  obtain ⟨rfl,rfl⟩ := List.cons.inj hl
  obtain rfl := hready.eq_of_inv hq
  have hop := hq.tick_eq
  rw [if_pos h.left] at hop
  have hlink : Linkage s.account q := hq.toLinkage.of_eq rfl rfl
  have hrun : (s.account.task s.runningThread).status = .running := by
    simpa [account,setIntr] using hq.running
  cases hres : s.account.schedule .timer with
  | error e =>
    have hexec := (hq.intrTimerHandler h.enabled.1).of_error (hop.trans hres)
    exact hexec.elim
  | ok s' =>
    have hinv := (hq.exec h.enabled).of_ok (hop.trans hres)
    obtain ⟨next,rest,heq,hnext,hrest⟩ :=
      (hlink.schedule hq.off_running hq.running_mem hrun).of_ok hres
    obtain ⟨links,next',hs'⟩ := (schedule_preempts hrun).of_ok hres
    have hnext' : next' = next := by rw [← hnext,hs']; simp [switchTo]
    subst hnext'
    have hmem : next' ∈ q.ready ++ [s.runningThread] := by
      have hhead : next' ∈ next' :: rest := List.mem_cons_self
      exact heq ▸ hhead
    -- every task of the new queue has a full slice, the old running one included
    have hfull : ∀ u ∈ q.ready ++ [s.runningThread],
        (s'.task u).ticks = (s'.task u).priority := by
      intro u hu
      have hsame : (s'.task u).ticks = ((s.account.setTask s.runningThread fun p =>
            { p with ticks := p.priority, status := .ready }).task u).ticks ∧
          (s'.task u).priority = ((s.account.setTask s.runningThread fun p =>
            { p with ticks := p.priority, status := .ready }).task u).priority := by
        rw [hs']
        by_cases hun : u = next'
        · subst hun
          constructor <;> simp [switchTo,setStatus,setTask] <;> rfl
        · constructor <;> simp [switchTo,setStatus,setTask,hun] <;> rfl
      rw [hsame.1,hsame.2]
      by_cases hur : u = s.runningThread
      · subst hur
        rw [setTask_task_self]
      · rw [setTask_task_of_ne _ _ _ hur]
        have hmem : u ∈ s.runningThread :: q.ready := by
          obtain hu|hu := List.mem_append.mp hu
          · exact List.mem_cons_of_mem _ hu
          · exact absurd (List.mem_singleton.mp hu) hur
        simpa [account,setIntr,setTask,hur] using h.full u hmem hur
    have hresume : ∀ u ∈ q.ready ++ [s.runningThread],
        Function.update s.resume s.runningThread .timer u = .timer ∨
        Function.update s.resume s.runningThread .timer u = .kernelThread := by
      intro u hu
      by_cases hur : u = s.runningThread
      · subst hur
        exact .inl (Function.update_self ..)
      · rw [Function.update_of_ne hur]
        obtain hu|hu := List.mem_append.mp hu
        · exact h.preempted u (List.mem_cons_of_mem _ hu) hur
        · exact absurd (List.mem_singleton.mp hu) hur
    have hs'resume : s'.resume = Function.update s.resume s.runningThread .timer := by
      rw [hs']
      simp [switchTo]
      rfl
    have hgo : s'.intr = true ∧ s'.pending = none := by
      have hp := h.enabled.1
      rw [hs']
      have hgo := goOn_preempted (hresume next' hmem) (s := ({ (({ s.account with links := links }).setTask
        s.runningThread fun p => { p with ticks := p.priority, status := .ready }).setStatus
          next' .running with
            resume := Function.update s.resume s.runningThread .timer, runningThread := next' }))
      exact ⟨hgo.1,hgo.2.trans hp⟩
    refine ⟨s',hop.trans hres,⟨⟨hinv,⟨rest,?_,hrest⟩,?_,?_,hgo.2,hgo.1⟩,?_⟩,?_⟩
    · rw [hnext]
      exact heq
    · intro u hu _
      rw [hs'resume]
      exact hresume u hu
    · exact fun u hu _ => hfull u hu
    · rw [hnext]
      exact hfull next' hmem
    · exact ((sameTime_schedule s.account).of_ok hres).charges (account_charges s)

/-- One turn of the running task. -/
theorem Slice.turn (h : Slice s (t :: l) n) : ∃ s', Ticks (n+1) s s' ∧
    Slice s' (l ++ [t]) (s'.task s'.runningThread).priority ∧
    Charges s (fun u => if u = t then n+1 else 0) s' := by
  induction n generalizing s with
  | zero =>
    obtain ⟨s',hop,hs',hc⟩ := h.switch
    exact ⟨s',.step h.enabled hop (.refl s'),hs',hc⟩
  | succ n ih =>
    obtain ⟨s₁,hop,hs₁,-,hc⟩ := h.tick
    obtain ⟨s',hticks,hs',hc'⟩ := ih hs₁
    obtain ⟨ready,hl,-⟩ := h.queue
    obtain rfl := (List.cons.inj hl).1
    refine ⟨s',.step h.enabled hop hticks,hs',(hc.trans hc').congr fun u => ?_⟩
    split
    · exact Nat.add_comm 1 (n+1)
    · rfl

theorem turns_congr (h : ∀ t, (s'.task t).priority = (s.task t).priority) (l : List TaskId) :
    turns s' l = turns s l := by
  unfold turns
  simp only [h]

/-- After one turn of every task in l₁, these tasks come behind the others. -/
theorem Slice.rotate (h : Slice s (l₁ ++ l₂) (s.task s.runningThread).priority) :
    ∃ s', Ticks (turns s l₁) s s' ∧ Slice s' (l₂ ++ l₁) (s'.task s'.runningThread).priority ∧
      Charges s (fun u => if u ∈ l₁ then (s.task u).priority+1 else 0) s' := by
  induction l₁ generalizing s l₂ with
  | nil => exact ⟨s,.refl s,by simpa using h,fun _ => rfl,fun _ => by simpa using Nat.ModEq.refl _⟩
  | cons t l ih =>
    have hnd := h.nodup
    obtain ⟨ready,hl,-⟩ := h.queue
    obtain rfl := (List.cons.inj hl).1
    obtain ⟨s₁,hticks,hs₁,hc⟩ := Slice.turn h
    obtain ⟨s',hticks',hs',hc'⟩ := ih (List.append_assoc l l₂ [s.runningThread] ▸ hs₁)
    rw [turns_congr hc.priority] at hticks'
    refine ⟨s',hticks.trans hticks',by simpa using hs',(hc.trans hc').congr fun u => ?_⟩
    have ht : s.runningThread ∉ l := fun hm =>
      (List.nodup_cons.mp hnd).1 (List.mem_append_left _ hm)
    by_cases hu : u = s.runningThread
    · subst hu
      simp [ht]
    · simp [hu,hc.priority u]

/-- The round robin of the scheduler. The running task and the ready ones, in the order of the
list, have full slices, and every ready task has been preempted by the timer or is new: none has
been woken and not run since. While only the timer interrupts, the ticks of the tasks in l₁ pass
without a failure and move these tasks behind the others, each of them is charged for one tick
more than its priority, nobody else is charged, and all slices are full again. -/
theorem reachable_rotates (h : s.Reachable) {ready : List TaskId} (hready : ReadyList s ready)
    (hpre : ∀ t ∈ ready, s.resume t = .timer ∨ s.resume t = .kernelThread)
    (hfull : ∀ t ∈ s.runningThread :: ready, (s.task t).ticks = (s.task t).priority)
    (hen : s.Enabled .tick) (hl : s.runningThread :: ready = l₁ ++ l₂) :
    ∃ s' ready', Ticks (turns s l₁) s s' ∧ ReadyList s' ready' ∧
      s'.runningThread :: ready' = l₂ ++ l₁ ∧
      (∀ t ∈ l₁ ++ l₂, (s'.task t).ticks = (s'.task t).priority) ∧
      Charges s (fun t => if t ∈ l₁ then (s.task t).priority+1 else 0) s' := by
  have hslice : Slice s (l₁ ++ l₂) (s.task s.runningThread).priority := by
    rw [← hl]
    refine ⟨⟨h.inv,⟨ready,rfl,hready⟩,?_,fun t ht _ => hfull t ht,hen⟩,
      hfull _ List.mem_cons_self⟩
    exact fun t ht hne => hpre t ((List.mem_cons.mp ht).resolve_left hne)
  obtain ⟨s',hticks,hs',hc⟩ := hslice.rotate
  obtain ⟨ready',hl',hready'⟩ := hs'.queue
  refine ⟨s',ready',hticks,hready',hl'.symm,fun t ht => ?_,hc⟩
  by_cases hrun : t = s'.runningThread
  · subst hrun
    exact hs'.left
  · exact hs'.full t (List.mem_append.mpr (List.mem_append.mp ht).symm) hrun

/-- Main and the thread it has started, after main has enabled the interrupts. -/
theorem reachable_rotates_twoTasks : ∃ s s' ready', Ticks (turns s [1,2]) s s' ∧
    ReadyList s' ready' ∧ s'.runningThread :: ready' = [1,2] := by
  have hon : Step twoTasks (twoTasks.setIntr true) := ⟨.intrSetStatus true,rfl,rfl⟩
  have hready : ReadyList (twoTasks.setIntr true) [2] := twoTasks_ready.of_eq rfl rfl
  have hfull : ∀ t ∈ [1,2], (twoTasks.task t).ticks = (twoTasks.task t).priority := by decide
  have hqueue : (twoTasks.setIntr true).runningThread::[2] = [1,2] ++ [] := rfl
  obtain ⟨s',ready',hticks,hready',hl,-⟩ := reachable_rotates (twoTasks_reachable.step hon) hready
    (fun t ht => .inr (by
      obtain rfl := List.mem_singleton.mp ht
      rfl)) hfull ⟨rfl,rfl⟩ hqueue
  exact ⟨_,s',ready',hticks,hready',hl⟩

end Turns
end OsKernel.Sched

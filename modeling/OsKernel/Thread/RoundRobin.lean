import OsKernel.Thread.ReadyQueue

/-! The scheduler as a round robin: how long a ready task can wait, how the timer shares the
processor, and that the accounts of the tasks add up to the clock. -/
namespace OsKernel.Sched
open IntrusiveList

/-- The ticks and the wake-ups of an operation. A wake-up puts a task in front of all others that
are ready. -/
def tickOf : Op → ℕ
  | .tick => 1
  | _ => 0

def wakeOf (s : Sched) : Op → ℕ
  | .threadUnblock _ => 1
  | .semaUp psema => if s.listEmpty (.waiters psema) then 0 else 1
  | _ => 0

section Steps
variable {s s' : Sched} {q q' : Queues} {op : Op} {l : List TaskId} {t : TaskId} {n : ℕ}

theorem ReadyList.of_eq (h : ReadyList s l) (hl : s'.links = s.links)
    (hc : s'.created = s.created) : ReadyList s' l := by
  obtain ⟨q,hq,rfl⟩ := h
  exact ⟨q,hq.of_eq hl hc,rfl⟩

theorem ReadyList.pad (h : ReadyList s l) : ReadyList s ([] ++ l ++ []) := by simpa using h

/-- The running task goes on. -/
structure Continues (s : Sched) (op : Op) (l : List TaskId) (s' : Sched) : Prop where
  runningThread : s'.runningThread = s.runningThread
  ready : ∃ front back, ReadyList s' (front ++ l ++ back) ∧ front.length = s.wakeOf op
  slice : (s'.task s.runningThread).ticks+tickOf op = (s.task s.runningThread).ticks

/-- Another task gets the processor. -/
structure Switches (s : Sched) (op : Op) (l : List TaskId) (s' : Sched) : Prop where
  dispatches : ∃ back, Dispatches (l ++ back) s'
  wake : s.wakeOf op = 0

/-- The state after the accounting part of the timer handler. -/
def account (s : Sched) : Sched :=
  { (s.setIntr false).setTask s.runningThread fun p =>
      { p with elapsedTicks := (p.elapsedTicks+1) % 2^32 } with ticks := (s.ticks+1) % 2^32 }

theorem Inv.tick_eq (h : Inv s q) : s.exec .tick =
    if (s.task s.runningThread).ticks = 0 then s.account.schedule .timer
    else .ok ((s.account.setTask s.runningThread fun p =>
      { p with ticks := p.ticks-1 }).setIntr true) := by
  have hmagic := h.magic _ h.running_mem
  have hticks : (s.account.task s.runningThread).ticks = (s.task s.runningThread).ticks := by
    simp [account,setIntr]
  rw [← hticks]
  exact bind_of_ok (assert_of hmagic)

theorem Inv.effect (h : Inv s q) (hen : s.Enabled op) (hop : s.exec op = .ok s') :
    Continues s op q.ready s' ∨ Switches s op q.ready s' := by
  have hstay {s' : Sched} (hs : Stays s s') (hwake : s.wakeOf op = 0) (htick : tickOf op = 0)
      (hr : ReadyList s' q.ready) : Continues s op q.ready s' :=
    ⟨hs.runningThread,⟨[],[],hr.pad,hwake.symm⟩,by rw [hs.same,htick,Nat.add_zero]⟩
  have hnone {s' : Sched} (hd : Dispatches q.ready s') (hwake : s.wakeOf op = 0) :
      Switches s op q.ready s' := ⟨⟨[],by simpa using hd⟩,hwake⟩
  cases op with
  | retest =>
    cases hp : s.pending with
    | none => exact absurd hp hen
    | some po =>
      obtain ⟨p,o⟩ := po
      have h' : Inv { s with pending := none } q :=
        h.of_eq rfl rfl rfl rfl rfl fun hn => absurd rfl hn
      simp only [OsKernel.Sched.exec,hp] at hop
      obtain hd|rfl := (h'.semaDownLoop_ready p o).of_ok hop
      · exact .inr (hnone hd rfl)
      · exact .inl (hstay (.of_eq rfl rfl rfl rfl) rfl rfl (h.readyList.of_eq rfl rfl))
  | tick =>
    rw [h.tick_eq] at hop
    split at hop
    · have hlink : Linkage s.account q := h.toLinkage.of_eq rfl rfl
      have hrun : (s.account.task s.runningThread).status = .running := by
        simpa [account,setIntr] using h.running
      exact .inr ⟨⟨_,(hlink.schedule h.off_running h.running_mem hrun).of_ok hop⟩,rfl⟩
    · obtain rfl := Except.ok.inj hop
      have hr : ReadyList ((s.account.setTask s.runningThread fun p =>
          { p with ticks := p.ticks-1 }).setIntr true) q.ready := h.readyList.of_eq rfl rfl
      refine .inl ⟨rfl,⟨[],[],hr.pad,rfl⟩,?_⟩
      simp only [account,setIntr,setTask,Function.update_self,tickOf]
      omega
  | intrSetStatus status =>
    obtain rfl := Except.ok.inj hop
    exact .inl (hstay (.of_eq rfl rfl rfl rfl) rfl rfl (h.readyList.of_eq rfl rfl))
  | schedule =>
    exact .inr ⟨⟨_,(h.toLinkage.schedule h.off_running h.running_mem h.running).of_ok hop⟩,rfl⟩
  | threadBlock stat => exact .inr (hnone ((h.toLinkage.threadBlock _ _).of_ok hop) rfl)
  | threadUnblock t =>
    obtain ⟨links,-,hinv⟩ := (h.threadUnblock hen.2.1 hen.2.2).of_ok hop
    have hs := (stays_threadUnblock s t).of_ok hop
    refine .inl ⟨hs.runningThread,⟨[t],[],?_,rfl⟩,hs.same _⟩
    simpa [Queues.setReady] using hinv.readyList
  | semaDown p =>
    have h' : Inv (s.setIntr false) q := h.of_eq rfl rfl rfl rfl rfl fun _ => rfl
    obtain hd|rfl := (h'.semaDownLoop_ready p s.intr).of_ok hop
    · exact .inr (hnone hd rfl)
    · exact .inl (hstay (.of_eq rfl rfl rfl rfl) rfl rfl (h.readyList.of_eq rfl rfl))
  | semaUp p =>
    have hs := (stays_semaUp s p).of_ok hop
    have hr := (h.semaUp_ready p).of_ok hop
    refine .inl ⟨hs.runningThread,?_,hs.same _⟩
    by_cases hempty : s.listEmpty (.waiters p) = true
    · rw [if_pos hempty] at hr
      exact ⟨[],[],hr.pad,by simp [wakeOf,hempty]⟩
    · rw [if_neg hempty] at hr
      obtain ⟨u,hu⟩ := hr
      exact ⟨[u],[],by simpa using hu,by simp [wakeOf,hempty]⟩
  | threadStart t prio =>
    have hne : s.runningThread ≠ t := fun e => hen.2 (e ▸ h.running_mem)
    have hr := (h.enqueue_ready hen.2 prio "thread_start" s.intr).of_ok hop
    obtain ⟨-,links,rfl⟩ := (h.enqueue hen.1 hen.2 prio "thread_start" s.intr).of_ok hop
    refine .inl ⟨rfl,⟨[],[t],hr,rfl⟩,?_⟩
    simp [create,setIntr,hne,tickOf]
  | processExecute t =>
    have hne : s.runningThread ≠ t := fun e => hen.2 (e ▸ h.running_mem)
    obtain ⟨s₁,hs₁,hret⟩ := bind_eq_ok_iff.mp hop
    obtain rfl := Except.ok.inj hret
    have hr := (h.enqueue_ready hen.2 defaultPrio "process_execute" false).of_ok hs₁
    obtain ⟨-,links,rfl⟩ := (h.enqueue hen.1 hen.2 defaultPrio "process_execute" false).of_ok hs₁
    refine .inl ⟨rfl,⟨[],[t],hr.of_eq rfl rfl,rfl⟩,?_⟩
    simp [create,setIntr,hne,tickOf]

/-- What an operation does to the clock, the accounts and the slices. -/
theorem Inv.time (h : Inv s q) (hen : s.Enabled op) (hop : s.exec op = .ok s') :
    tickOf op = 0 ∧ SameTime s s' ∨
    tickOf op = 1 ∧ (SameTime s.account s' ∨ s' = (s.account.setTask s.runningThread fun p =>
      { p with ticks := p.ticks-1 }).setIntr true) ∨
    tickOf op = 0 ∧ ∃ t prio, t ∉ s.created ∧ s'.ticks = s.ticks ∧
      s'.created = s.created ++ [t] ∧
      s'.task = Function.update s.task t (initThread .ready prio) := by
  cases op with
  | retest =>
    cases hp : s.pending with
    | none => exact absurd hp hen
    | some po =>
      obtain ⟨p,o⟩ := po
      simp only [OsKernel.Sched.exec,hp] at hop
      have hs := (sameTime_semaDownLoop _ p o).of_ok hop
      exact .inl ⟨rfl,hs.ticks,hs.elapsed,hs.priority,hs.slice,hs.created⟩
  | tick =>
    rw [h.tick_eq] at hop
    split at hop
    · exact .inr (.inl ⟨rfl,.inl ((sameTime_schedule s.account).of_ok hop)⟩)
    · exact .inr (.inl ⟨rfl,.inr (Except.ok.inj hop).symm⟩)
  | intrSetStatus status =>
    obtain rfl := Except.ok.inj hop
    exact .inl ⟨rfl,.of_eq rfl rfl rfl⟩
  | schedule => exact .inl ⟨rfl,(sameTime_schedule s).of_ok hop⟩
  | threadBlock stat => exact .inl ⟨rfl,(sameTime_threadBlock s _ _).of_ok hop⟩
  | threadUnblock t => exact .inl ⟨rfl,((stays_threadUnblock s t).of_ok hop).toSameTime⟩
  | semaDown p =>
    have hs := (sameTime_semaDownLoop (s.setIntr false) p s.intr).of_ok hop
    exact .inl ⟨rfl,hs.ticks,hs.elapsed,hs.priority,hs.slice,hs.created⟩
  | semaUp p => exact .inl ⟨rfl,((stays_semaUp s p).of_ok hop).toSameTime⟩
  | threadStart t prio =>
    obtain ⟨-,links,rfl⟩ := (h.enqueue hen.1 hen.2 prio "thread_start" s.intr).of_ok hop
    exact .inr (.inr ⟨rfl,t,prio,hen.2,rfl,rfl,rfl⟩)
  | processExecute t =>
    obtain ⟨s₁,hs₁,hret⟩ := bind_eq_ok_iff.mp hop
    obtain rfl := Except.ok.inj hret
    obtain ⟨-,links,rfl⟩ := (h.enqueue hen.1 hen.2 defaultPrio "process_execute" false).of_ok hs₁
    exact .inr (.inr ⟨rfl,t,defaultPrio,hen.2,rfl,rfl,rfl⟩)

end Steps

/-- The slices are 8-bit numbers. -/
def Sliced (s : Sched) : Prop := ∀ t, (s.task t).ticks < 2^8 ∧ (s.task t).priority < 2^8

/-- A run from s in which t never gets the processor, with the numbers of ticks, of switches and
of wake-ups. -/
inductive Waits (t : TaskId) (s : Sched) : ℕ → ℕ → ℕ → Sched → Prop
  | refl (h : s.runningThread ≠ t) : Waits t s 0 0 0 s
  | step {ticks switches wakes s' s''} {op : Op} (h : Waits t s ticks switches wakes s')
    (hen : s'.Enabled op) (hop : s'.exec op = .ok s'') (ht : s''.runningThread ≠ t) :
    Waits t s (ticks+tickOf op)
      (switches+if s''.runningThread = s'.runningThread then 0 else 1)
      (wakes+s'.wakeOf op) s''

/-- The task is ready, and n tasks come before it. -/
def Ahead (s : Sched) (t : TaskId) (n : ℕ) : Prop := ∃ l, ReadyList s l ∧ l[n]? = some t

section Waiting
variable {s s' : Sched} {q : Queues} {op : Op} {t : TaskId} {n : ℕ}

/-- While another task is ready, the running one does not get the processor again. -/
theorem Inv.next_ne (h : Inv s q) {next : TaskId} {back rest : List TaskId}
    (hlt : n < q.ready.length) (hd : q.ready ++ back = next :: rest) : next ≠ s.runningThread := by
  have hmem : next ∈ q.ready := by
    cases hq : q.ready with
    | nil => simp [hq] at hlt
    | cons a b =>
      rw [hq,List.cons_append] at hd
      rw [(List.cons.inj hd).1]
      exact List.mem_cons_self
  exact fun he => h.off_running.1 (he ▸ hmem)

/-- A task moves up by one place with every switch, and down by one with every wake-up. -/
theorem Inv.ahead (h : Inv s q) (hen : s.Enabled op) (hop : s.exec op = .ok s')
    (ha : Ahead s t n) (ht : s'.runningThread ≠ t) : ∃ n', Ahead s' t n' ∧
      n'+(if s'.runningThread = s.runningThread then 0 else 1) = n+s.wakeOf op := by
  obtain ⟨l,hl,hn⟩ := ha
  obtain rfl := hl.eq_of_inv h
  have hlt : n < q.ready.length := (List.getElem?_eq_some_iff.mp hn).1
  obtain ⟨hrun,⟨front,back,hr,hfront⟩,-⟩|⟨⟨back,next,rest,hd,hrun,hr⟩,hwake⟩ := h.effect hen hop
  · refine ⟨front.length+n,⟨_,hr,?_⟩,?_⟩
    · rw [List.append_assoc,List.getElem?_append_right (Nat.le_add_right _ _),
        Nat.add_sub_cancel_left,List.getElem?_append_left hlt,hn]
    · rw [if_pos hrun,hfront]
      omega
  · have hn' : (next :: rest)[n]? = some t := by
      rw [← hd,List.getElem?_append_left hlt,hn]
    cases n with
    | zero =>
      rw [List.getElem?_cons_zero] at hn'
      exact absurd (hrun.trans (Option.some.inj hn')) ht
    | succ n =>
      rw [List.getElem?_cons_succ] at hn'
      have hne : s'.runningThread ≠ s.runningThread := hrun ▸ h.next_ne hlt hd
      refine ⟨n,⟨_,hr,hn'⟩,?_⟩
      rw [if_neg hne,hwake]

theorem Sliced.of_sameTime (h : Sliced s) (hs : SameTime s s') : Sliced s' := by
  intro t
  rw [hs.priority t]
  refine ⟨?_,(h t).2⟩
  obtain he|⟨-,he⟩ := hs.slice t
  · rw [he]
    exact (h t).1
  · rw [he]
    exact (h t).2

theorem Sliced.account (h : Sliced s) : Sliced s.account := by
  intro t
  by_cases ht : t = s.runningThread
  · subst ht
    simpa [OsKernel.Sched.account,setTask,setIntr] using h s.runningThread
  · simpa [OsKernel.Sched.account,setTask,setIntr,ht] using h t

theorem Inv.sliced (h : Inv s q) (hb : Sliced s) (hen : s.Enabled op)
    (hop : s.exec op = .ok s') : Sliced s' := by
  obtain ⟨-,hs⟩|⟨-,hs|rfl⟩|⟨-,t,prio,-,-,-,htask⟩ := h.time hen hop
  · exact hb.of_sameTime hs
  · exact hb.account.of_sameTime hs
  · intro t
    by_cases ht : t = s.runningThread
    · subst ht
      have hself := hb.account s.runningThread
      simp only [setTask,setIntr,Function.update_self]
      exact ⟨(Nat.sub_le _ _).trans_lt hself.1,hself.2⟩
    · simpa [setTask,setIntr,ht] using hb.account t
  · intro u
    rw [htask]
    by_cases hu : u = t
    · subst hu
      rw [Function.update_self]
      exact ⟨Nat.mod_lt _ (by decide),Nat.mod_lt _ (by decide)⟩
    · rw [Function.update_of_ne hu]
      exact hb u

/-- A slice has at most 256 ticks. -/
theorem Inv.ticks_le (h : Inv s q) (hb : Sliced s) (hen : s.Enabled op) (hop : s.exec op = .ok s')
    (ha : Ahead s t n) : (s'.task s'.runningThread).ticks+tickOf op ≤
      (s.task s.runningThread).ticks+256*(if s'.runningThread = s.runningThread then 0 else 1) := by
  have hb' := h.sliced hb hen hop
  have htick : tickOf op ≤ 1 := by cases op <;> simp [tickOf]
  obtain ⟨l,hl,hn⟩ := ha
  obtain rfl := hl.eq_of_inv h
  have hlt : n < q.ready.length := (List.getElem?_eq_some_iff.mp hn).1
  obtain ⟨hrun,-,hslice⟩|⟨⟨back,next,rest,hd,hrun,-⟩,-⟩ := h.effect hen hop
  · rw [if_pos hrun,hrun]
    omega
  · have hne : s'.runningThread ≠ s.runningThread := hrun ▸ h.next_ne hlt hd
    have hnew := (hb' s'.runningThread).1
    rw [if_neg hne]
    omega

theorem Reachable.sliced (h : s.Reachable) : Sliced s := by
  obtain ⟨mainThread,value,hrun⟩ := h
  have hinv {s : Sched} (h : Relation.ReflTransGen Step (threadInit mainThread value) s) :
      ∃ q, Inv s q := Reachable.inv ⟨mainThread,value,h⟩
  induction hrun with
  | refl =>
    intro t
    exact ⟨show 1 % 2^8 < 2^8 by decide,show 1 % 2^8 < 2^8 by decide⟩
  | tail hrun hstep ih =>
    obtain ⟨q,hq⟩ := hinv hrun
    obtain ⟨op,hen,hop⟩ := hstep
    exact hq.sliced ih hen hop

theorem Reachable.step (h : s.Reachable) (hs : Step s s') : s'.Reachable := by
  obtain ⟨mainThread,value,hrun⟩ := h
  exact ⟨mainThread,value,hrun.tail hs⟩

theorem Waits.reachable {ticks switches wakes : ℕ} (hw : Waits t s ticks switches wakes s')
    (h : s.Reachable) : s'.Reachable := by
  induction hw with
  | refl => exact h
  | step _ hen hop _ ih => exact ih.step ⟨_,hen,hop⟩

/-- Bounded waiting. As long as a ready task has not run, its place in the list is known from the
numbers of switches and of wake-ups, and not more than 256 ticks pass for every task that comes
before it. -/
theorem reachable_waits (h : s.Reachable) (ha : Ahead s t n) {ticks switches wakes : ℕ}
    (hw : Waits t s ticks switches wakes s') :
    (∃ n', Ahead s' t n' ∧ n'+switches = n+wakes) ∧ ticks < 256*(n+wakes+1) := by
  have hkey : (∃ n', Ahead s' t n' ∧ n'+switches = n+wakes) ∧
      ticks+(s'.task s'.runningThread).ticks ≤ 255+256*switches := by
    induction hw with
    | refl => exact ⟨⟨n,ha,rfl⟩,Nat.le_of_lt_succ (by simpa using (h.sliced s.runningThread).1)⟩
    | step hw hen hop ht ih =>
      obtain ⟨⟨n',ha',hcount⟩,hticks⟩ := ih
      have hreach := hw.reachable h
      obtain ⟨q,hq⟩ := hreach.inv
      obtain ⟨n'',ha'',hstep⟩ := hq.ahead hen hop ha' ht
      have hle := hq.ticks_le hreach.sliced hen hop ha'
      exact ⟨⟨n'',ha'',by omega⟩,by rw [Nat.mul_add]; omega⟩
  obtain ⟨⟨n',ha',hcount⟩,hticks⟩ := hkey
  exact ⟨⟨n',ha',hcount⟩,by omega⟩

theorem twoTasks_reachable : twoTasks.Reachable := by
  refine ⟨1,fun _ => 1,.single ⟨.threadStart 2 31,?_,rfl⟩⟩
  simp [Enabled,threadInit]

theorem twoTasks_ready : ReadyList twoTasks [2] := by
  refine ((threadInit_inv 1 fun _ => 1).enqueue_ready (t := 2) ?_ 31 "thread_start" false).of_ok rfl
  simp [threadInit]

/-- The thread that main has started waits for less than one slice, until main is preempted. -/
theorem reachable_waits_twoTasks : ∃ s s' : Sched, Waits 2 s 1 0 0 s' ∧ 1 < 256*(0+0+1) := by
  have hon : Step twoTasks (twoTasks.setIntr true) := ⟨.intrSetStatus true,rfl,rfl⟩
  have hahead : Ahead (twoTasks.setIntr true) 2 0 := ⟨[2],twoTasks_ready.of_eq rfl rfl,rfl⟩
  have hstart : Waits 2 (twoTasks.setIntr true) 0 0 0 (twoTasks.setIntr true) := .refl (by decide)
  have hen : (twoTasks.setIntr true).Enabled .tick := ⟨rfl,rfl⟩
  have hwait := hstart.step hen rfl (show (1 : ℕ) ≠ 2 by decide)
  exact ⟨_,_,hwait,(reachable_waits (twoTasks_reachable.step hon) hahead hwait).2⟩

end Waiting

/-! Every tick is charged to the task that has the processor. -/

/-- The ticks that the tasks have been charged for. -/
def charged (s : Sched) : ℕ := (s.created.map fun t => (s.task t).elapsedTicks).sum

section Accounts
variable {s s' : Sched} {q : Queues} {op : Op}

theorem Inv.nodup_created (h : Inv s q) : s.created.Nodup := by
  rw [← h.all_eq]
  exact (h.represents.nodup_list .threadAllList).of_map

/-- One summand grows by one, where all numbers wrap. -/
theorem sum_map_succ_mod {α : Type*} {l : List α} {f f' : α → ℕ} {a : α} {m : ℕ} (hl : l.Nodup)
    (ha : a ∈ l) (hself : f' a % m = (f a+1) % m) (hother : ∀ b, b ≠ a → f' b = f b) :
    (l.map f').sum % m = ((l.map f).sum+1) % m := by
  induction l with
  | nil => exact absurd ha (List.not_mem_nil)
  | cons b l ih =>
    obtain ⟨hb,hl⟩ := List.nodup_cons.mp hl
    simp only [List.map_cons,List.sum_cons]
    by_cases hba : b = a
    · subst hba
      have hrest : l.map f' = l.map f :=
        List.map_congr_left fun c hc => hother c fun he => hb (he ▸ hc)
      rw [hrest,Nat.add_mod,hself,← Nat.add_mod,Nat.add_right_comm]
    · have hmem : a ∈ l := (List.mem_cons.mp ha).resolve_left (Ne.symm hba)
      rw [hother b hba,Nat.add_mod,ih hl hmem,← Nat.add_mod,Nat.add_assoc]

theorem SameTime.charged (h : SameTime s s') : s'.charged = s.charged := by
  unfold OsKernel.Sched.charged
  rw [h.created]
  exact congrArg List.sum (List.map_congr_left fun t _ => h.elapsed t)

theorem Inv.account_charged (h : Inv s q) : s.account.charged % 2^32 = (s.charged+1) % 2^32 := by
  refine sum_map_succ_mod h.nodup_created h.running_mem ?_ fun t ht => ?_
  · simp [account,setIntr]
  · simp [account,setIntr,setTask,ht]

theorem Inv.charged (h : Inv s q) (hen : s.Enabled op) (hop : s.exec op = .ok s')
    (hc : s.charged % 2^32 = s.ticks) : s'.charged % 2^32 = s'.ticks := by
  have haccount : s.account.charged % 2^32 = s.account.ticks := by
    rw [h.account_charged,Nat.add_mod,hc]
    simp [account]
  obtain ⟨-,hs⟩|⟨-,hs|rfl⟩|⟨-,t,prio,ht,hticks,hcreated,htask⟩ := h.time hen hop
  · rw [hs.charged,hs.ticks,hc]
  · rw [hs.charged,hs.ticks,haccount]
  · refine Eq.trans (congrArg (· % 2^32) ?_) haccount
    unfold OsKernel.Sched.charged
    refine congrArg List.sum (List.map_congr_left fun t _ => ?_)
    by_cases ht : t = s.runningThread <;> simp [setTask,setIntr,ht]
  · rw [hticks,← hc]
    unfold OsKernel.Sched.charged
    rw [hcreated,htask,List.map_append,List.sum_append]
    have hrest : ∀ u ∈ s.created, (Function.update s.task t (initThread .ready prio) u).elapsedTicks
        = (s.task u).elapsedTicks := by
      intro u hu
      rw [Function.update_of_ne fun he : u = t => ht (he ▸ hu)]
    rw [List.map_congr_left hrest]
    simp [initThread]

theorem Reachable.charged (h : s.Reachable) : s.charged % 2^32 = s.ticks := by
  obtain ⟨mainThread,value,hrun⟩ := h
  have hinv {s : Sched} (h : Relation.ReflTransGen Step (threadInit mainThread value) s) :
      ∃ q, Inv s q := Reachable.inv ⟨mainThread,value,h⟩
  induction hrun with
  | refl => rfl
  | tail hrun hstep ih =>
    obtain ⟨q,hq⟩ := hinv hrun
    obtain ⟨op,hen,hop⟩ := hstep
    exact hq.charged hen hop ih

/-- The links have the tasks in l on thread_all_list, in this order. -/
def AllList (s : Sched) (l : List TaskId) : Prop :=
  ∃ ls, Represents s.links Node.head Node.tail ls ∧ ls .threadAllList = l.map Node.allListTag

/-- thread_all_list holds every task that was ever created, and the accounts of its members add
up to the clock. -/
theorem reachable_accounts (h : s.Reachable) :
    ∃ all, AllList s all ∧ all = s.created ∧
      (all.map fun t => (s.task t).elapsedTicks).sum % 2^32 = s.ticks := by
  obtain ⟨q,hq⟩ := h.inv
  exact ⟨_,⟨_,hq.represents,rfl⟩,hq.all_eq,hq.all_eq ▸ h.charged⟩

/-- Main and a thread it has started: main is charged for its slice of two ticks, the other one for
the tick that follows. -/
theorem reachable_accounts_twoSlices : ∃ s all, s.Reachable ∧ AllList s all ∧ all = [1,2] ∧
    (s.task 1).elapsedTicks = 2 ∧ (s.task 2).elapsedTicks = 1 ∧
    (all.map fun t => (s.task t).elapsedTicks).sum % 2^32 = s.ticks := by
  have hplay : ∃ s, Script.play perform [.threadStart 2 31,.intrSetStatus true,.tick,.tick,.tick]
      (threadInit 1 fun _ => 1) = some s ∧ s.created = [1,2] ∧ (s.task 1).elapsedTicks = 2 ∧
      (s.task 2).elapsedTicks = 1 := by
    decide +kernel
  obtain ⟨s,hs,hcreated,h₁,h₂⟩ := hplay
  have hreach : s.Reachable := ⟨1,fun _ => 1,Script.play_steps hs perform_step⟩
  obtain ⟨all,hall,heq,hsum⟩ := reachable_accounts hreach
  exact ⟨s,all,hreach,hall,heq.trans hcreated,h₁,h₂,hsum⟩

end Accounts
end OsKernel.Sched

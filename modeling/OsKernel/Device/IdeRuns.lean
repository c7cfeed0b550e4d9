import OsKernel.Device.IdeProtocol

/-! Runs of a channel. Every step keeps the invariant, whichever thread or interrupt takes it, and
the protocol of the disk interrupts follows. -/
namespace OsKernel
open Sched (Inv Switched readyEmpty callerAsserts)

namespace IdeInv
variable {s s' : IdeSys} {own own' : Option TaskId} {ph ph' : IdePhase} {t : TaskId}

/-- A thread that tests disk_done again is the user of the channel. -/
theorem of_pending (h : IdeInv s own ph) {o : Bool}
    (hp : s.sys.sched.pending = some (s.diskDone,o)) :
    s.Inside s.cur ∧ ph = .issued ∧ ∃ ops, s.todo s.cur = .semaDown::ops := by
  obtain ⟨q,hq⟩ := h.lock.sched
  refine h.waits s.cur ⟨hq.running_mem,?_⟩
  rw [if_pos (show s.cur = s.sys.sched.runningThread from rfl)]
  exact ⟨o,hp⟩

theorem not_semaPanic_readyEmpty : ¬ IdeSys.SemaPanic readyEmpty := by
  simp [IdeSys.SemaPanic,readyEmpty]

/-- What a step does to the counters. A command is written when all have been completed, and what
has been recorded stays until it is consumed. -/
structure Counts (s s' : IdeSys) : Prop where
  issued : s'.issued = s.issued ∧ s.consumed ≤ s'.consumed ∨
    s'.issued = s.issued+1 ∧ s.issued = s.consumed ∧ s'.consumed = s.consumed
  kept : s.value = 1 → s'.value = 1 ∨ s'.consumed = s.consumed+1

theorem Counts.of_eq (hi : s'.issued = s.issued) (hc : s'.consumed = s.consumed)
    (hv : s'.value = s.value) : Counts s s' :=
  ⟨.inl ⟨hi,hc.ge⟩,fun h => .inl (hv.trans h)⟩

/-- The step keeps the invariant, for some owner and some phase. -/
def Kept (s s' : IdeSys) : Prop := (∃ own ph, IdeInv s' own ph) ∧ Counts s s'

/-- A sema_down on disk_done that finds a recorded completion takes it. -/
def Takes (s s' : IdeSys) : Prop :=
  s.value = 1 → s'.value = 0 ∧ s'.consumed = s.consumed+1 ∧ s'.cur = s.cur

theorem counts_afterDown {sched : Sched} (h : Takes s (s.afterDown sched)) :
    Counts s (s.afterDown sched) := by
  refine ⟨.inl ?_,fun hv => .inr (h hv).2.1⟩
  unfold IdeSys.afterDown
  split
  · exact ⟨rfl,le_rfl⟩
  · exact ⟨rfl,Nat.le_succ _⟩

/-- sema_down on disk_done, called by the user of the channel. -/
theorem semaDown (h : IdeInv s own .issued) (hp : s.sys.sched.pending = none)
    (hin : s.Inside s.cur) {ops : List IdeOp} (ht : s.todo s.cur = .semaDown::ops) :
    Outcome (s.op .semaDown) (fun s' => Kept s s' ∧ Takes s s') (fun e => e = readyEmpty) := by
  obtain ⟨q,hq⟩ := h.lock.sched
  have hk : Outcome (s.sys.sched.exec (.semaDown s.diskDone))
      (Sched.Keeps s.sys.lock.semaphore s.sys.sched) (fun _ => True) :=
    hq.exec_keeps hp h.apart (by simp [hp])
  refine Outcome.bind (h.down hin ht (hq.of_eq rfl rfl rfl rfl rfl fun _ => rfl :
    Inv (s.sys.sched.setIntr false) q) hp rfl rfl rfl rfl s.sys.sched.intr hk) ?_
  rintro sched ⟨ph',hinv,hone⟩
  exact ⟨⟨⟨own,ph',hinv⟩,counts_afterDown hone⟩,hone⟩

theorem retest (h : IdeInv s own ph) {o : Bool}
    (hp : s.sys.sched.pending = some (s.diskDone,o)) :
    Outcome (s.sys.sched.exec .retest) (fun sched => Kept s (s.afterDown sched))
      (fun e => e = readyEmpty) := by
  obtain ⟨hin,rfl,ops,ht⟩ := h.of_pending hp
  obtain ⟨q,hq⟩ := h.lock.sched
  have hk : Outcome (s.sys.sched.exec .retest)
      (Sched.Keeps s.sys.lock.semaphore s.sys.sched) (fun _ => True) := by
    refine hq.exec_keeps (by simp [Sched.Enabled,hp]) trivial fun o' ho' => ?_
    rw [hp] at ho'
    exact h.apart (Prod.mk.inj (Option.some.inj ho')).1
  simp only [Sched.exec,hp] at hk ⊢
  refine (h.down hin ht (hq.of_eq rfl rfl rfl rfl rfl fun hn => absurd rfl hn :
    Inv { s.sys.sched with pending := none } q) rfl rfl rfl rfl rfl o hk).mono ?_ fun _ he => he
  rintro sched ⟨ph',hinv,hone⟩
  exact ⟨⟨own,ph',hinv⟩,counts_afterDown hone⟩

theorem next_mem {o : IdeOp} {ops : List IdeOp} (ht : s.todo s.cur = o::ops) :
    ∀ o' ∈ s.next.todo s.cur, o' ∈ s.todo s.cur ∨ o'.Tame := by
  intro o' ho'
  rw [next_cur ht] at ho'
  exact .inl (ht ▸ List.mem_cons_of_mem _ ho')

/-- The call of lock_release at the end. -/
theorem release (h : IdeInv s own .idle) (hp : s.sys.sched.pending = none)
    (hin : s.Inside s.cur) {ops : List IdeOp} (ht : s.todo s.cur = .lockRelease::ops)
    (hf : IdePhase.outside.Follows s.channel.regCmd ops) :
    Kept s (s.next.setSys (s.sys.goto .assertHolder)) := by
  have hpos : 0 < s.sys.depth s.cur := by
    rw [hin.2]
    exact Nat.one_pos
  obtain ⟨own',hlock,-⟩ := h.lock.step (.release hp hin.1 hpos)
  have hpc : ((s.sys.goto .assertHolder).pc s.cur).Releasing := by
    rw [IdeSys.cur,LockSys.goto_pc]
    trivial
  have hmoved : IdeInv (s.next.setSys (s.sys.goto .assertHolder)) own' .idle := by
    refine h.moved hlock ⟨rfl,rfl,rfl,rfl⟩ (.inr (.inr (.inr ⟨hpc,hin.2.le,?_⟩)))
      (fun t hne => ⟨Function.update_of_ne hne _ _,rfl,next_others s t hne⟩) (.inl rfl)
      (fun hb => absurd rfl hb) h.channel (fun t hw => ?_) (next_mem ht)
    · exact (next_cur ht).symm ▸ hf
    · exact absurd hw (h.not_waiting hp hin)
  exact ⟨⟨own',.idle,hmoved⟩,.of_eq rfl rfl rfl⟩

/-- The call of lock_acquire at the beginning. -/
theorem acquire (h : IdeInv s own ph) (hp : s.sys.sched.pending = none)
    (hl : s.sys.pc s.cur = .outside) (hd : s.sys.depth s.cur = 0) {ops : List IdeOp}
    (ht : s.todo s.cur = .lockAcquire::ops) (hf : IdePhase.idle.Follows s.channel.regCmd ops) :
    Kept s (s.next.setSys (s.sys.goto .acquireTest)) := by
  have hlt : s.sys.depth s.cur+1 < 2^32 := by
    rw [hd]
    exact Nat.one_lt_two_pow (by decide)
  obtain ⟨own',hlock,-⟩ := h.lock.step (.acquire hp hl hlt)
  have hpc : ((s.sys.goto .acquireTest).pc s.cur).Acquiring := by
    rw [IdeSys.cur,LockSys.goto_pc]
    trivial
  have hpc' : ∀ t, t ≠ s.cur → (s.sys.goto .acquireTest).pc t = s.sys.pc t :=
    fun t hne => Function.update_of_ne hne _ _
  have hne : ∀ t, s.Inside t → t ≠ s.cur := by
    rintro t hin rfl
    exact absurd (hin.2.symm.trans hd) Nat.one_ne_zero
  have hinside : ∀ t, s.Inside t → (s.next.setSys (s.sys.goto .acquireTest)).Inside t :=
    fun t hin => ⟨(hpc' t (hne t hin)).trans hin.1,hin.2⟩
  have hmoved : IdeInv (s.next.setSys (s.sys.goto .acquireTest)) own' ph := by
    refine h.moved hlock ⟨rfl,rfl,rfl,rfl⟩ (.inr (.inr (.inl ⟨hpc,hd,?_⟩)))
      (fun t hne => ⟨hpc' t hne,rfl,next_others s t hne⟩) (.inl rfl) (fun hb => ?_) h.channel
      (fun t hw => ?_) (next_mem ht)
    · exact (next_cur ht).symm ▸ hf
    · obtain ⟨t,hin⟩ := h.busy hb
      exact ⟨t,hinside t hin⟩
    · obtain ⟨hin,hph,ops',ho⟩ := h.waits t hw
      exact ⟨hinside t hin,hph,ops',(next_others s t (hne t hin)).trans ho⟩
  exact ⟨⟨own',ph,hmoved⟩,.of_eq rfl rfl rfl⟩

/-- A write to a port. Only the one to the command register counts. -/
theorem outb (h : IdeInv s own ph) (hp : s.sys.sched.pending = none) (hin : s.Inside s.cur)
    {port : BitVec 16} {data : BitVec 8} {ops : List IdeOp}
    (ht : s.todo s.cur = .outb port data::ops)
    (hafter : ph.after s.channel.regCmd (.outb port data) = some ph')
    (hf : ph'.Follows s.channel.regCmd ops) :
    Outcome (s.op (.outb port data)) (Kept s) (fun _ => False) := by
  rw [IdePhase.after] at hafter
  by_cases hport : port = s.channel.regCmd
  · have hop : s.op (.outb port data) = .ok { s.next with issued := s.issued+1 } :=
      congrArg Except.ok (if_pos hport)
    rw [if_pos hport] at hafter
    split at hafter
    · obtain rfl := Option.some.inj hafter
      subst ph
      obtain ⟨hcomp,hissued⟩ := h.channel
      rw [hop]
      exact ⟨⟨own,.issued,h.goesOn hp hin ht rfl ⟨rfl,rfl,rfl⟩ rfl hf
        ⟨hcomp,congrArg (·+1) hissued⟩⟩,.inr ⟨rfl,hissued,rfl⟩,fun hv => .inl hv⟩
    · cases hafter
  · have hop : s.op (.outb port data) = .ok s.next := congrArg Except.ok (if_neg hport)
    rw [if_neg hport] at hafter
    split at hafter
    · cases hafter
    · obtain rfl := Option.some.inj hafter
      rw [hop]
      exact ⟨⟨own,ph,h.goesOn hp hin ht rfl ⟨rfl,rfl,rfl⟩ rfl hf h.channel⟩,.of_eq rfl rfl rfl⟩

/-- An operation of the user of the channel. -/
theorem op_inside (h : IdeInv s own ph) (hp : s.sys.sched.pending = none) (hin : s.Inside s.cur)
    {o : IdeOp} {ops : List IdeOp} (ht : s.todo s.cur = o::ops) :
    Outcome (s.op o) (Kept s) (fun e => ¬ IdeSys.SemaPanic e) := by
  have htame : o.Tame := h.tame s.cur o (ht ▸ List.mem_cons_self)
  obtain ⟨ph',hafter,hf⟩ := (ht ▸ h.follows hin).cons
  -- an operation that leaves the channel in the same state
  have hsame : some ph = some ph' → Kept s s.next := by
    intro he
    obtain rfl := Option.some.inj he
    exact ⟨⟨own,ph,h.goesOn hp hin ht rfl ⟨rfl,rfl,rfl⟩ rfl hf h.channel⟩,.of_eq rfl rfl rfl⟩
  cases o with
  | check condition e =>
    cases condition with
    | true => exact hsame hafter
    | false => exact htame
  | lockAcquire =>
    rw [IdePhase.after,if_neg h.ph_ne_outside] at hafter
    cases hafter
  | lockRelease =>
    rw [IdePhase.after] at hafter
    split at hafter
    · obtain rfl := Option.some.inj hafter
      subst ph
      exact h.release hp hin ht hf
    · cases hafter
  | outb port data => exact (h.outb hp hin ht hafter hf).mono (fun _ hs => hs) fun _ he => he.elim
  | expectIntr =>
    rw [IdePhase.after] at hafter
    split at hafter
    · obtain rfl := Option.some.inj hafter
      subst ph
      obtain ⟨-,hv,ha,hissued⟩ := h.channel
      exact ⟨⟨own,.expecting,h.goesOn hp hin ht rfl ⟨rfl,rfl,rfl⟩ rfl hf
        ⟨.inl ⟨rfl,hv,ha⟩,hissued⟩⟩,.of_eq rfl rfl rfl⟩
    · cases hafter
  | semaDown =>
    rw [IdePhase.after] at hafter
    split at hafter
    · subst ph
      exact (h.semaDown hp hin ht).mono (fun _ hs => hs.1) fun e he => he ▸ not_semaPanic_readyEmpty
    · cases hafter
  | busyWait e => exact hsame hafter
  | insw port addr wordCnt => exact hsame hafter
  | outsw port addr wordCnt => exact hsame hafter

/-- An operation of a thread that has not taken the lock. -/
theorem op_outside (h : IdeInv s own ph) (hp : s.sys.sched.pending = none)
    (hl : s.sys.pc s.cur = .outside) (hd : s.sys.depth s.cur = 0) {o : IdeOp} {ops : List IdeOp}
    (ht : s.todo s.cur = o::ops) (hf : IdePhase.outside.Follows s.channel.regCmd (o::ops)) :
    Outcome (s.op o) (Kept s) (fun e => ¬ IdeSys.SemaPanic e) := by
  have htame : o.Tame := h.tame s.cur o (ht ▸ List.mem_cons_self)
  obtain ⟨ph',hafter,hf⟩ := hf.cons
  have hsame : some .outside = some ph' → Kept s s.next := by
    intro he
    obtain rfl := Option.some.inj he
    exact ⟨⟨own,ph,h.goesOn_outside hl hd rfl rfl (next_others s) ((next_cur ht).symm ▸ hf)
      (next_mem ht)⟩,.of_eq rfl rfl rfl⟩
  cases o with
  | check condition e =>
    cases condition with
    | true => exact hsame hafter
    | false => exact htame
  | lockAcquire =>
    obtain rfl : .idle = ph' := Option.some.inj hafter
    exact h.acquire hp hl hd ht hf
  | outb port data =>
    rw [IdePhase.after] at hafter
    split at hafter
    · cases hafter
    · have hop : s.op (.outb port data) = .ok s.next := congrArg Except.ok (if_neg ‹_›)
      rw [hop]
      exact hsame hafter
  | lockRelease => cases hafter
  | expectIntr => cases hafter
  | semaDown => cases hafter
  | busyWait e => exact hsame hafter
  | insw port addr wordCnt => exact hsame hafter
  | outsw port addr wordCnt => exact hsame hafter

theorem op (h : IdeInv s own ph) (hp : s.sys.sched.pending = none)
    (hl : s.sys.pc s.cur = .outside) {o : IdeOp} {ops : List IdeOp} (ht : s.todo s.cur = o::ops) :
    Outcome (s.op o) (Kept s) (fun e => ¬ IdeSys.SemaPanic e) := by
  obtain hin | ⟨hd,hf⟩ := h.outside_cases hl
  · exact h.op_inside hp hin ht
  · exact h.op_outside hp hl hd ht (ht ▸ hf)

end IdeInv
end OsKernel

import OsKernel.Device.IdeRuns

/-! No completion of a disk command is lost, and none is consumed twice. -/
namespace OsKernel
open Sched (Inv Switched readyEmpty callerAsserts)

namespace IdeInv
variable {s s' : IdeSys} {own own' : Option TaskId} {ph ph' : IdePhase} {t : TaskId}

theorem channel_setSys (h : IdeInv s own ph) {sys : LockSys}
    (hv : (s.setSys sys).value = s.value) : (s.setSys sys).Channel ph := by
  have hch := h.channel
  unfold IdeSys.Channel IdeSys.Completes at hch ⊢
  rw [hv]
  exact hch

/-- The scheduler has done something that leaves disk_done alone. -/
theorem ofKeeps (h : IdeInv s own ph) {sched : Sched}
    (hlock : LockInv { s.sys with sched := sched } own')
    (hk : Sched.Keeps s.diskDone s.sys.sched sched) : Kept s (s.setSched sched) := by
  have hvalue : (s.setSched sched).value = s.value := hk.value
  exact ⟨⟨own',ph,hlock,h.apart,h.number,h.stage,h.busy,h.channel_setSys hvalue,
    fun t hw => h.waits t ((hk.inSema t).mp hw),h.tame,h.asserts⟩,.of_eq rfl rfl hvalue⟩

/-- The running thread does not test disk_done unless it is in sema_down. -/
theorem pending_ne (h : IdeInv s own ph)
    (hn : ¬ s.Inside s.cur ∨ ∀ ops, s.todo s.cur ≠ .semaDown::ops) (o : Bool) :
    s.sys.sched.pending ≠ some (s.diskDone,o) := by
  intro hp
  obtain ⟨hin,-,ops,ht⟩ := h.of_pending hp
  exact hn.elim (fun hn => hn hin) fun hn => hn ops ht

theorem tick (h : IdeInv s own ph) (hen : s.sys.sched.Enabled .tick) {sched : Sched}
    (hs : s.sys.sched.exec .tick = .ok sched) : Kept s (s.setSched sched) := by
  obtain ⟨q,hq⟩ := h.lock.sched
  obtain ⟨own',hlock,-⟩ := h.lock.step (.tick hen hs)
  exact h.ofKeeps hlock ((hq.exec_keeps hen trivial (by simp [hen.1])).of_ok hs)

theorem kernel (h : IdeInv s own ph) {op : Sched.Op} (hen : s.sys.sched.Enabled op)
    (he : s.Elsewhere ∨ s.InBusyWait) (hl : LockSys.Avoids s.sys.lock.semaphore op)
    (hd : LockSys.Avoids s.diskDone op) {sched : Sched}
    (hs : s.sys.sched.exec op = .ok sched) : Kept s (s.setSched sched) := by
  obtain ⟨q,hq⟩ := h.lock.sched
  have hpc : s.sys.pc s.cur = .outside := he.elim And.right And.right
  have hne : ∀ ops, s.todo s.cur ≠ .semaDown::ops := by
    intro ops ht
    obtain ⟨he,-⟩ | ⟨⟨e,ops',he⟩,-⟩ := he
    · rw [he] at ht
      cases ht
    · rw [he] at ht
      cases ht
  obtain ⟨own',hlock,-⟩ := h.lock.step (.kernel op hen hpc hl hs)
  exact h.ofKeeps hlock ((hq.exec_keeps hen hd fun o => h.pending_ne (.inr hne) o).of_ok hs)

/-- The user of the channel stays inside while another thread is in a lock function. -/
theorem inside_stmt {sys : LockSys} (hs : s.sys.stmt = .ok sys) (hl : s.sys.pc s.cur ≠ .outside)
    (hin : s.Inside t) : t ≠ s.cur ∧ (s.setSys sys).Inside t := by
  have hne : t ≠ s.cur := by
    rintro rfl
    exact hl hin.1
  obtain ⟨hpc,hd,-⟩ := LockSys.stmt_frame hs hne
  exact ⟨hne,hpc.trans hin.1,hd.trans hin.2⟩

theorem lockStmt (h : IdeInv s own ph) {sys : LockSys} (hl : s.sys.pc s.cur ≠ .outside)
    (hp : s.sys.sched.pending = none ∨ s.sys.pc s.cur = .semaDownWait)
    (hs : s.sys.stmt = .ok sys) : Kept s (s.setSys sys) := by
  obtain ⟨own',hlock,-⟩ := (h.lock.stmt hl hp).of_ok hs
  obtain ⟨q,hq⟩ := h.lock.sched
  have hnot : ¬ s.Inside s.cur := fun hin => hl hin.1
  have hk : Sched.Keeps s.diskDone s.sys.sched sys.sched := by
    obtain he | ⟨op,hen,-,hop,hx⟩ := h.lock.stmt_sched hp hs
    · rw [he]
      exact ⟨rfl,fun _ => Iff.rfl⟩
    · exact (hq.exec_keeps hen (hop _ h.apart.symm) (h.pending_ne (.inl hnot))).of_ok hx
  have hsem : sys.lock.semaphore = s.sys.lock.semaphore := by
    obtain ⟨u,hu⟩ := exists_ne s.cur
    exact (LockSys.stmt_frame hs hu).2.2
  have hvalue : (s.setSys sys).value = s.value := hk.value
  have hchannel : (s.setSys sys).Channel ph := h.channel_setSys hvalue
  have hstage : IdeSys.Stage s.channel.regCmd ph (sys.pc s.cur) (sys.depth s.cur)
      (s.todo s.cur) := by
    obtain ⟨ho,-⟩ | ⟨ho,-⟩ | ⟨ha,hd,hf⟩ | ⟨hr,hd,hf⟩ := h.stage s.cur
    · exact absurd ho hl
    · exact absurd ho hl
    · obtain ⟨ho',hd'⟩ | ⟨ha',hd'⟩ := h.lock.stmt_acquiring ha hd hs
      · -- the lock has been taken, so that nobody is inside and the channel is idle
        have hidle : ph = .idle := by
          by_contra hb
          obtain ⟨t,hin⟩ := h.busy hb
          obtain ⟨hne,hin'⟩ := inside_stmt hs hl hin
          have hown := (hlock.owns t).mp (by
            rw [show sys.pc t = .outside from hin'.1]
            exact hin'.2.symm ▸ Nat.one_pos)
          have hcur := (hlock.owns s.cur).mp (by
            rw [show sys.pc s.cur = .outside from ho']
            exact hd'.symm ▸ Nat.one_pos)
          exact hne (Option.some.inj (hown.symm.trans hcur))
        subst hidle
        exact .inr (.inl ⟨ho',hd',hf⟩)
      · exact .inr (.inr (.inl ⟨ha',hd',hf⟩))
    · obtain ⟨ho',hd'⟩ | ⟨hr',hd'⟩ := h.lock.stmt_releasing hr hd hs
      · exact .inl ⟨ho',hd',hf⟩
      · exact .inr (.inr (.inr ⟨hr',hd',hf⟩))
  have hmoved : IdeInv (s.setSys sys) own' ph := by
    refine h.moved hlock ⟨rfl,rfl,hsem,rfl⟩ hstage (fun t ht => ?_) (.inl rfl) (fun hb => ?_)
      hchannel (fun t hw => ?_) fun o ho => .inl ho
    · obtain ⟨hpc,hd,-⟩ := LockSys.stmt_frame hs ht
      exact ⟨hpc,hd,rfl⟩
    · obtain ⟨t,hin⟩ := h.busy hb
      exact ⟨t,(inside_stmt hs hl hin).2⟩
    · obtain ⟨hin,hph,ops,ht⟩ := h.waits t ((hk.inSema t).mp hw)
      exact ⟨(inside_stmt hs hl hin).2,hph,ops,ht⟩
  exact ⟨⟨own',ph,hmoved⟩,.of_eq rfl rfl hvalue⟩

/-- The handler finds the channel of the interrupt. -/
theorem irqNo_cases {n : ℕ} (hn : n < 2) :
    ((ideInit n).irqNo = 0x2e ∨ (ideInit n).irqNo = 0x2f) ∧
    (ideInit ((ideInit n).irqNo-0x20-0xe).toNat).irqNo = (ideInit n).irqNo := by
  interval_cases n
  · decide
  · decide

theorem diskInterrupt_eq (h : IdeInv s own ph) : s.diskInterrupt =
    if s.expectingIntr then
      (s.sys.sched.setIntr false).semaUp s.diskDone >>= fun sched =>
        .ok { s.setSched (sched.setIntr true) with
          expectingIntr := false
          accepted := s.accepted+1 }
    else .ok (s.setSched ((s.sys.sched.setIntr false).setIntr true)) := by
  obtain ⟨h₁,h₂⟩ := irqNo_cases h.number
  unfold IdeSys.diskInterrupt IdeSys.intrHdHandler
  rw [assert_of (show s.channel.irqNo = 0x2e ∨ s.channel.irqNo = 0x2f from h₁),bind_of_ok rfl]
  dsimp only
  rw [assert_of (show (ideInit (s.channel.irqNo-0x20-0xe).toNat).irqNo = s.channel.irqNo from h₂),
    bind_of_ok rfl]
  have hexp : (s.setSched (s.sys.sched.setIntr false)).expectingIntr = s.expectingIntr := rfl
  rw [hexp]
  by_cases he : s.expectingIntr = true
  · rw [if_pos he,if_pos he,bind_assoc]
    rfl
  · rw [if_neg he,if_neg he]
    rfl

theorem spurious (h : IdeInv s own ph) (he : s.expectingIntr = false) (hi : s.Interruptible) :
    s.diskInterrupt = .ok s := by
  have hflag : (s.sys.sched.setIntr false).setIntr true = s.sys.sched := by
    have hintr := hi.2.2
    unfold Sched.setIntr
    rw [← hintr]
  rw [h.diskInterrupt_eq,he,hflag]
  rfl

/-- While an interrupt is expected, none is recorded, and the next one fits the phase. -/
theorem accepts (h : IdeInv s own ph) (he : s.expectingIntr = true) : s.value = 0 ∧
    ∀ s' : IdeSys, s'.expectingIntr = false → s'.value = 1 → s'.accepted = s.accepted+1 →
      s'.consumed = s.consumed → s'.issued = s.issued → s'.Channel ph := by
  have hcomp : s.Completes → s.value = 0 ∧ ∀ s' : IdeSys, s'.expectingIntr = false →
      s'.value = 1 → s'.accepted = s.accepted+1 → s'.consumed = s.consumed → s'.Completes := by
    rintro (⟨-,hv,ha⟩ | ⟨hf,-⟩)
    · refine ⟨hv,fun s' he' hv' ha' hc' => .inr ⟨he',hv',?_⟩⟩
      rw [ha',ha,hc']
    · exact absurd (hf.symm.trans he) Bool.false_ne_true
  have hchannel := h.channel
  cases ph with
  | outside => exact hchannel.elim
  | idle => exact absurd (hchannel.1.symm.trans he) Bool.false_ne_true
  | expecting =>
    obtain ⟨hv,hnext⟩ := hcomp hchannel.1
    refine ⟨hv,fun s' he' hv' ha' hc' hi' => ⟨hnext s' he' hv' ha' hc',?_⟩⟩
    rw [hi',hc']
    exact hchannel.2
  | issued =>
    obtain ⟨hv,hnext⟩ := hcomp hchannel.1
    refine ⟨hv,fun s' he' hv' ha' hc' hi' => ⟨hnext s' he' hv' ha' hc',?_⟩⟩
    rw [hi',hc']
    exact hchannel.2

/-- Only the user of the channel sleeps in sema_down on disk_done. -/
theorem waiting_inside (h : IdeInv s own ph) (hw : s.Waiting t) : s.Inside t := by
  obtain ⟨q,hq⟩ := h.lock.sched
  obtain ⟨hmem,hblocked,o,ho⟩ := hw
  have hne : t ≠ s.sys.sched.runningThread := by
    rintro rfl
    rw [hq.running] at hblocked
    cases hblocked
  exact (h.waits t ⟨hmem,by rw [if_neg hne]; exact ⟨o,ho⟩⟩).1

/-- An expected interrupt is recorded, and the thread that waits for it becomes ready. -/
theorem expected (h : IdeInv s own ph) (he : s.expectingIntr = true) (hi : s.Interruptible) :
    ∃ s', s.diskInterrupt = .ok s' ∧ Kept s s' ∧ s'.value = 1 ∧ s'.accepted = s.accepted+1 ∧
      s'.expectingIntr = false ∧ ∀ t, s.Waiting t → (s'.sys.sched.task t).status = .ready := by
  obtain ⟨q,hq⟩ := h.lock.sched
  obtain ⟨-,hpend,hintr⟩ := hi
  obtain ⟨hzero,haccept⟩ := h.accepts he
  have hq₀ : Inv (s.sys.sched.setIntr false) q := hq.of_eq rfl rfl rfl rfl rfl fun _ => rfl
  rw [h.diskInterrupt_eq,if_pos he]
  cases hx : (s.sys.sched.setIntr false).semaUp s.diskDone with
  | error e => exact absurd hzero ((hq₀.semaUp s.diskDone).of_error hx).2
  | ok sched =>
    obtain ⟨⟨q',hq'⟩,hu⟩ := (hq₀.semaUp s.diskDone).of_ok hx
    have hpend' : sched.pending = none := hu.pending.trans hpend
    have hinv : Inv (sched.setIntr true) q' :=
      hq'.of_eq rfl rfl rfl rfl rfl fun hn => absurd hpend' hn
    have hlockValue : sched.value s.sys.lock.semaphore =
        s.sys.sched.value s.sys.lock.semaphore := by
      rw [hu.value,Function.update_of_ne h.apart.symm]
      rfl
    have hkeep : Sched.Keeps s.sys.lock.semaphore s.sys.sched (sched.setIntr true) :=
      .of_eq hlockValue hu.resume hu.created hu.runningThread hu.pending
    have hone : sched.value s.diskDone = 1 := by
      rw [hu.value,Function.update_self]
    have hsema : ∀ t, (sched.setIntr true).InSema s.diskDone t →
        s.sys.sched.InSema s.diskDone t := by
      intro t hw
      unfold Sched.InSema Sched.setIntr at hw
      rw [hu.created,hu.runningThread,hu.pending,hu.resume] at hw
      exact hw
    refine ⟨_,rfl,⟨⟨own,ph,h.lock.ofKeeps ⟨q',hinv⟩ hkeep,h.apart,h.number,h.stage,h.busy,
      haccept _ rfl hone rfl rfl rfl,fun t hw => h.waits t (hsema t hw),h.tame,h.asserts⟩,
      .inl ⟨rfl,le_rfl⟩,fun _ => .inl hone⟩,hone,rfl,rfl,fun t hw => ?_⟩
    -- the waiters list holds the user of the channel only
    have hmem : t ∈ q.waiters s.diskDone := (hq.waiters_iff t _).mpr hw
    obtain ⟨hnil,-⟩ | ⟨u,l,hl,htask⟩ := (hq₀.semaUp_task s.diskDone).of_ok hx
    · rw [hnil] at hmem
      cases hmem
    · have hwu : s.Waiting u := (hq.waiters_iff u _).mp (hl ▸ List.mem_cons_self)
      obtain rfl := h.inside_unique (h.waiting_inside hw) (h.waiting_inside hwu)
      change (sched.task t).status = .ready
      rw [htask,Function.update_self]

/-- An interrupt of the disk never fails. -/
theorem disk (h : IdeInv s own ph) (hi : s.Interruptible) :
    Outcome s.diskInterrupt (Kept s) (fun _ => False) := by
  cases he : s.expectingIntr with
  | false =>
    rw [h.spurious he hi]
    exact ⟨⟨own,ph,h⟩,.of_eq rfl rfl rfl⟩
  | true =>
    obtain ⟨s',hs,hkept,-⟩ := h.expected he hi
    rw [hs]
    exact hkept

theorem halt (h : IdeInv s own ph) {e : Panic} (he : ¬ IdeSys.SemaPanic e) :
    Kept s { s with halted := some e } := by
  refine ⟨⟨own,ph,h.lock,h.apart,h.number,h.stage,h.busy,h.channel,h.waits,h.tame,?_⟩,
    .of_eq rfl rfl rfl⟩
  rintro e' he'
  exact Option.some.inj he' ▸ he

/-- A call starts outside of the lock. -/
theorem call (h : IdeInv s own ph) (he : s.Elsewhere) {ops : List IdeOp}
    (hops : IdeSys.Call s.channel ops) :
    Kept s { s with todo := Function.update s.todo s.cur ops } := by
  have hself : Function.update s.todo s.cur ops s.cur = ops := Function.update_self _ _ _
  have hd : s.sys.depth s.cur = 0 := by
    obtain hin | ⟨hd,-⟩ := h.outside_cases he.2
    · have hf := h.follows hin
      rw [he.1] at hf
      exact absurd (IdePhase.follows_nil hf) h.ph_ne_outside
    · exact hd
  refine ⟨⟨own,ph,h.goesOn_outside he.2 hd rfl rfl (fun t ht => Function.update_of_ne ht _ _) ?_
    fun o ho => .inr ?_⟩,.of_eq rfl rfl rfl⟩
  · change IdePhase.outside.Follows s.channel.regCmd (Function.update s.todo s.cur ops s.cur)
    rw [hself]
    exact hops.follows
  · change o ∈ Function.update s.todo s.cur ops s.cur at ho
    rw [hself] at ho
    exact hops.tame o ho

/-- One step preserves the invariant. -/
theorem step (h : IdeInv s own ph) (hs : s.Step s') : Kept s s' := by
  cases hs with
  | call hh hp he hops => exact h.call he hops
  | op hh hp hl ht hs => exact (h.op hp hl ht).of_ok hs
  | opFails hh hp hl ht hs => exact h.halt ((h.op hp hl ht).of_error hs)
  | @notReady e ops hh hp hl ht =>
    have htame : (IdeOp.busyWait e).Tame := h.tame s.cur _ (ht ▸ List.mem_cons_self)
    exact h.halt htame
  | retest hh hp hs => exact (h.retest hp).of_ok hs
  | retestFails hh hp hs =>
    have he := (h.retest hp).of_error hs
    exact h.halt (he ▸ not_semaPanic_readyEmpty)
  | lock hh hl hp hs => exact h.lockStmt hl hp hs
  | lockFails hh hl hp hs =>
    have he := (h.lock.stmt hl hp).of_error hs
    exact h.halt (he ▸ not_semaPanic_readyEmpty)
  | tick hh hen hs => exact h.tick hen hs
  | disk hi hs => exact (h.disk hi).of_ok hs
  | diskFails hi hs => exact ((h.disk hi).of_error hs).elim
  | kernel op hh hen he hl hd hs => exact h.kernel hen he hl hd hs

theorem init (mainThread : TaskId) (value : SemaphoreId → ℕ) {psema diskDone : SemaphoreId}
    {channelNo : ℕ} (hne : diskDone ≠ psema) (hn : channelNo < 2) :
    IdeInv (IdeSys.init mainThread value psema diskDone channelNo) none .idle := by
  have hzero : (IdeSys.init mainThread value psema diskDone channelNo).value = 0 := by
    simp [IdeSys.value,IdeSys.init,LockSys.init,Sched.threadInit,hne]
  refine ⟨.init mainThread _ psema,hne,hn,fun t => .inl ⟨rfl,rfl,rfl⟩,fun hb => absurd rfl hb,
    ⟨rfl,hzero,rfl,rfl⟩,fun t hw => ?_,fun t o ho => ?_,fun e he => ?_⟩
  · simp [Sched.InSema,IdeSys.init,LockSys.init,Sched.threadInit] at hw
  · cases ho
  · cases he

end IdeInv

namespace IdeSys
variable {s s' : IdeSys}

theorem Reachable.inv (h : s.Reachable) : ∃ own ph, IdeInv s own ph := by
  obtain ⟨mainThread,value,psema,diskDone,channelNo,hne,hn,hrun⟩ := h
  induction hrun with
  | refl => exact ⟨none,.idle,.init mainThread value hne hn⟩
  | tail _ hstep ih =>
    obtain ⟨own,ph,hinv⟩ := ih
    exact (hinv.step hstep).1

theorem Reachable.tail (h : s.Reachable) (hs : s.Step s') : s'.Reachable := by
  obtain ⟨mainThread,value,psema,diskDone,channelNo,hne,hn,hrun⟩ := h
  exact ⟨mainThread,value,psema,diskDone,channelNo,hne,hn,hrun.tail hs⟩

theorem Reachable.run (h : s.Reachable) (hs : Relation.ReflTransGen Step s s') : s'.Reachable := by
  induction hs with
  | refl => exact h
  | tail _ hstep ih => exact ih.tail hstep

/-- A command is written only when all before it have been completed and consumed. -/
theorem Reachable.issues (h : s.Reachable) (hs : s.Issues s') :
    s.issued = s.consumed ∧ s'.consumed = s.consumed := by
  obtain ⟨own,ph,hinv⟩ := h.inv
  obtain ⟨hi,-⟩ | ⟨-,hc⟩ := (hinv.step hs.1).2.issued
  · have hlt := hs.2
    omega
  · exact hc

/-- A sema_down that finds a recorded completion takes it and does not block. -/
theorem taken (hv : s.value = 1) : ∃ s', s.op .semaDown = .ok s' ∧ s'.value = 0 ∧
    s'.consumed = s.consumed+1 ∧ s'.cur = s.cur := by
  have hval : (s.sys.sched.setIntr false).value s.diskDone = 1 := hv
  have hdown : s.sys.sched.semaDown s.diskDone =
      .ok { s.sys.sched with value := Function.update s.sys.sched.value s.diskDone 0 } := by
    unfold Sched.semaDown Sched.semaDownLoop
    rw [if_neg (by rw [hval]; exact Nat.one_ne_zero),hval]
    simp only [Function.update_self,Nat.sub_self]
    rw [assert_of trivial,bind_of_ok rfl]
    rfl
  have hafter : ∀ sched, s.afterDown sched =
      { s.next.setSched sched with consumed := s.consumed+1 } := by
    intro sched
    unfold afterDown
    rw [if_neg (by rw [hv]; exact Nat.one_ne_zero)]
  refine ⟨{ s.next.setSched { s.sys.sched with
    value := Function.update s.sys.sched.value s.diskDone 0 } with
    consumed := s.consumed+1 },?_,Function.update_self _ _ _,rfl,rfl⟩
  unfold op
  rw [hdown,bind_of_ok rfl,hafter]

/-- In every reachable state, the protocol of the disk interrupts holds. -/
theorem reachable_protocol (h : s.Reachable) : s.Protocol := by
  obtain ⟨own,ph,hinv⟩ := h.inv
  have hvalue : (s.value = 0 ∨ s.value = 1) ∧ s.accepted = s.consumed+s.value := by
    have hcomp : s.Completes → (s.value = 0 ∨ s.value = 1) ∧ s.accepted = s.consumed+s.value := by
      rintro (⟨-,hv,ha⟩ | ⟨-,hv,ha⟩)
      · exact ⟨.inl hv,by rw [hv,ha,Nat.add_zero]⟩
      · exact ⟨.inr hv,by rw [hv,ha]⟩
    have hchannel := hinv.channel
    cases ph with
    | outside => exact hchannel.elim
    | idle =>
      obtain ⟨-,hv,ha,-⟩ := hchannel
      exact ⟨.inl hv,by rw [hv,ha,Nat.add_zero]⟩
    | expecting => exact hcomp hchannel.1
    | issued => exact hcomp hchannel.1
  refine ⟨hvalue.1,hinv.asserts,hvalue.2,?_,fun he hi => hinv.spurious he hi,fun he hi => ?_,
    fun s' hs hv => (hinv.step hs).2.kept hv,fun hv hp => ?_⟩
  · intro s₁ s₂ s₃ h₁ hrun hi h₃
    obtain ⟨hc,hc₁⟩ := h.issues h₁
    have hc₂ := (((h.tail h₁.1).run hrun).issues h₃).1
    have hi₁ := h₁.2
    omega
  · obtain ⟨s',hs,-,hrest⟩ := hinv.expected he hi
    exact ⟨s',hs,hrest⟩
  · exact taken hv

/-! Runs that are written down. -/

/-- The steps of a run that its conditions determine. -/
inductive Move
  | read (hd : Disk) (lba secCnt : BitVec 32)
  | write (hd : Disk) (lba secCnt : BitVec 32)
  /-- The running thread, which is in a call, goes on. -/
  | go
  | retest
  | tick
  | disk
  | kernel (op : Sched.Op)

instance : Decidable s.Elsewhere := inferInstanceAs (Decidable (_ ∧ _))

instance : Decidable s.Interruptible := inferInstanceAs (Decidable (_ ∧ _ ∧ _))

/-- The running thread calls a function of the driver. -/
def enter (s : IdeSys) (hd : Disk) (ops : List IdeOp) : Option IdeSys :=
  if s.halted = none ∧ s.sys.sched.pending = none ∧ s.Elsewhere ∧ hd.myChannel = s.channel then
    some { s with todo := Function.update s.todo s.cur ops }
  else none

/-- The running thread executes its next statement. -/
def advance (s : IdeSys) : Option IdeSys :=
  if s.sys.pc s.cur = .outside then
    match s.todo s.cur with
    | [] => none
    | o::_ => if s.sys.sched.pending = none then (s.op o).toOption else none
  else (s.sys.moved .go).map s.setSys

/-- The running thread tests disk_done again. -/
def testAgain (s : IdeSys) : Option IdeSys :=
  match s.sys.sched.pending with
  | some (psema,_) =>
    if psema = s.diskDone then (s.sys.sched.perform .retest).map s.afterDown else none
  | none => none

/-- The state after a move, if the move is possible. -/
def moved (s : IdeSys) : Move → Option IdeSys
  | .read hd lba secCnt => s.enter hd (ideRead (fun _ => 256*secCnt) hd lba 0 secCnt 2)
  | .write hd lba secCnt => s.enter hd (ideWrite hd lba 0 secCnt 2)
  | .go => if s.halted = none then s.advance else none
  | .retest => if s.halted = none then s.testAgain else none
  | .tick => if s.halted = none then (s.sys.sched.perform .tick).map s.setSched else none
  | .disk => if s.Interruptible then s.diskInterrupt.toOption else none
  | .kernel op =>
    if s.halted = none ∧ s.Elsewhere ∧ LockSys.Avoids s.sys.lock.semaphore op ∧
        LockSys.Avoids s.diskDone op then
      (s.sys.sched.perform op).map s.setSched
    else none

theorem enter_step {hd : Disk} {ops : List IdeOp} (h : s.enter hd ops = some s')
    (hops : hd.myChannel = s.channel → Call s.channel ops) : s.Step s' := by
  obtain ⟨⟨hh,hp,he,hc⟩,h⟩ := Option.ite_none_right_eq_some.mp h
  exact Option.some.inj h ▸ .call hh hp he (hops hc)

theorem advance_step (hh : s.halted = none) (h : s.advance = some s') : s.Step s' := by
  unfold advance at h
  split at h
  · split at h
    · cases h
    · obtain ⟨hp,h⟩ := Option.ite_none_right_eq_some.mp h
      exact .op hh hp ‹_› ‹_› (eq_ok_of_toOption h)
  · obtain ⟨sys,hs,rfl⟩ := Option.map_eq_some_iff.mp h
    obtain ⟨hl,hp,hs⟩ := LockSys.moved_go hs
    exact .lock hh hl hp hs

theorem testAgain_step (hh : s.halted = none) (h : s.testAgain = some s') : s.Step s' := by
  unfold testAgain at h
  split at h
  · obtain ⟨hpsema,hsched⟩ := Option.ite_none_right_eq_some.mp h
    obtain ⟨sched,hs,rfl⟩ := Option.map_eq_some_iff.mp hsched
    subst hpsema
    exact .retest hh ‹_› (Sched.perform_eq_some hs).2
  · cases h

theorem moved_step {m : Move} (h : s.moved m = some s') : s.Step s' := by
  cases m with
  | read hd lba secCnt => exact enter_step h fun hc => .read _ hd hc lba 0 secCnt 2
  | write hd lba secCnt => exact enter_step h fun hc => .write hd hc lba 0 secCnt 2
  | go =>
    obtain ⟨hh,h⟩ := Option.ite_none_right_eq_some.mp h
    exact advance_step hh h
  | retest =>
    obtain ⟨hh,h⟩ := Option.ite_none_right_eq_some.mp h
    exact testAgain_step hh h
  | tick =>
    obtain ⟨hh,h⟩ := Option.ite_none_right_eq_some.mp h
    obtain ⟨sched,hs,rfl⟩ := Option.map_eq_some_iff.mp h
    obtain ⟨hen,hx⟩ := Sched.perform_eq_some hs
    exact .tick hh hen.enabled hx
  | disk =>
    obtain ⟨hi,h⟩ := Option.ite_none_right_eq_some.mp h
    exact .disk hi (eq_ok_of_toOption h)
  | kernel op =>
    obtain ⟨⟨hh,he,hl,hd⟩,h⟩ := Option.ite_none_right_eq_some.mp h
    obtain ⟨sched,hs,rfl⟩ := Option.map_eq_some_iff.mp h
    obtain ⟨hen,hx⟩ := Sched.perform_eq_some hs
    exact .kernel op hh hen.enabled (.inl he) hl hd hx

/-- The first disk of the first channel. -/
def sda : Disk := ⟨"sda",⟨0x1f0,0x2e⟩,0⟩

/-- Main starts thread 2 and writes a sector. The disk interrupts before the command, which changes
nothing, and again when the command has been written, before main comes to sema_down. -/
def written : List Move :=
  [.kernel (.threadStart 2 1),.kernel (.intrSetStatus true),.disk,.write sda 0 1] ++
    List.replicate 17 .go ++ [.disk]

/-- Main finds the completion, and its call ends. It reads the sector and sleeps in sema_down. -/
def slept : List Move := List.replicate 10 .go ++ [.read sda 0 1] ++ List.replicate 18 .go

/-- The disk interrupts while thread 2 runs; main is ready again, and consumes the completion. -/
def woken : List Move := [.disk,.tick,.tick,.retest]

/-- The completion of the first command is recorded until main consumes it. Main sleeps until that
of the second one, which wakes it, and consumes it too. -/
theorem reachable_protocol_twice : ∃ s s' s'' : IdeSys, s.Protocol ∧ s'.Protocol ∧ s''.Protocol ∧
    (s.issued = 1 ∧ s.accepted = 1 ∧ s.consumed = 0) ∧
    (s'.issued = 2 ∧ s'.accepted = 1 ∧ s'.consumed = 1 ∧ s'.Waiting 1) ∧
    s''.issued = 2 ∧ s''.accepted = 2 ∧ s''.consumed = 2 := by
  have hplay : ∃ s, Script.play moved written (init 1 (fun _ => 1) 7 8 0) = some s ∧
      (s.issued = 1 ∧ s.accepted = 1 ∧ s.consumed = 0) ∧
      ∃ s', Script.play moved slept s = some s' ∧
        (s'.issued = 2 ∧ s'.accepted = 1 ∧ s'.consumed = 1 ∧ 1 ∈ s'.sys.sched.created ∧
          (s'.sys.sched.task 1).status = .blocked ∧
          s'.sys.sched.resume 1 = .semaDown s'.diskDone true) ∧
        ∃ s'', Script.play moved woken s' = some s'' ∧
          s''.issued = 2 ∧ s''.accepted = 2 ∧ s''.consumed = 2 := by
    decide +kernel
  obtain ⟨s,hs,h,s',hs',⟨hissued,haccepted,hconsumed,hmem,hblocked,hresume⟩,s'',hs'',h''⟩ := hplay
  have hreach : s.Reachable :=
    ⟨1,fun _ => 1,7,8,0,by decide,by decide,Script.play_steps hs moved_step⟩
  have hreach' := hreach.run (Script.play_steps hs' moved_step)
  have hreach'' := hreach'.run (Script.play_steps hs'' moved_step)
  exact ⟨s,s',s'',reachable_protocol hreach,reachable_protocol hreach',reachable_protocol hreach'',
    h,⟨hissued,haccepted,hconsumed,hmem,hblocked,true,hresume⟩,h''⟩

end IdeSys
end OsKernel

import OsKernel.Device.IdePhases
import OsKernel.Thread.LockCalls

/-! The protocol of the disk interrupts. The lock keeps all threads but one away from the channel,
and the phase of that thread determines the flag and the value of disk_done. -/
namespace OsKernel
open Sched (Inv Switched readyEmpty callerAsserts)

namespace IdeSys

/-- Either no interrupt has come since the flag was set, or one has come and is recorded. -/
def Completes (s : IdeSys) : Prop :=
  s.expectingIntr = true ∧ s.value = 0 ∧ s.accepted = s.consumed ∨
    s.expectingIntr = false ∧ s.value = 1 ∧ s.accepted = s.consumed+1

/-- The channel in a phase of its user. -/
def Channel (s : IdeSys) : IdePhase → Prop
  | .outside => False
  | .idle =>
    s.expectingIntr = false ∧ s.value = 0 ∧ s.accepted = s.consumed ∧ s.issued = s.consumed
  | .expecting => s.Completes ∧ s.issued = s.consumed
  | .issued => s.Completes ∧ s.issued = s.consumed+1

/-- Where a thread may be in the lock functions, given what is left of its call. -/
def Stage (cmdPort : BitVec 16) (ph : IdePhase) (lpc : LockPc) (depth : ℕ) (ops : List IdeOp) :
    Prop :=
  lpc = .outside ∧ depth = 0 ∧ IdePhase.outside.Follows cmdPort ops ∨
  lpc = .outside ∧ depth = 1 ∧ ph.Follows cmdPort ops ∨
  lpc.Acquiring ∧ depth = 0 ∧ IdePhase.idle.Follows cmdPort ops ∨
  lpc.Releasing ∧ depth ≤ 1 ∧ IdePhase.outside.Follows cmdPort ops

/-- The thread uses the channel. -/
def Inside (s : IdeSys) (t : TaskId) : Prop := s.sys.pc t = .outside ∧ s.sys.depth t = 1

end IdeSys

/-- The invariant of a channel. -/
structure IdeInv (s : IdeSys) (own : Option TaskId) (ph : IdePhase) : Prop where
  lock : LockInv s.sys own
  apart : s.diskDone ≠ s.sys.lock.semaphore
  number : s.channelNo < 2
  stage : ∀ t, IdeSys.Stage s.channel.regCmd ph (s.sys.pc t) (s.sys.depth t) (s.todo t)
  busy : ph ≠ .idle → ∃ t, s.Inside t
  channel : s.Channel ph
  waits : ∀ t, s.sys.sched.InSema s.diskDone t →
    s.Inside t ∧ ph = .issued ∧ ∃ ops, s.todo t = .semaDown::ops
  tame : ∀ t, ∀ o ∈ s.todo t, o.Tame
  asserts : ∀ e, s.halted = some e → ¬ IdeSys.SemaPanic e

namespace IdeInv
variable {s s' : IdeSys} {own own' : Option TaskId} {ph ph' : IdePhase} {t u : TaskId}

theorem inside_own (h : IdeInv s own ph) (ht : s.Inside t) : own = some t :=
  (h.lock.owns t).mp (by simp [ht.1,LockPc.Owns,ht.2])

theorem inside_unique (h : IdeInv s own ph) (ht : s.Inside t) (hu : s.Inside u) : t = u :=
  Option.some.inj ((h.inside_own ht).symm.trans (h.inside_own hu))

/-- A thread outside the lock functions and inside the channel follows the phase. -/
theorem follows (h : IdeInv s own ph) (ht : s.Inside t) :
    ph.Follows s.channel.regCmd (s.todo t) := by
  obtain ⟨-,hd,-⟩ | ⟨-,-,hf⟩ | ⟨ha,-,-⟩ | ⟨hr,-,-⟩ := h.stage t
  · rw [ht.2] at hd
    contradiction
  · exact hf
  · rw [ht.1] at ha
    exact ha.elim
  · rw [ht.1] at hr
    exact hr.elim

/-- A thread in no lock function uses the channel, or has not taken the lock. -/
theorem outside_cases (h : IdeInv s own ph) (hl : s.sys.pc t = .outside) :
    s.Inside t ∨ s.sys.depth t = 0 ∧ IdePhase.outside.Follows s.channel.regCmd (s.todo t) := by
  obtain ⟨-,hd,hf⟩ | ⟨-,hd,-⟩ | ⟨ha,-,-⟩ | ⟨hr,-,-⟩ := h.stage t
  · exact .inr ⟨hd,hf⟩
  · exact .inl ⟨hl,hd⟩
  · rw [hl] at ha
    exact ha.elim
  · rw [hl] at hr
    exact hr.elim

theorem ph_ne_outside (h : IdeInv s own ph) : ph ≠ .outside := by
  rintro rfl
  exact h.channel

/-- The running thread moves on, and the others stay where they are. Only the user of the channel
changes its phase. -/
theorem moved (h : IdeInv s own ph) (hlock : LockInv s'.sys own')
    (hsame : s'.diskDone = s.diskDone ∧ s'.channelNo = s.channelNo ∧
      s'.sys.lock.semaphore = s.sys.lock.semaphore ∧ s'.halted = s.halted)
    (hstage : IdeSys.Stage s.channel.regCmd ph' (s'.sys.pc s.cur) (s'.sys.depth s.cur)
      (s'.todo s.cur))
    (hothers : ∀ t, t ≠ s.cur → s'.sys.pc t = s.sys.pc t ∧ s'.sys.depth t = s.sys.depth t ∧
      s'.todo t = s.todo t)
    (hph : ph' = ph ∨ s.Inside s.cur)
    (hbusy : ph' ≠ .idle → ∃ t, s'.Inside t) (hchannel : s'.Channel ph')
    (hwaits : ∀ t, s'.sys.sched.InSema s.diskDone t →
      s'.Inside t ∧ ph' = .issued ∧ ∃ ops, s'.todo t = .semaDown::ops)
    (htodo : ∀ o ∈ s'.todo s.cur, o ∈ s.todo s.cur ∨ o.Tame) : IdeInv s' own' ph' := by
  obtain ⟨hdone,hno,hsem,hhalt⟩ := hsame
  have hport : s'.channel = s.channel := congrArg ideInit hno
  refine ⟨hlock,by rw [hdone,hsem]; exact h.apart,by rw [hno]; exact h.number,fun t => ?_,hbusy,
    hchannel,by rw [hdone]; exact hwaits,fun t o ho => ?_,by rw [hhalt]; exact h.asserts⟩
  · rw [hport]
    by_cases ht : t = s.cur
    · subst ht
      exact hstage
    · obtain ⟨hpc,hd,ho⟩ := hothers t ht
      rw [hpc,hd,ho]
      obtain rfl | hin := hph
      · exact h.stage t
      · -- nobody else is inside, so that the new phase concerns nobody else
        obtain h₁ | ⟨hl,hd₁,-⟩ | h₃ | h₄ := h.stage t
        · exact .inl h₁
        · exact absurd (h.inside_unique ⟨hl,hd₁⟩ hin) ht
        · exact .inr (.inr (.inl h₃))
        · exact .inr (.inr (.inr h₄))
  · by_cases ht : t = s.cur
    · subst ht
      exact (htodo o ho).elim (h.tame _ o) id
    · rw [(hothers t ht).2.2] at ho
      exact h.tame t o ho

/-- While the running thread waits for nothing, nobody else waits for the disk unless the channel
is in use by somebody else. -/
theorem not_waiting (h : IdeInv s own ph) (hp : s.sys.sched.pending = none)
    (hin : s.Inside s.cur) : ¬ s.sys.sched.InSema s.diskDone t := by
  intro ht
  obtain rfl := h.inside_unique (h.waits t ht).1 hin
  obtain ⟨-,hpend⟩ := ht
  rw [if_pos (show s.cur = s.sys.sched.runningThread from rfl),hp] at hpend
  obtain ⟨o,ho⟩ := hpend
  cases ho

theorem next_others (s : IdeSys) (t : TaskId) (ht : t ≠ s.cur) : s.next.todo t = s.todo t :=
  Function.update_of_ne ht _ _

theorem next_cur {o : IdeOp} {ops : List IdeOp} (ht : s.todo s.cur = o::ops) :
    s.next.todo s.cur = ops := by
  simp [IdeSys.next,ht]

/-- The user of the channel goes on with an operation that leaves the scheduler alone. -/
theorem goesOn (h : IdeInv s own ph) (hp : s.sys.sched.pending = none) (hin : s.Inside s.cur)
    {o : IdeOp} {ops : List IdeOp} (ht : s.todo s.cur = o::ops) (hsys : s'.sys = s.sys)
    (hsame : s'.diskDone = s.diskDone ∧ s'.channelNo = s.channelNo ∧ s'.halted = s.halted)
    (htodo : s'.todo = s.next.todo) (hf : ph'.Follows s.channel.regCmd ops)
    (hchannel : s'.Channel ph') : IdeInv s' own ph' := by
  refine h.moved (hsys ▸ h.lock) ⟨hsame.1,hsame.2.1,by rw [hsys],hsame.2.2⟩ ?_ (fun t hne => ?_)
    (.inr hin) (fun _ => ⟨s.cur,?_⟩) hchannel (fun t hw => ?_) fun o' ho' => ?_
  · rw [hsys,htodo,next_cur ht]
    exact .inr (.inl ⟨hin.1,hin.2,hf⟩)
  · rw [hsys,htodo]
    exact ⟨rfl,rfl,next_others s t hne⟩
  · rw [IdeSys.Inside,hsys]
    exact hin
  · rw [hsys] at hw
    exact absurd hw (h.not_waiting hp hin)
  · rw [htodo,next_cur ht] at ho'
    exact .inl (ht ▸ List.mem_cons_of_mem _ ho')

/-- A thread that has not taken the lock goes on. -/
theorem goesOn_outside (h : IdeInv s own ph) (hl : s.sys.pc s.cur = .outside)
    (hd : s.sys.depth s.cur = 0) (hsys : s'.sys = s.sys)
    (hsame : s' = { s with todo := s'.todo })
    (hothers : ∀ t, t ≠ s.cur → s'.todo t = s.todo t)
    (hf : IdePhase.outside.Follows s.channel.regCmd (s'.todo s.cur))
    (htodo : ∀ o ∈ s'.todo s.cur, o ∈ s.todo s.cur ∨ o.Tame) : IdeInv s' own ph := by
  have hchannel : s'.Channel ph := by
    rw [hsame]
    exact h.channel
  have hinside : ∀ t, s'.Inside t ↔ s.Inside t := by
    intro t
    unfold IdeSys.Inside
    rw [hsys]
  have hfields : s'.diskDone = s.diskDone ∧ s'.channelNo = s.channelNo ∧ s'.halted = s.halted := by
    rw [hsame]
    exact ⟨rfl,rfl,rfl⟩
  refine h.moved (hsys ▸ h.lock) ⟨hfields.1,hfields.2.1,by rw [hsys],hfields.2.2⟩ ?_
    (fun t ht => ?_) (.inl rfl) (fun hb => ?_) hchannel (fun t hw => ?_) htodo
  · rw [hsys]
    exact .inl ⟨hl,hd,hf⟩
  · rw [hsys]
    exact ⟨rfl,rfl,hothers t ht⟩
  · obtain ⟨t,ht⟩ := h.busy hb
    exact ⟨t,(hinside t).mpr ht⟩
  · rw [hsys] at hw
    obtain ⟨hin,hph,ops,ho⟩ := h.waits t hw
    have hne : t ≠ s.cur := by
      rintro rfl
      exact absurd (hin.2.symm.trans hd) Nat.one_ne_zero
    exact ⟨(hinside t).mpr hin,hph,ops,(hothers t hne).trans ho⟩

/-- The loop of sema_down on disk_done consumes the completion, or suspends the thread. -/
theorem down (h : IdeInv s own .issued) (hin : s.Inside s.cur) {ops : List IdeOp}
    (ht : s.todo s.cur = .semaDown::ops) {s₀ : Sched} {q : Sched.Queues} (h₀ : Inv s₀ q)
    (hp : s₀.pending = none) (hv : s₀.value = s.sys.sched.value)
    (hr : s₀.resume = s.sys.sched.resume) (hc : s₀.created = s.sys.sched.created)
    (hcur : s₀.runningThread = s.sys.sched.runningThread) (o : Bool)
    (hk : Outcome (s₀.semaDownLoop s.diskDone o)
      (Sched.Keeps s.sys.lock.semaphore s.sys.sched) (fun _ => True)) :
    Outcome (s₀.semaDownLoop s.diskDone o) (fun sched => ∃ ph', IdeInv (s.afterDown sched) own ph' ∧
        (s.value = 1 → (s.afterDown sched).value = 0 ∧
          (s.afterDown sched).consumed = s.consumed+1 ∧ (s.afterDown sched).cur = s.cur))
      (fun e => e = readyEmpty) := by
  have hbefore : ∀ t, t ≠ s.sys.sched.runningThread → t ∈ s.sys.sched.created →
      (∃ o, s.sys.sched.resume t = .semaDown s.diskDone o) → s.Inside t := by
    intro t hne hmem hres
    exact (h.waits t ⟨hmem,by rwa [if_neg hne]⟩).1
  refine ((h₀.semaDownLoop hp s.diskDone o).conj hk).mono ?_ ?_
  · rintro sched ⟨⟨hq,⟨hv₀,hs,-⟩ | ⟨hv₁,rfl⟩⟩,hkeep⟩
    · rw [hv] at hv₀
      have hzero : s.value = 0 := hv₀
      have hafter : s.afterDown sched = s.setSched sched := if_pos hzero
      have hvalue : (s.setSched sched).value = s.value := congrFun (hs.value.trans hv) _
      rw [hafter]
      refine ⟨.issued,⟨h.lock.ofKeeps hq hkeep,h.apart,h.number,h.stage,h.busy,?_,fun t hw => ?_,
        h.tame,h.asserts⟩,fun hone => absurd (hzero.symm.trans hone) Nat.zero_ne_one⟩
      · have hch := h.channel
        unfold IdeSys.Channel IdeSys.Completes at hch ⊢
        rw [hvalue]
        exact hch
      · obtain ⟨hmem,hw⟩ := (hs.inSema t).mp hw
        rw [hcur,hr] at hw
        rw [hc] at hmem
        have hcase : s.Inside t := by
          by_cases hne : t = s.sys.sched.runningThread
          · rw [hne]
            exact hin
          · rw [if_neg hne] at hw
            exact hbefore t hne hmem hw
        obtain rfl := h.inside_unique hcase hin
        exact ⟨hin,rfl,ops,ht⟩
    · rw [hv] at hv₁
      have hone : s.value = 1 := hv₁
      have hafter : ∀ sched, s.afterDown sched =
          { s.next.setSched sched with consumed := s.consumed+1 } := fun sched =>
        if_neg (by rw [hone]; exact Nat.one_ne_zero)
      have hsem : ({ s₀ with
          intr := o
          value := Function.update s₀.value s.diskDone 0 } : Sched).runningThread =
          s.sys.sched.runningThread := hcur
      generalize hsched : ({ s₀ with
        intr := o
        value := Function.update s₀.value s.diskDone 0 } : Sched) = sched at hq hkeep hsem
      have hval : sched.value s.diskDone = 0 := by
        rw [← hsched]
        exact Function.update_self _ _ _
      have hnew : sched.pending = none ∧ sched.resume = s₀.resume ∧
          sched.created = s₀.created := by
        rw [← hsched]
        exact ⟨hp,rfl,rfl⟩
      rw [hafter]
      refine ⟨.idle,?_,fun _ => ⟨hval,rfl,hsem⟩⟩
      obtain ⟨ph',hph',hf⟩ := (ht ▸ h.follows hin).cons
      obtain rfl : .idle = ph' := Option.some.inj hph'
      refine h.moved (h.lock.ofKeeps hq hkeep) ⟨rfl,rfl,rfl,rfl⟩ ?_
        (fun t hne => ⟨rfl,rfl,next_others s t hne⟩) (.inr hin) (fun hb => absurd rfl hb) ?_
        (fun t hw => ?_) fun o' ho' => ?_
      · have htodo := next_cur ht
        exact .inr (.inl ⟨hin.1,hin.2,htodo.symm ▸ hf⟩)
      · obtain ⟨hcomp,hissued⟩ := h.channel
        obtain ⟨-,hz,-⟩ | ⟨he,-,ha⟩ := hcomp
        · exact absurd (hz.symm.trans hone) Nat.zero_ne_one
        · exact ⟨he,hval,ha,hissued⟩
      · obtain ⟨hmem,hw⟩ := hw
        change if t = sched.runningThread then ∃ o, sched.pending = some (s.diskDone,o)
          else ∃ o, sched.resume t = .semaDown s.diskDone o at hw
        change t ∈ sched.created at hmem
        rw [hsem,hnew.1,hnew.2.1,hr] at hw
        rw [hnew.2.2,hc] at hmem
        by_cases hne : t = s.sys.sched.runningThread
        · rw [if_pos hne] at hw
          obtain ⟨o',ho'⟩ := hw
          cases ho'
        · rw [if_neg hne] at hw
          exact absurd (h.inside_unique (hbefore t hne hmem hw) hin) hne
      · have htodo := next_cur ht
        change o' ∈ s.next.todo s.cur at ho'
        rw [htodo] at ho'
        exact .inl (ht ▸ List.mem_cons_of_mem _ ho')
  · rintro e ⟨⟨-,hlt⟩ | ⟨-,he,-⟩,-⟩
    · rw [hv] at hlt
      have hlt' : 1 < s.value := hlt
      obtain ⟨⟨-,hz,-⟩ | ⟨-,hz,-⟩,-⟩ := h.channel
      · omega
      · omega
    · exact he

end IdeInv
end OsKernel

import OsKernel.Device.Console
import OsKernel.Print.Convention

/-! What the screen shows while any number of threads print: whole texts, one after the other. -/
namespace OsKernel
open Routine

namespace ConsolePhase

/-- Where the thread is in the lock functions. -/
def Fits (pc : LockPc) (depth : ℕ) : ConsolePhase → Prop
  | .outside => pc = .outside ∧ depth = 0
  | .acquiring _ => pc.Acquiring ∧ depth = 0
  | .printing _ => pc = .outside ∧ depth = 1
  | .printed => pc = .outside ∧ depth = 1
  | .releasing => pc.Releasing ∧ depth ≤ 1

end ConsolePhase

/-- The invariant, for runs that start with a display. What the printing thread has left to do
completes the text of the log. -/
structure ConsoleInv (display : Display) (s : ConsoleSys) (own : Option TaskId) : Prop where
  lock : LockInv s.sys own
  fits : ∀ t, (s.phase t).Fits (s.sys.pc t) (s.sys.depth t)
  asked : ∀ t, s.asked t = s.served t ++ s.waiting t
  apart : ∀ x, X86.Span s.link.putIntBuffer 8 x → ¬InVideo x
  between : (∀ t pc, s.phase t ≠ .printing pc) → display.Prints s.text s.display
  printing : ∀ t pc, s.phase t = .printing pc →
    ∀ d, Runs (printAccess s.link) (some pc) s.display none d → display.Prints s.text d

namespace ConsoleInv
variable {display : Display} {s : ConsoleSys} {own : Option TaskId} {t : TaskId} {sys : LockSys}

/-- A thread that has the lock keeps all others out. -/
theorem inside_own (h : ConsoleInv display s own) (ht : 0 < s.sys.depth t) : own = some t :=
  (h.lock.owns t).mp (h.lock.owns_of_inside ht)

theorem depth_pos (h : ConsoleInv display s own) (ht : s.Printing t) : 0 < s.sys.depth t := by
  have hfits := h.fits t
  obtain ⟨pc,ht⟩|ht := ht
  · rw [ht] at hfits
    exact hfits.2 ▸ Nat.one_pos
  · rw [ht] at hfits
    exact hfits.2 ▸ Nat.one_pos

theorem unique (h : ConsoleInv display s own) (ht : s.Printing t) {u : TaskId}
    (hu : s.Printing u) : t = u :=
  Option.some.inj ((h.inside_own (h.depth_pos ht)).symm.trans (h.inside_own (h.depth_pos hu)))

/-- The scheduler acts. -/
theorem sched (h : ConsoleInv display s own) {sched : Sched} {own' : Option TaskId}
    (hlock : LockInv { s.sys with sched := sched } own') :
    ConsoleInv display { s with sys := { s.sys with sched := sched } } own' :=
  ⟨hlock,h.fits,h.asked,h.apart,h.between,h.printing⟩

theorem interrupt (h : ConsoleInv display s own) {sched : Sched} {op : Sched.Op}
    (hw : ConsoleSys.Wakes op) (hen : s.sys.sched.Enabled op)
    (hop : LockSys.Avoids s.sys.lock.semaphore op) (hs : s.sys.sched.exec op = .ok sched) :
    ConsoleInv display { s with sys := { s.sys with sched := sched } } own := by
  obtain ⟨q,hq⟩ := h.lock.sched
  have hpend : s.sys.sched.pending = none := by
    cases op with
    | threadUnblock => exact hen.1
    | semaUp => exact hen
    | _ => exact hw.elim
  have hkeeps := (hq.exec_keeps hen hop (by simp [hpend])).of_ok hs
  exact h.sched (h.lock.ofKeeps ((hq.exec hen).of_ok hs) hkeeps)

/-- The running thread moves on without printing. -/
theorem moved (h : ConsoleInv display s own) {s' : ConsoleSys} {own' : Option TaskId}
    (hlock : LockInv s'.sys own')
    (hsame : s'.display = s.display ∧ s'.link = s.link ∧ s'.log = s.log)
    (hothers : ∀ t, t ≠ s.cur → s'.phase t = s.phase t ∧ s'.sys.pc t = s.sys.pc t ∧
      s'.sys.depth t = s.sys.depth t ∧ s'.asked t = s.asked t)
    (hfits : (s'.phase s.cur).Fits (s'.sys.pc s.cur) (s'.sys.depth s.cur))
    (hasked : s'.asked s.cur = s.served s.cur ++ s'.waiting s.cur)
    (hold : ∀ pc, s.phase s.cur ≠ .printing pc)
    (hnew : ∀ pc, s'.phase s.cur ≠ .printing pc) : ConsoleInv display s' own' := by
  obtain ⟨hdisplay,hlink,hlog⟩ := hsame
  have htext : s'.text = s.text := by
    unfold ConsoleSys.text
    rw [hlog]
  have hserved : ∀ t, s'.served t = s.served t := by
    intro t
    unfold ConsoleSys.served
    rw [hlog]
  refine ⟨hlock,fun t => ?_,fun t => ?_,?_,fun hno => ?_,fun t pc ht => ?_⟩
  · by_cases ht : t = s.cur
    · exact ht ▸ hfits
    · obtain ⟨h₁,h₂,h₃,-⟩ := hothers t ht
      rw [h₁,h₂,h₃]
      exact h.fits t
  · rw [hserved]
    by_cases ht : t = s.cur
    · exact ht ▸ hasked
    · obtain ⟨h₁,-,-,h₄⟩ := hothers t ht
      have hwaiting : s'.waiting t = s.waiting t := by
        unfold ConsoleSys.waiting
        rw [h₁]
      rw [h₄,hwaiting]
      exact h.asked t
  · rw [hlink]
    exact h.apart
  · rw [htext,hdisplay]
    refine h.between fun t pc ht => ?_
    by_cases hc : t = s.cur
    · exact hold pc (hc ▸ ht)
    · exact hno t pc ((hothers t hc).1.trans ht)
  · have hne : t ≠ s.cur := by
      rintro rfl
      exact hnew pc ht
    rw [htext,hdisplay,hlink]
    exact h.printing t pc ((hothers t hne).1.symm.trans ht)

theorem setPhase_others (s : ConsoleSys) (ph : ConsolePhase) {t : TaskId} (ht : t ≠ s.cur) :
    (s.setPhase ph).phase t = s.phase t := Function.update_of_ne ht _ _

theorem setPhase_cur (s : ConsoleSys) (ph : ConsolePhase) : (s.setPhase ph).phase s.cur = ph :=
  Function.update_self _ _ _

theorem goto_others (s : LockSys) (p : LockPc) {t : TaskId} (ht : t ≠ s.sched.runningThread) :
    (s.goto p).pc t = s.pc t := Function.update_of_ne ht _ _

/-- A thread calls a console function. -/
theorem call (h : ConsoleInv display s own) (call : PrintCall) (hp : s.sys.sched.pending = none)
    (hph : s.phase s.cur = .outside) : ∃ own', ConsoleInv display { s.setPhase (.acquiring call) with
      sys := s.sys.goto .acquireTest
      asked := Function.update s.asked s.cur (s.asked s.cur ++ [call]) } own' := by
  have hfits := h.fits s.cur
  rw [hph] at hfits
  obtain ⟨hpc,hd⟩ := hfits
  have hd' : s.sys.depth s.cur+1 < 2^32 := by
    rw [hd]
    decide
  obtain ⟨own',hlock,-⟩ := h.lock.step (.acquire hp hpc hd')
  refine ⟨own',h.moved hlock ⟨rfl,rfl,rfl⟩ (fun t ht => ?_) ?_ ?_ (by simp [hph]) ?_⟩
  · exact ⟨setPhase_others s _ ht,goto_others s.sys _ ht,rfl,Function.update_of_ne ht _ _⟩
  · rw [setPhase_cur]
    exact ⟨by rw [ConsoleSys.cur,LockSys.goto_pc]; trivial,hd⟩
  · have hold := h.asked s.cur
    rw [ConsoleSys.waiting,hph] at hold
    replace hold : s.asked s.cur = s.served s.cur := hold.trans (List.append_nil _)
    change Function.update s.asked s.cur _ s.cur = _ ++ ((s.setPhase _).phase s.cur).waiting
    rw [setPhase_cur,Function.update_self,hold]
    rfl
  · intro pc
    rw [setPhase_cur]
    exact ConsolePhase.noConfusion

/-- A statement of lock_acquire. -/
theorem acquire (h : ConsoleInv display s own) {call : PrintCall}
    (hph : s.phase s.cur = .acquiring call)
    (hp : s.sys.sched.pending = none ∨ s.sys.pc s.cur = .semaDownWait)
    (hs : s.sys.stmt = .ok sys) : ∃ own', ConsoleInv display (s.acquired call sys) own' := by
  have hfits := h.fits s.cur
  rw [hph] at hfits
  obtain ⟨hpc,hd⟩ := hfits
  have hpc' : s.sys.pc s.cur ≠ .outside := by
    intro he
    rw [he] at hpc
    exact hpc
  have hframe {t : TaskId} (ht : t ≠ s.cur) := LockSys.stmt_frame hs ht
  obtain ⟨own',hlock,-⟩ := h.lock.step (.stmt hpc' hp hs)
  refine ⟨own',?_⟩
  unfold ConsoleSys.acquired
  obtain ⟨hout,hone⟩|⟨hacq,hzero⟩ := h.lock.stmt_acquiring hpc hd hs
  · have hout' : sys.pc s.cur = .outside := hout
    rw [if_pos hout']
    have hown : own' = some s.cur :=
      (hlock.owns _).mp (hlock.owns_of_inside (show 0 < sys.depth s.cur from hone ▸ Nat.one_pos))
    -- whoever prints would have the lock too
    have hno : ∀ t pc, s.phase t ≠ .printing pc := by
      intro t pc ht
      have hne : t ≠ s.cur := by
        rintro rfl
        simp [hph] at ht
      have hdepth := h.depth_pos (.inl ⟨pc,ht⟩)
      rw [← (hframe hne).2.1] at hdepth
      have hown' : own' = some t := (hlock.owns _).mp (hlock.owns_of_inside hdepth)
      exact hne (Option.some.inj (hown'.symm.trans hown))
    have htext : ∀ d, display.Prints (s.text ++ call.text) d → display.Prints
        ((s.log ++ [(s.cur,call)]).flatMap fun e => e.2.text) d := by
      intro d hd
      simpa [ConsoleSys.text] using hd
    refine ⟨hlock,fun t => ?_,fun t => ?_,h.apart,fun hnone => ?_,fun t pc ht d hr => ?_⟩
    · by_cases ht : t = s.cur
      · subst ht
        rw [setPhase_cur]
        exact ⟨hout,hone⟩
      · change (((s.setPhase _).phase t).Fits (sys.pc t) (sys.depth t))
        rw [setPhase_others s _ ht,(hframe ht).1,(hframe ht).2.1]
        exact h.fits t
    · have hold := h.asked t
      by_cases ht : t = s.cur
      · subst ht
        rw [ConsoleSys.waiting,hph] at hold
        change s.asked s.cur = _ ++ ((s.setPhase _).phase s.cur).waiting
        rw [setPhase_cur,hold]
        simp [ConsoleSys.served,ConsolePhase.waiting]
      · change s.asked t = _ ++ ((s.setPhase _).phase t).waiting
        rw [setPhase_others s _ ht,hold]
        simp [ConsoleSys.served,ConsoleSys.waiting,Ne.symm ht]
    · exact absurd (setPhase_cur s (.printing call.start)) (hnone s.cur call.start)
    · obtain rfl : t = s.cur := by
        by_contra hne
        exact hno t pc ((setPhase_others s _ hne).symm.trans ht)
      obtain rfl : call.start = pc :=
        ConsolePhase.printing.inj ((setPhase_cur s _).symm.trans ht)
      exact htext d ((h.between hno).trans ((print_ends h.apart call).of_returns hr))
  · have hout' : ¬sys.pc s.cur = .outside := by
      intro he
      have hacq' : (sys.pc s.cur).Acquiring := hacq
      rw [he] at hacq'
      exact hacq'
    rw [if_neg hout']
    refine h.moved hlock ⟨rfl,rfl,rfl⟩ (fun t ht => ?_) ?_ (h.asked s.cur) (by simp [hph])
      (by simp [hph])
    · exact ⟨rfl,(hframe ht).1,(hframe ht).2.1,rfl⟩
    · change (s.phase s.cur).Fits _ _
      rw [hph]
      exact ⟨hacq,hzero⟩

/-- An access of a print routine. -/
theorem print (h : ConsoleInv display s own) {pc : PrintPc} {d : Display} {o : Option PrintPc}
    (hph : s.phase s.cur = .printing pc) (hs : printAccess s.link pc s.display = .ok (d,o)) :
    ConsoleInv display { s.setPhase (o.elim .printed .printing) with display := d } own := by
  have hfits := h.fits s.cur
  rw [hph] at hfits
  have hothers {t : TaskId} (ht : t ≠ s.cur) (pc' : PrintPc) : s.phase t ≠ .printing pc' :=
    fun he => ht (h.unique (.inl ⟨pc',he⟩) (.inl ⟨pc,hph⟩))
  refine ⟨h.lock,fun t => ?_,fun t => ?_,h.apart,fun hno => ?_,fun t pc' ht d' hr => ?_⟩
  · by_cases ht : t = s.cur
    · subst ht
      rw [setPhase_cur]
      cases o <;> exact hfits
    · change (((s.setPhase _).phase t).Fits (s.sys.pc t) (s.sys.depth t))
      rw [setPhase_others s _ ht]
      exact h.fits t
  · have hold := h.asked t
    by_cases ht : t = s.cur
    · subst ht
      rw [ConsoleSys.waiting,hph] at hold
      change s.asked s.cur = s.served s.cur ++ ((s.setPhase _).phase s.cur).waiting
      rw [setPhase_cur]
      cases o <;> exact hold
    · change s.asked t = s.served t ++ ((s.setPhase _).phase t).waiting
      rw [setPhase_others s _ ht]
      exact hold
  · cases o with
    | none => exact h.printing s.cur pc hph d (.single hs)
    | some pc' => exact absurd (setPhase_cur s (.printing pc')) (hno s.cur pc')
  · obtain rfl : t = s.cur := by
      by_contra hne
      exact hothers hne pc' ((setPhase_others s _ hne).symm.trans ht)
    cases o with
    | none => exact absurd ((setPhase_cur s .printed).symm.trans ht) ConsolePhase.noConfusion
    | some pc₁ =>
      obtain rfl : pc₁ = pc' := ConsolePhase.printing.inj ((setPhase_cur s _).symm.trans ht)
      exact h.printing s.cur pc hph d' (.step hs hr)

/-- A thread that has printed its text calls console_release. -/
theorem release (h : ConsoleInv display s own) (hph : s.phase s.cur = .printed)
    (hp : s.sys.sched.pending = none) : ∃ own', ConsoleInv display { s.setPhase .releasing with
      sys := s.sys.goto .assertHolder } own' := by
  have hfits := h.fits s.cur
  rw [hph] at hfits
  obtain ⟨hpc,hd⟩ := hfits
  have hd' : 0 < s.sys.depth s.cur := hd ▸ Nat.one_pos
  obtain ⟨own',hlock,-⟩ := h.lock.step (.release hp hpc hd')
  refine ⟨own',h.moved hlock ⟨rfl,rfl,rfl⟩ (fun t ht => ?_) ?_ ?_ (by simp [hph]) ?_⟩
  · exact ⟨setPhase_others s _ ht,goto_others s.sys _ ht,rfl,rfl⟩
  · rw [setPhase_cur]
    exact ⟨by rw [ConsoleSys.cur,LockSys.goto_pc]; trivial,hd.le⟩
  · have hold := h.asked s.cur
    rw [ConsoleSys.waiting,hph] at hold
    change s.asked s.cur = s.served s.cur ++ ((s.setPhase _).phase s.cur).waiting
    rw [setPhase_cur]
    exact hold
  · intro pc
    rw [setPhase_cur]
    exact ConsolePhase.noConfusion

/-- A statement of lock_release. -/
theorem releaseStmt (h : ConsoleInv display s own) (hph : s.phase s.cur = .releasing)
    (hp : s.sys.sched.pending = none ∨ s.sys.pc s.cur = .semaDownWait)
    (hs : s.sys.stmt = .ok sys) : ∃ own', ConsoleInv display (s.released sys) own' := by
  have hfits := h.fits s.cur
  rw [hph] at hfits
  obtain ⟨hpc,hd⟩ := hfits
  have hpc' : s.sys.pc s.cur ≠ .outside := by
    intro he
    rw [he] at hpc
    exact hpc
  have hframe {t : TaskId} (ht : t ≠ s.cur) := LockSys.stmt_frame hs ht
  have hold := h.asked s.cur
  rw [ConsoleSys.waiting,hph] at hold
  obtain ⟨own',hlock,-⟩ := h.lock.step (.stmt hpc' hp hs)
  refine ⟨own',?_⟩
  unfold ConsoleSys.released
  obtain ⟨hout,hzero⟩|⟨hrel,hone⟩ := h.lock.stmt_releasing hpc hd hs
  · have hout' : sys.pc s.cur = .outside := hout
    rw [if_pos hout']
    refine h.moved hlock ⟨rfl,rfl,rfl⟩ (fun t ht => ?_) ?_ ?_ (by simp [hph]) ?_
    · exact ⟨setPhase_others s _ ht,(hframe ht).1,(hframe ht).2.1,rfl⟩
    · rw [setPhase_cur]
      exact ⟨hout,hzero⟩
    · change s.asked s.cur = s.served s.cur ++ ((s.setPhase _).phase s.cur).waiting
      rw [setPhase_cur]
      exact hold
    · intro pc
      rw [setPhase_cur]
      exact ConsolePhase.noConfusion
  · have hout' : ¬sys.pc s.cur = .outside := by
      intro he
      have hrel' : (sys.pc s.cur).Releasing := hrel
      rw [he] at hrel'
      exact hrel'
    rw [if_neg hout']
    refine h.moved hlock ⟨rfl,rfl,rfl⟩ (fun t ht => ?_) ?_ (h.asked s.cur) (by simp [hph])
      (by simp [hph])
    · exact ⟨rfl,(hframe ht).1,(hframe ht).2.1,rfl⟩
    · change (s.phase s.cur).Fits _ _
      rw [hph]
      exact ⟨hrel,hone⟩

/-- One step preserves the invariant. -/
theorem step (h : ConsoleInv display s own) {s' : ConsoleSys} (hs : s.Step s') :
    ∃ own', ConsoleInv display s' own' := by
  cases hs with
  | call c hp hph => exact h.call c hp hph
  | acquire hph hp hs => exact h.acquire hph hp hs
  | print hph hp hs => exact ⟨own,h.print hph hs⟩
  | release hph hp => exact h.release hph hp
  | releaseStmt hph hp hs => exact h.releaseStmt hph hp hs
  | tick hen hs =>
    obtain ⟨own',hlock,-⟩ := h.lock.step (.tick hen hs)
    exact ⟨own',h.sched hlock⟩
  | kernel op hph hen hop hs =>
    have hfits := h.fits s.cur
    rw [hph] at hfits
    obtain ⟨own',hlock,-⟩ := h.lock.step (.kernel op hen hfits.1 hop hs)
    exact ⟨own',h.sched hlock⟩
  | interrupt op hw hi hen hop hs => exact ⟨own,h.interrupt hw hen hop hs⟩

theorem init {link : Link} (hb : ∀ x, X86.Span link.putIntBuffer 8 x → ¬InVideo x)
    (mainThread : TaskId) (value : SemaphoreId → ℕ) (psema : SemaphoreId) :
    ConsoleInv display (ConsoleSys.init mainThread value psema link display) none :=
  ⟨.init mainThread value psema,fun _ => ⟨rfl,rfl⟩,fun _ => rfl,hb,fun _ => .refl display,
    fun _ _ ht => ConsolePhase.noConfusion ht⟩

end ConsoleInv

theorem ConsoleSys.Reachable.inv {display : Display} {s : ConsoleSys} (h : s.Reachable display) :
    ∃ own, ConsoleInv display s own := by
  obtain ⟨mainThread,value,psema,link,hb,hrun⟩ := h
  induction hrun with
  | refl => exact ⟨none,.init hb mainThread value psema⟩
  | tail _ hstep ih =>
    obtain ⟨own,hown⟩ := ih
    exact hown.step hstep

/-- The display shows a terminal. -/
structure Display.Shows (d : Display) (t : Terminal) : Prop where
  cells : ShowsCells d.mem t
  cursor : d.vga.cursor.toNat = t.cursor.val

theorem Display.Prints.shows {d d' : Display} {t : Terminal} {cs : List (BitVec 8)}
    (h : d.Prints cs d') (hd : d.Shows t) (ht : t.Tame cs) : d'.Shows (t.run cs) := by
  obtain ⟨hcells,hcursor⟩ := hd.cells.run hd.cursor ht
  refine ⟨hcells.congr h.text,?_⟩
  rw [h.cursor]
  exact hcursor

/-- The console, in every reachable state and for any number of threads. Only one thread prints.
Whenever none does, the screen is that of a terminal that has got the whole texts of the calls in
the order in which they got the lock, and what a printing thread has left to do completes its text
in the same way. The calls of a thread get the lock in their order, and none is lost or printed
twice. -/
theorem ConsoleSys.reachable_whole {display : Display} {s : ConsoleSys} (h : s.Reachable display) :
    (∀ t u, s.Printing t → s.Printing u → t = u) ∧
    ((∀ t pc, s.phase t ≠ .printing pc) → display.Prints s.text s.display ∧
      ∀ t : Terminal, display.Shows t → t.Tame s.text → s.display.Shows (t.run s.text)) ∧
    (∀ t pc, s.phase t = .printing pc →
      ∀ d, Runs (printAccess s.link) (some pc) s.display none d → display.Prints s.text d) ∧
    ∀ t, s.asked t = s.served t ++ s.waiting t := by
  obtain ⟨own,hown⟩ := h.inv
  refine ⟨fun t u ht hu => hown.unique ht hu,fun hno => ?_,hown.printing,hown.asked⟩
  exact ⟨hown.between hno,fun t hshow htame => (hown.between hno).shows hshow htame⟩

namespace ConsoleSys

/-- What happens next in a run that is written down. -/
inductive Move
  | call (call : PrintCall)
  /-- The next statement or access of the running thread. -/
  | go
  | tick
  | kernel (op : Sched.Op)

/-- The next statement or access of a console function. -/
def advance (s : ConsoleSys) : Option ConsoleSys :=
  match s.phase s.cur with
  | .outside => none
  | .acquiring call => (s.sys.moved .go).map (s.acquired call)
  | .printing pc =>
    if s.sys.sched.pending = none then
      (printAccess s.link pc s.display).toOption.map fun x =>
        { s.setPhase (x.2.elim .printed .printing) with display := x.1 }
    else none
  | .printed =>
    if s.sys.sched.pending = none then
      some { s.setPhase .releasing with sys := s.sys.goto .assertHolder }
    else none
  | .releasing => (s.sys.moved .go).map s.released

/-- The state after a move, if the move is possible and made by one of the threads in ts. -/
def moved (ts : List TaskId) (s : ConsoleSys) (m : Move) : Option ConsoleSys :=
  if s.cur ∉ ts then none
  else match m with
  | .call call =>
    if s.sys.sched.pending = none ∧ s.phase s.cur = .outside then
      some { s.setPhase (.acquiring call) with
        sys := s.sys.goto .acquireTest
        asked := Function.update s.asked s.cur (s.asked s.cur ++ [call]) }
    else none
  | .go => s.advance
  | .tick => (s.sys.moved .tick).map fun sys => { s with sys := sys }
  | .kernel op =>
    if s.phase s.cur = .outside then
      (s.sys.moved (.kernel op)).map fun sys => { s with sys := sys }
    else none

theorem advance_step {s s' : ConsoleSys} (h : s.advance = some s') : s.Step s' := by
  unfold advance at h
  cases hph : s.phase s.cur with
  | outside =>
    rw [hph] at h
    cases h
  | acquiring call =>
    rw [hph] at h
    obtain ⟨sys,hs,rfl⟩ := Option.map_eq_some_iff.mp h
    obtain ⟨-,hp,hs⟩ := LockSys.moved_go hs
    exact .acquire hph hp hs
  | printing pc =>
    rw [hph] at h
    obtain ⟨hp,h⟩ := Option.ite_none_right_eq_some.mp h
    obtain ⟨x,hx,rfl⟩ := Option.map_eq_some_iff.mp h
    exact .print hph hp (eq_ok_of_toOption hx)
  | printed =>
    rw [hph] at h
    obtain ⟨hp,h⟩ := Option.ite_none_right_eq_some.mp h
    exact Option.some.inj h ▸ .release hph hp
  | releasing =>
    rw [hph] at h
    obtain ⟨sys,hs,rfl⟩ := Option.map_eq_some_iff.mp h
    obtain ⟨-,hp,hs⟩ := LockSys.moved_go hs
    exact .releaseStmt hph hp hs

theorem moved_step {ts : List TaskId} {s s' : ConsoleSys} {m : Move}
    (h : s.moved ts m = some s') : s.Step s' := by
  obtain ⟨-,h⟩ := Option.ite_none_left_eq_some.mp h
  cases m with
  | call call =>
    obtain ⟨⟨hp,hph⟩,h⟩ := Option.ite_none_right_eq_some.mp h
    exact Option.some.inj h ▸ .call call hp hph
  | go => exact advance_step h
  | tick =>
    obtain ⟨sys,hs,rfl⟩ := Option.map_eq_some_iff.mp h
    obtain ⟨hen,sched,hx,rfl⟩ := LockSys.moved_tick hs
    exact .tick hen.enabled hx
  | kernel op =>
    obtain ⟨hph,h⟩ := Option.ite_none_right_eq_some.mp h
    obtain ⟨sys,hs,rfl⟩ := Option.map_eq_some_iff.mp h
    obtain ⟨-,hop,hen,sched,hx,rfl⟩ := LockSys.moved_kernel hs
    exact .kernel op hph hen.enabled hop hx

/-- A step changes the phase of the running thread only. -/
theorem Step.phase_eq {s s' : ConsoleSys} (h : s.Step s') {t : TaskId} (ht : t ≠ s.cur) :
    s'.phase t = s.phase t := by
  cases h with
  | call | print | release => exact Function.update_of_ne ht _ _
  | acquire =>
    unfold acquired
    split
    · exact Function.update_of_ne ht _ _
    · rfl
  | releaseStmt =>
    unfold released
    split
    · exact Function.update_of_ne ht _ _
    · rfl
  | tick | kernel | interrupt => rfl

theorem moved_kept {ts : List TaskId} {s s' : ConsoleSys} {m : Move}
    (hph : ∀ t, t ∉ ts → s.phase t = .outside) (h : s.moved ts m = some s') :
    s.Step s' ∧ ∀ t, t ∉ ts → s'.phase t = .outside := by
  have hstep := moved_step h
  obtain ⟨hcur,-⟩ := Option.ite_none_left_eq_some.mp h
  refine ⟨hstep,fun t ht => ?_⟩
  have hne : t ≠ s.cur := fun he => ht (he ▸ not_not.mp hcur)
  rw [hstep.phase_eq hne]
  exact hph t ht

/-- Main prints an A and is preempted in the middle of it; thread 2 wants to print a B and sleeps;
main goes on and releases the console. -/
def printed : List Move :=
  [.kernel (.threadStart 2 31),.kernel (.intrSetStatus true),.call (.putChar 0x41)] ++
  List.replicate 10 .go ++ [.tick,.tick,.call (.putChar 0x42),.go,.go] ++ List.replicate 12 .go

/-- The A is on the screen, and the call of thread 2 waits for the lock. -/
theorem reachable_whole_printed : ∃ (display : Display) (s : ConsoleSys), s.Reachable display ∧
    s.served 1 = [.putChar 0x41] ∧ s.waiting 2 = [.putChar 0x42] ∧
    s.asked 2 = s.served 2 ++ s.waiting 2 ∧ display.Prints [0x41] s.display := by
  let display : Display := ⟨fun _ => 0,0,fun _ => 0⟩
  let link : Link := ⟨0,0,0⟩
  have hb : ∀ x, X86.Span link.putIntBuffer 8 x → ¬InVideo x := by
    intro x hx
    have hl : videoLimit = 0x7fff := rfl
    have hx' : X86.Span 0 8 x := hx
    simp only [InVideo,X86.Span,hl,videoBase] at hx' ⊢
    bv_omega
  have hplay : ∃ s, Script.play (moved [1,2]) printed (init 1 (fun _ => 0) 7 link display) =
      some s ∧ s.log = [(1,.putChar 0x41)] ∧ s.phase 1 = .outside ∧
      s.phase 2 = .acquiring (.putChar 0x42) := by
    decide +kernel
  obtain ⟨s,hs,hlog,h₁,h₂⟩ := hplay
  obtain ⟨hrun,hothers⟩ := Script.play_run hs (fun _ _ => rfl) moved_kept
  have hreach : s.Reachable display := ⟨1,fun _ => 0,7,link,hb,hrun⟩
  obtain ⟨-,hscreen,-,hasked⟩ := reachable_whole hreach
  have hnone : ∀ t pc, s.phase t ≠ .printing pc := by
    intro t pc
    by_cases ht : t ∈ [1,2]
    · obtain rfl|rfl := List.mem_pair.mp ht
      · simp [h₁]
      · simp [h₂]
    · simp [hothers t ht]
  have htext : s.text = [0x41] := by simp [text,hlog,PrintCall.text]
  have hserved : s.served 1 = [.putChar 0x41] := by simp [served,hlog]
  have hwaiting : s.waiting 2 = [.putChar 0x42] := by simp [waiting,h₂,ConsolePhase.waiting]
  exact ⟨display,s,hreach,hserved,hwaiting,hasked 2,htext ▸ (hscreen hnone).1⟩

end ConsoleSys

end OsKernel

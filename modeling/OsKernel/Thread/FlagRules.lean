import OsKernel.Thread.KernelProg

/-! Every function of the kernel returns with the interrupt flag that it was called with, and
touches list elements with the flag off. Both follow from what each program does to the flag
on its own, since a switch is made with the flag off and resumes with the flag off. -/
namespace OsKernel
open IntrusiveList Interrupts
namespace KProg

/-- The rules of the kernel. The access to list elements and the traversal of lists are
asked to have the flag off only if strict holds, and thread_start is then called with the
flag off. -/
def rules (strict : Prop) : Rules Fn where
  access flag := strict → flag = false
  promised f flag := strict → f = .threadStart → flag = false
  within f e flag := (f = .schedule → e = false) ∧ (strict → f = .elemFind → flag = false)
  exit _ e flag := flag = e

/-- The program starts with the flag a and ends with the flag b and the same open calls. -/
def Runs {α : Type} (strict : Prop) (cs : List (Fn × Bool)) (a b : Bool) (p : KProg α) : Prop :=
  p.Keeps (rules strict) a cs fun _ flag cs' => flag = b ∧ cs' = cs

/-- The flag may be anything inside the innermost open call. -/
def Free (cs : List (Fn × Bool)) : Prop := ∀ strict flag, (rules strict).Within cs flag

theorem free_cons {f : Fn} {e : Bool} {cs : List (Fn × Bool)} (hs : f ≠ .schedule)
    (he : f ≠ .elemFind) : Free ((f,e)::cs) := by
  intro strict flag f' e' h
  obtain ⟨rfl,rfl⟩ := Prod.mk.inj (Option.some.inj h)
  exact ⟨fun h => absurd h hs,fun _ h => absurd h he⟩

theorem free_nil : Free [] := fun _ _ => Rules.within_nil _ _

variable {strict : Prop} {cs : List (Fn × Bool)} {a b c : Bool} {α β : Type}

section Rules
variable {p : KProg α} {g : α → KProg β}

theorem Runs.bind (hp : Runs strict cs a b p) (hg : ∀ v, Runs strict cs b c (g v)) :
    Runs strict cs a c (p >>= g) := by
  refine Prog.Keeps.bind (hp.mono ?_)
  rintro v flag cs' ⟨rfl,rfl⟩
  exact hg v

theorem Runs.ret (v : α) : Runs strict cs a a (.ret v) := ⟨rfl,rfl⟩

theorem Runs.pure (v : α) : Runs strict cs a a (Pure.pure v) := ⟨rfl,rfl⟩

theorem Runs.exec (f : TaskId → KernelData → β × KernelData) : Runs strict cs a a (exec f) :=
  ⟨.inl rfl,fun _ => ⟨rfl,rfl⟩⟩

theorem Runs.halt (e : Panic) : Runs strict cs a b (.halt e : KProg α) := trivial

theorem Runs.assert {q : Prop} [Decidable q] {func text : String} :
    Runs strict cs a a (assert q func text) := by
  unfold KProg.assert
  split
  · exact .ret ()
  · exact .halt _

theorem Runs.ite {q : Prop} [Decidable q] {p' : KProg α} (hp : Runs strict cs a b p)
    (hp' : Runs strict cs a b p') : Runs strict cs a b (if q then p else p') := by
  split
  · exact hp
  · exact hp'

theorem Runs.plain (hp : p.Plain Unlisted) : Runs strict cs a a p := hp.keeps fun _ => ⟨rfl,rfl⟩

/-- A function that returns with the flag it was called with. -/
theorem Runs.call {f : Fn} (hcs : (rules strict).Within cs a)
    (h : (rules strict).promised f a →
      (rules strict).within f a a ∧ Runs strict ((f,a)::cs) a a p) :
    Runs strict cs a a (Prog.call f p) := by
  refine Prog.Keeps.call fun hprom => ⟨(h hprom).1,(h hprom).2.mono ?_⟩
  rintro v flag cs' ⟨rfl,rfl⟩
  exact ⟨rfl,rfl,hcs,rfl,rfl⟩

/-- A function whose own statements may run with any flag. -/
theorem Runs.freeCall {f : Fn} (hs : f ≠ .schedule) (he : f ≠ .elemFind)
    (hcs : (rules strict).Within cs a)
    (h : (rules strict).promised f a → Runs strict ((f,a)::cs) a a p) :
    Runs strict cs a a (Prog.call f p) :=
  .call hcs fun hprom => ⟨⟨fun h => absurd h hs,fun _ h => absurd h he⟩,h hprom⟩

/-- A loop whose body returns with the flag it starts with. -/
theorem Runs.loop {x : β} {body : β → KProg (β ⊕ α)} (h : ∀ x, Runs strict cs a a (body x)) :
    Runs strict cs a a (Prog.loop x body) := by
  refine Prog.Keeps.loop (fun _ flag => flag = a) rfl ?_
  rintro x flag rfl
  refine (h x).mono ?_
  rintro r flag' cs' ⟨rfl,rfl⟩
  cases r with
  | inl _ => exact ⟨rfl,rfl⟩
  | inr _ => exact ⟨rfl,rfl,rfl⟩

/-- intr_disable hands the flag over to the rest of the function. -/
theorem Runs.disable {g : Bool → KProg β} (hcs : (rules strict).Within cs false)
    (h : Runs strict cs false b (g a)) : Runs strict cs a b (intrDisable >>= g) := by
  cases a with
  | true => exact ⟨hcs,h⟩
  | false => exact h

theorem Runs.setStatus (hcs : Free cs) : Runs strict cs a b (intrSetStatus b) := by
  cases b <;> cases a <;> first | exact ⟨rfl,rfl⟩ | exact ⟨hcs _ _,rfl,rfl⟩

/-- The last statement of a function that has switched interrupts off. -/
theorem Runs.restore (hcs : Free cs) :
    Runs strict cs a b (intrSetStatus b >>= fun _ => Pure.pure ()) :=
  .bind (.setStatus hcs) fun _ => .pure ()

end Rules

section Functions
variable {mem : MemoryCode} {before elem : Node} {plist : ListName}

theorem Runs.readNext (ha : strict → a = false) : Runs strict cs a a (readNext before) :=
  ⟨.inr ha,fun _ => ⟨rfl,rfl⟩⟩

theorem Runs.readPrev (ha : strict → a = false) : Runs strict cs a a (readPrev before) :=
  ⟨.inr ha,fun _ => ⟨rfl,rfl⟩⟩

theorem Runs.writeNext (ha : strict → a = false) : Runs strict cs a a (writeNext before elem) :=
  ⟨.inr ha,fun _ => ⟨rfl,rfl⟩⟩

theorem Runs.writePrev (ha : strict → a = false) : Runs strict cs a a (writePrev before elem) :=
  ⟨.inr ha,fun _ => ⟨rfl,rfl⟩⟩

theorem listInsertBefore_runs (hcs : (rules strict).Within cs a) :
    Runs strict cs a a (listInsertBefore before elem) := by
  have hf : ∀ e, Free ((Fn.listInsertBefore,e)::cs) := fun e => free_cons (by simp) (by simp)
  have hoff : strict → false = false := fun _ => rfl
  refine .freeCall (by simp) (by simp) hcs fun _ => .disable (hf _ _ _) ?_
  refine .bind (.readPrev hoff) fun p => .bind (.writeNext hoff) fun _ => ?_
  refine .bind (.writeNext hoff) fun _ => .bind (.readPrev hoff) fun p => ?_
  exact .bind (.writePrev hoff) fun _ => .bind (.writePrev hoff) fun _ => .restore (hf _)

theorem listRemove_runs (hcs : (rules strict).Within cs a) :
    Runs strict cs a a (listRemove elem) := by
  have hf : ∀ e, Free ((Fn.listRemove,e)::cs) := fun e => free_cons (by simp) (by simp)
  have hoff : strict → false = false := fun _ => rfl
  refine .freeCall (by simp) (by simp) hcs fun _ => .disable (hf _ _ _) ?_
  refine .bind (.readNext hoff) fun n => .bind (.readPrev hoff) fun p => ?_
  refine .bind (.writeNext hoff) fun _ => .bind (.readPrev hoff) fun p => ?_
  exact .bind (.readNext hoff) fun n => .bind (.writePrev hoff) fun _ => .restore (hf _)

theorem listAppend_runs (hcs : (rules strict).Within cs a) :
    Runs strict cs a a (listAppend plist elem) := listInsertBefore_runs hcs

theorem listPush_runs (hcs : (rules strict).Within cs a) (ha : strict → a = false) :
    Runs strict cs a a (listPush plist elem) := .bind (.readNext ha) fun _ => listInsertBefore_runs hcs

theorem listPop_runs (hcs : (rules strict).Within cs a) (ha : strict → a = false) :
    Runs strict cs a a (listPop plist) := by
  refine .bind (.readNext ha) fun _ => .bind .assert fun _ => .bind (.readNext ha) fun _ => ?_
  exact .bind (.readNext ha) fun _ => .bind (listRemove_runs hcs) fun _ => .pure _

theorem listEmpty_runs (ha : strict → a = false) : Runs strict cs a a (listEmpty plist) :=
  .bind (.readNext ha) fun _ => .pure _

theorem elemFind_runs (hcs : (rules strict).Within cs a) (ha : strict → a = false) :
    Runs strict cs a a (elemFind plist elem) := by
  refine .call hcs fun _ => ⟨⟨fun h => by simp at h,fun hs _ => ha hs⟩,?_⟩
  refine .bind (.readNext ha) fun _ => .loop fun ptr => ?_
  exact .ite (.ret _) (.ite (.ret _) (.bind (.readNext ha) fun _ => .pure _))

theorem elem2entry_runs {func : String} : Runs strict cs a a (elem2entry func elem) := by
  unfold elem2entry
  split
  · exact .ret _
  · exact .halt _

theorem setTask_runs {t : TaskId} {f : Task → Task} : Runs strict cs a a (setTask t f) := .exec _

theorem setLock_runs {plock : LockId} {f : Lock → Lock} : Runs strict cs a a (setLock plock f) :=
  .exec _

/-- schedule is entered with the flag off, and the thread that it resumes goes on with the
flag off. -/
theorem schedule_runs (hm : mem.Plain) (hcs : (rules strict).Within cs false) :
    Runs strict cs false false (schedule mem) := by
  have hoff : strict → false = false := fun _ => rfl
  have hin : ∀ flag, (rules strict).Within ((Fn.schedule,false)::cs) flag := by
    intro flag f e h
    obtain ⟨rfl,rfl⟩ := Prod.mk.inj (Option.some.inj h)
    exact ⟨fun _ => rfl,fun _ h => by simp at h⟩
  refine .call hcs fun _ => ⟨⟨fun _ => rfl,fun _ _ => rfl⟩,?_⟩
  refine .bind (b := false) (⟨rfl,rfl⟩ : Runs strict _ false false (.getFlag .ret)) fun _ => ?_
  refine .bind .assert fun _ => .bind (.exec _) fun cur => .bind (.exec _) fun stat => ?_
  refine .bind (.ite ?_ (.ret ())) fun _ => ?_
  · refine .bind (elemFind_runs (hin _) hoff) fun _ => .bind .assert fun _ => ?_
    exact .bind (listAppend_runs (hin _)) fun _ => .bind setTask_runs fun _ => setTask_runs
  refine .bind (listEmpty_runs hoff) fun _ => .bind .assert fun _ => ?_
  refine .bind (listPop_runs (hin _) hoff) fun _ => .bind elem2entry_runs fun next => ?_
  exact .bind setTask_runs fun _ => .bind (.plain (hm.processActivate next)) fun _ => ⟨rfl,rfl,rfl⟩

theorem threadBlock_runs (hm : mem.Plain) {stat : TaskStatus} (hcs : (rules strict).Within cs a) :
    Runs strict cs a a (threadBlock mem stat) := by
  have hf : ∀ e, Free ((Fn.threadBlock,e)::cs) := fun e => free_cons (by simp) (by simp)
  refine .freeCall (by simp) (by simp) hcs fun _ => .bind .assert fun _ => .disable (hf _ _ _) ?_
  refine .bind (.exec _) fun cur => .bind setTask_runs fun _ => ?_
  exact .bind (schedule_runs hm (hf _ _ _)) fun _ => .restore (hf _)

theorem threadUnblock_runs {pthread : TaskId} (hcs : (rules strict).Within cs a) :
    Runs strict cs a a (threadUnblock pthread) := by
  have hf : ∀ e, Free ((Fn.threadUnblock,e)::cs) := fun e => free_cons (by simp) (by simp)
  have hoff : strict → false = false := fun _ => rfl
  refine .freeCall (by simp) (by simp) hcs fun _ => .disable (hf _ _ _) ?_
  refine .bind (.exec _) fun stat => .bind .assert fun _ => ?_
  refine .bind (.ite ?_ (.ret ())) fun _ => .restore (hf _)
  refine .bind (elemFind_runs (hf _ _ _) hoff) fun _ => .bind .assert fun _ => ?_
  refine .bind (elemFind_runs (hf _ _ _) hoff) fun _ => .bind (.ite (.halt _) (.ret ())) fun _ => ?_
  exact .bind (listPush_runs (hf _ _ _) hoff) fun _ => setTask_runs

theorem semaDown_runs (hm : mem.Plain) {psema : SemaphoreId} (hcs : (rules strict).Within cs a) :
    Runs strict cs a a (semaDown mem psema) := by
  have hf : ∀ e, Free ((Fn.semaDown,e)::cs) := fun e => free_cons (by simp) (by simp)
  have hoff : strict → false = false := fun _ => rfl
  refine .freeCall (by simp) (by simp) hcs fun _ => .disable (hf _ _ _) ?_
  refine .bind (.loop fun _ => .bind (.exec _) fun value => .ite (.bind ?_ fun _ => .pure _)
    (.pure _)) fun _ => ?_
  · refine .bind (.exec _) fun cur => .bind (elemFind_runs (hf _ _ _) hoff) fun _ => ?_
    refine .bind .assert fun _ => .bind (.exec _) fun cur => ?_
    refine .bind (elemFind_runs (hf _ _ _) hoff) fun _ => .bind (.ite (.halt _) (.ret ())) fun _ => ?_
    refine .bind (.exec _) fun cur => .bind (listAppend_runs (hf _ _ _)) fun _ => ?_
    exact threadBlock_runs hm (hf _ _ _)
  · refine .bind (.exec _) fun _ => .bind (.exec _) fun value => .bind .assert fun _ => ?_
    exact .restore (hf _)

theorem semaUp_runs {psema : SemaphoreId} (hcs : (rules strict).Within cs a) :
    Runs strict cs a a (semaUp psema) := by
  have hf : ∀ e, Free ((Fn.semaUp,e)::cs) := fun e => free_cons (by simp) (by simp)
  have hoff : strict → false = false := fun _ => rfl
  refine .freeCall (by simp) (by simp) hcs fun _ => .disable (hf _ _ _) ?_
  refine .bind (.exec _) fun value => .bind .assert fun _ => .bind (listEmpty_runs hoff) fun _ => ?_
  refine .bind (.ite ?_ (.ret ())) fun _ => ?_
  · refine .bind (listPop_runs (hf _ _ _) hoff) fun tag => .bind elem2entry_runs fun t => ?_
    exact threadUnblock_runs (hf _ _ _)
  · refine .bind (.exec _) fun _ => .bind (.exec _) fun value => .bind .assert fun _ => ?_
    exact .restore (hf _)

theorem lockAcquire_runs (hm : mem.Plain) {plock : LockId} (hcs : (rules strict).Within cs a) :
    Runs strict cs a a (lockAcquire mem plock) := by
  have hf : ∀ e, Free ((Fn.lockAcquire,e)::cs) := fun e => free_cons (by simp) (by simp)
  refine .freeCall (by simp) (by simp) hcs fun _ => .bind (.exec _) fun holder => ?_
  refine .bind (.exec _) fun cur => .ite ?_ (.bind (.exec _) fun _ => setLock_runs)
  refine .bind (.exec _) fun psema => .bind (semaDown_runs hm (hf _ _ _)) fun _ => ?_
  refine .bind (.exec _) fun cur => .bind setLock_runs fun _ => .bind (.exec _) fun nr => ?_
  exact .bind .assert fun _ => setLock_runs

theorem lockRelease_runs {plock : LockId} (hcs : (rules strict).Within cs a) :
    Runs strict cs a a (lockRelease plock) := by
  have hf : ∀ e, Free ((Fn.lockRelease,e)::cs) := fun e => free_cons (by simp) (by simp)
  refine .freeCall (by simp) (by simp) hcs fun _ => .bind (.exec _) fun holder => ?_
  refine .bind (.exec _) fun cur => .bind .assert fun _ => .bind (.exec _) fun nr => ?_
  refine .ite (.bind (.exec _) fun _ => setLock_runs) ?_
  refine .bind (.exec _) fun nr => .bind .assert fun _ => .bind setLock_runs fun _ => ?_
  refine .bind setLock_runs fun _ => .bind (.exec _) fun psema => ?_
  exact semaUp_runs (hf _ _ _)

theorem intrTimerHandler_runs (hm : mem.Plain) :
    Runs strict [] false false (intrTimerHandler mem) := by
  have hf : ∀ e, Free ((Fn.intrTimerHandler,e)::[]) := fun e => free_cons (by simp) (by simp)
  refine .freeCall (by simp) (by simp) (Rules.within_nil _ _) fun _ => ?_
  refine .bind (.exec _) fun cur => .bind (.exec _) fun magic => .bind .assert fun _ => ?_
  refine .bind setTask_runs fun _ => .bind (.exec _) fun _ => .bind (.exec _) fun ticks => ?_
  exact .ite (schedule_runs hm (hf _ _ _)) setTask_runs

theorem getKernelPages_runs (hm : mem.Plain) {n : ℕ} (hcs : (rules strict).Within cs a) :
    Runs strict cs a a (getKernelPages mem n) := by
  refine .bind (lockAcquire_runs hm hcs) fun _ => .bind (.plain (hm.mallocPage n)) fun vaddr => ?_
  refine .bind .assert fun _ => .bind (.ite (.plain (hm.memset _ _)) (.ret ())) fun _ => ?_
  exact .bind (lockRelease_runs hcs) fun _ => .pure _

theorem allocatePid_runs (hm : mem.Plain) (hcs : (rules strict).Within cs a) :
    Runs strict cs a a (allocatePid mem) := by
  refine .bind (lockAcquire_runs hm hcs) fun _ => .bind (.exec _) fun _ => ?_
  exact .bind (.exec _) fun _ => .bind (lockRelease_runs hcs) fun _ => .exec _

theorem createUserVaddrBitmap_runs (hm : mem.Plain) {userProg : TaskId}
    (hcs : (rules strict).Within cs a) : Runs strict cs a a (createUserVaddrBitmap mem userProg) :=
  .bind (getKernelPages_runs hm hcs) fun _ => .plain (hm.bitmapInit _ _)

theorem initThread_runs (hm : mem.Plain) {pthread : TaskId} {prio : ℕ}
    (hcs : (rules strict).Within cs a) : Runs strict cs a a (initThread mem pthread prio) := by
  refine .bind (.exec _) fun _ => .bind (allocatePid_runs hm hcs) fun pid => ?_
  refine .bind (.exec _) fun _ => .bind (.exec _) fun _ => .bind setTask_runs fun _ => ?_
  exact .bind setTask_runs fun _ => setTask_runs

theorem enqueue_runs {func : String} {thread : TaskId} (hcs : (rules strict).Within cs a)
    (ha : strict → a = false) : Runs strict cs a a (enqueue func thread) := by
  refine .bind (elemFind_runs hcs ha) fun _ => .bind .assert fun _ => ?_
  refine .bind (listAppend_runs hcs) fun _ => .bind (elemFind_runs hcs ha) fun _ => ?_
  exact .bind .assert fun _ => listAppend_runs hcs

/-- The new thread starts with the flag off, which the switch to it leaves, and enables
interrupts itself. -/
theorem threadCreate_runs {pthread : TaskId} {function : KProg Unit}
    (h : ∀ flag, function.Keeps (rules strict) flag [] fun _ _ _ => True) :
    Runs strict cs a a (threadCreate pthread function) :=
  ⟨⟨Rules.within_nil _ _,h true⟩,rfl,rfl⟩

theorem threadStart_runs (hm : mem.Plain) {prio : ℕ} {function : KProg Unit}
    (h : ∀ flag, function.Keeps (rules strict) flag [] fun _ _ _ => True)
    (hcs : (rules strict).Within cs a) : Runs strict cs a a (threadStart mem prio function) := by
  have hf : ∀ e, Free ((Fn.threadStart,e)::cs) := fun e => free_cons (by simp) (by simp)
  refine .freeCall (by simp) (by simp) hcs fun hprom => ?_
  refine .bind (getKernelPages_runs hm (hf _ _ _)) fun thread => ?_
  refine .bind (initThread_runs hm (hf _ _ _)) fun _ => .bind (threadCreate_runs h) fun _ => ?_
  exact .bind (enqueue_runs (hf _ _ _) fun hs => hprom hs rfl) fun _ => .pure _

theorem createPageDir_runs (hm : mem.Plain) (hcs : (rules strict).Within cs a) :
    Runs strict cs a a (createPageDir mem) := by
  refine .bind (getKernelPages_runs hm hcs) fun pageDir => .ite (.bind ?_ fun _ => .pure _) ?_
  · refine .bind (lockAcquire_runs hm hcs) fun _ => .bind (.plain (hm.putStr _)) fun _ => ?_
    exact lockRelease_runs hcs
  · exact .bind (.plain (hm.fillPageDir _)) fun _ => .pure _

theorem processExecute_runs (hm : mem.Plain) {startProcess : KProg Unit}
    (h : ∀ flag, startProcess.Keeps (rules strict) flag [] fun _ _ _ => True)
    (hcs : (rules strict).Within cs a) : Runs strict cs a a (processExecute mem startProcess) := by
  have hf : ∀ e, Free ((Fn.processExecute,e)::cs) := fun e => free_cons (by simp) (by simp)
  refine .freeCall (by simp) (by simp) hcs fun _ => ?_
  refine .bind (getKernelPages_runs hm (hf _ _ _)) fun thread => ?_
  refine .bind (initThread_runs hm (hf _ _ _)) fun _ => ?_
  refine .bind (createUserVaddrBitmap_runs hm (hf _ _ _)) fun _ => ?_
  refine .bind (threadCreate_runs h) fun _ => .bind (createPageDir_runs hm (hf _ _ _)) fun _ => ?_
  refine .bind (.plain (hm.setPgdir _ _)) fun _ => .bind (.plain (hm.blockDescInit _)) fun _ => ?_
  exact .disable (hf _ _ _) (.bind (enqueue_runs (hf _ _ _) fun _ => rfl) fun _ => .restore (hf _))

/-- Code outside the kernel functions keeps the rules from any flag. -/
theorem Client.keeps (hm : mem.Plain) {p : KProg α} (h : Client mem p) (hcs : Free cs)
    (flag : Bool) : p.Keeps (rules strict) flag cs fun _ _ cs' => cs' = cs := by
  have runs {α : Type} {p : KProg α} {cs flag} (h : Runs strict cs flag flag p) :
      p.Keeps (rules strict) flag cs fun _ _ cs' => cs' = cs := h.mono fun _ _ _ h => h.2
  induction h generalizing cs flag with
  | ret a => rfl
  | bind _ _ ihp ihg =>
    refine Prog.Keeps.bind ((ihp hcs flag).mono ?_)
    rintro v flag' cs' rfl
    exact ihg v hcs flag'
  | exec _ => exact runs (.exec _)
  | intrGetStatus => rfl
  | sti => exact ⟨hcs _ _,rfl⟩
  | cli => exact ⟨hcs _ _,rfl⟩
  | loop _ ih =>
    refine Prog.Keeps.loop (fun _ _ => True) trivial fun x flag _ => (ih x hcs flag).mono ?_
    rintro r flag' cs' rfl
    cases r with
    | inl _ => exact ⟨rfl,trivial⟩
    | inr _ => exact ⟨rfl,rfl⟩
  | halt e => trivial
  | listInsertBefore => exact runs (listInsertBefore_runs (hcs _ _))
  | listRemove => exact runs (listRemove_runs (hcs _ _))
  | semaDown => exact runs (semaDown_runs hm (hcs _ _))
  | semaUp => exact runs (semaUp_runs (hcs _ _))
  | lockAcquire => exact runs (lockAcquire_runs hm (hcs _ _))
  | lockRelease => exact runs (lockRelease_runs (hcs _ _))
  | threadBlock => exact runs (threadBlock_runs hm (hcs _ _))
  | threadUnblock => exact runs (threadUnblock_runs (hcs _ _))
  | threadStart prio _ ih =>
    refine runs (threadStart_runs hm (fun flag => ?_) (hcs _ _))
    exact (ih free_nil flag).mono fun _ _ _ _ => trivial
  | processExecute _ ih =>
    refine runs (processExecute_runs hm (fun flag => ?_) (hcs _ _))
    exact (ih free_nil flag).mono fun _ _ _ _ => trivial

end Functions
end KProg
end OsKernel

import OsKernel.Thread.FlagRules

/-! Runs of the kernel: any number of threads, interrupts between any two statements of a
thread that runs with the flag on, and switches wherever the scheduler makes them. -/
namespace OsKernel
open IntrusiveList Interrupts

abbrev Kernel := Interrupts.Machine KernelData Node Fn TaskId Panic

namespace Kernel
open KProg
variable {mem : MemoryCode} {data : KernelData} {mainThread : TaskId} {p : KProg Unit} {m : Kernel}

/-- The states of the runs of any program as the first thread. -/
def Reachable (mem : MemoryCode) (data : KernelData) (mainThread : TaskId) (p : KProg Unit)
    (m : Kernel) : Prop :=
  Relation.ReflTransGen (Interrupts.Machine.Step (Handler mem)) (kernelStart data mainThread p) m

/-- If the next statement calls thread_start, then the flag is off. -/
def StartsOff (m : Kernel) : Prop := m.entering = some .threadStart → m.flag = false

instance (m : Kernel) : Decidable (StartsOff m) := inferInstanceAs (Decidable (_ → _))

/-- The states of the runs in which thread_start is called with the flag off. -/
def StartsOffReachable (mem : MemoryCode) (data : KernelData) (mainThread : TaskId)
    (p : KProg Unit) (m : Kernel) : Prop :=
  Relation.ReflTransGen (fun m m' => StartsOff m ∧ Interrupts.Machine.Step (Handler mem) m m')
    (kernelStart data mainThread p) m

theorem handler_keeps (hm : mem.Plain) {strict : Prop} {q : KProg Unit} (hq : Handler mem q) :
    q.Keeps (rules strict) false [] fun _ _ _ => True := by
  obtain rfl | hq := hq
  · exact (intrTimerHandler_runs hm).mono fun _ _ _ _ => trivial
  · exact (hq.keeps hm free_nil false).mono fun _ _ _ _ => trivial

theorem start_ok (hm : mem.Plain) {strict : Prop} (hp : Client mem p) :
    (kernelStart data mainThread p).Ok (rules strict) := by
  refine ⟨?_,fun t ht => ?_⟩
  · simp only [kernelStart,Function.update_self]
    exact ⟨⟨(hp.keeps hm free_nil false).mono fun _ _ _ _ => trivial,Rules.within_nil _ _⟩,by simp⟩
  · have ht : t ≠ mainThread := ht
    simp only [kernelStart,Function.update_of_ne ht]
    trivial

theorem promised_of_startsOff {strict : Prop} (h : StartsOff m) : m.Promised (rules strict) :=
  fun _ hf _ he => h (he ▸ hf)

theorem Reachable.ok (hm : mem.Plain) (hp : Client mem p)
    (hr : Reachable mem data mainThread p m) : m.Ok (rules False) := by
  refine (start_ok hm hp).run (fun _ => handler_keeps hm) (Relation.ReflTransGen.mono ?_ _ _ hr)
  exact fun _ _ hs => ⟨fun _ _ h => h.elim,hs⟩

theorem StartsOffReachable.ok (hm : mem.Plain) (hp : Client mem p)
    (hr : StartsOffReachable mem data mainThread p m) : m.Ok (rules True) :=
  (start_ok hm hp).run (fun _ => handler_keeps hm)
    (Relation.ReflTransGen.mono (fun _ _ hs => ⟨promised_of_startsOff hs.1,hs.2⟩) _ _ hr)

/-- An allocator with a single page. -/
def onePage : MemoryCode where
  mallocPage _ := .ret 4096
  memset _ _ := .ret ()
  bitmapInit _ _ := .ret ()
  fillPageDir _ := .ret ()
  setPgdir _ _ := .ret ()
  blockDescInit _ := .ret ()
  processActivate _ := .ret ()
  putStr _ := .ret ()

theorem onePage_plain : onePage.Plain :=
  ⟨fun _ => .ret _,fun _ _ => .ret _,fun _ _ => .ret _,fun _ => .ret _,fun _ _ => .ret _,
    fun _ => .ret _,fun _ => .ret _,fun _ => .ret _⟩

/-- The variables after init_all, with three semaphores for the locks. -/
def afterInit : KernelData where
  links := (Sched.threadInit 0 fun _ => 1).links
  task := (Sched.threadInit 0 fun _ => 1).task
  pid _ := 1
  value _ := 1
  lock
    | .pidLock => ⟨none,0,0⟩
    | .kernelPool => ⟨none,0,1⟩
    | .consoleLock => ⟨none,0,2⟩
    | .other plock => ⟨none,0,plock+3⟩
  ticks := 0
  nextPid := 1
  mainThread := 0

theorem intrEnable_client (mem : MemoryCode) : Client mem intrEnable := by
  refine .bind .intrGetStatus fun oldStatus => ?_
  cases oldStatus with
  | true => exact .ret true
  | false => exact .bind .sti fun _ => .ret false

/-- main: intr_enable, then thread_start. -/
def main : KProg Unit := do
  let _ ← intrEnable
  let _ ← KProg.threadStart onePage 31 (.ret ())
  return ()

theorem main_client : Client onePage main :=
  .bind (intrEnable_client _) fun _ => .bind (.threadStart 31 (.ret ())) fun _ => .ret ()

/-- main: thread_start before intr_enable. -/
def mainOff : KProg Unit := do
  let _ ← KProg.threadStart onePage 31 (.ret ())
  let _ ← intrEnable
  return ()

theorem mainOff_client : Client onePage mainOff :=
  .bind (.threadStart 31 (.ret ())) fun _ => .bind (intrEnable_client _) fun _ => .ret ()

/-- The state of the first thread after n of its statements. -/
theorem reachable_of_nexts {n : ℕ}
    (h : Interrupts.Machine.nexts (fun _ => true) n (kernelStart data mainThread p) = some m) :
    Reachable mem data mainThread p m :=
  Relation.ReflTransGen.mono (fun _ _ hs => hs.2) _ _ (Interrupts.Machine.nexts_reaches h)

theorem startsOffReachable_of_nexts {n : ℕ}
    (h : Interrupts.Machine.nexts (fun m => decide (StartsOff m)) n
      (kernelStart data mainThread p) = some m) :
    StartsOffReachable mem data mainThread p m :=
  Relation.ReflTransGen.mono (fun _ _ hs => ⟨of_decide_eq_true hs.1,hs.2⟩) _ _
    (Interrupts.Machine.nexts_reaches h)

/-- In every interleaving a function returns with the flag that it was called with, and
schedule is entered with the flag off. -/
theorem flag_restored (hm : mem.Plain) (hp : Client mem p)
    (hr : Reachable mem data mainThread p m) :
    (∀ f e, m.returning = some (f,e) → m.flag = e) ∧
      (m.entering = some .schedule → m.flag = false) := by
  have h := hr.ok hm hp
  exact ⟨fun f e hf => h.returns hf,fun he => (h.enters he fun h => h.elim).1 rfl⟩

theorem flag_restored_main : ∃ m : Kernel, m.returning = some (.lockAcquire,true) ∧ m.flag = true := by
  have h : ((Interrupts.Machine.nexts (fun _ => true) 21 (kernelStart afterInit 0 main)).map
      Interrupts.Machine.returning) = some (some (.lockAcquire,true)) := by decide +kernel
  obtain ⟨m,hm,hret⟩ := Option.map_eq_some_iff.mp h
  exact ⟨m,hret,(flag_restored onePage_plain main_client (reachable_of_nexts hm)).1 _ _ hret⟩

/-- If thread_start is called with the flag off, then list elements are read and written with
the flag off, and no traversal can be interrupted. -/
theorem lists_flag_off (hm : mem.Plain) (hp : Client mem p)
    (hr : StartsOffReachable mem data mainThread p m) :
    (m.accesses ≠ [] → m.flag = false) ∧
      ∀ e, m.inside = some (.elemFind,e) → m.flag = false := by
  have h := hr.ok hm hp
  exact ⟨fun ha => h.access ha trivial,fun e hi => (h.within hi).2 trivial rfl⟩

theorem lists_flag_off_mainOff : ∃ m : Kernel, m.accesses = [.head .threadReadyList] ∧
    m.inside = some (.elemFind,false) ∧ m.flag = false := by
  have h : ((Interrupts.Machine.nexts (fun m => decide (StartsOff m)) 80
      (kernelStart afterInit 0 mainOff)).map
      fun m => (m.accesses,m.inside)) =
      some ([.head .threadReadyList],some (.elemFind,false)) := by decide +kernel
  obtain ⟨m,hm,hobs⟩ := Option.map_eq_some_iff.mp h
  obtain ⟨ha,hi⟩ := Prod.mk.inj hobs
  refine ⟨m,ha,hi,?_⟩
  exact (lists_flag_off onePage_plain mainOff_client (startsOffReachable_of_nexts hm)).1 (by simp [ha])

/-- main calls thread_start with the flag on, and elem_find stands in the middle of
thread_all_list while an interrupt may come. -/
theorem lists_flag_on : ∃ m : Kernel, Reachable onePage afterInit 0 main m ∧
    m.inside = some (.elemFind,true) ∧ m.accesses = [.allListTag 0] ∧ m.flag = true := by
  have h : ((Interrupts.Machine.nexts (fun _ => true) 108 (kernelStart afterInit 0 main)).map
      fun m => (m.inside,m.accesses,m.flag)) =
      some (some (.elemFind,true),[.allListTag 0],true) := by decide +kernel
  obtain ⟨m,hm,hobs⟩ := Option.map_eq_some_iff.mp h
  obtain ⟨hi,hobs⟩ := Prod.mk.inj hobs
  obtain ⟨ha,hflag⟩ := Prod.mk.inj hobs
  exact ⟨m,reachable_of_nexts hm,hi,ha,hflag⟩

end Kernel
end OsKernel

import OsKernel.Thread.Pid

/-! Runs of allocate_pid: identifiers are distinct in the runs in which every thread reads its
identifier before the next increment, and runs written down move by move. -/
namespace OsKernel

namespace PidSys

theorem OrderlyReachable.inv {s : PidSys} (h : s.OrderlyReachable) : ∃ own, PidInv s own := by
  obtain ⟨mainThread,value,psema,hrun⟩ := h
  induction hrun with
  | refl => exact ⟨none,.init mainThread value psema⟩
  | tail _ hstep ih =>
    obtain ⟨own,hown⟩ := ih
    exact hown.step hstep.1 hstep.2

/-- As long as nobody increments the counter while another thread has yet to read it, the
identifiers of fewer than 65536 tasks are distinct. -/
theorem orderlyReachable_pids_nodup {s : PidSys} (h : s.OrderlyReachable)
    (hn : s.pids.length < 65536) : s.pids.Nodup := by
  obtain ⟨own,hown⟩ := h.inv
  rw [hown.pids]
  exact firstPids_nodup hn

/-- What happens next in a run that is written down. -/
inductive Move
  | call
  /-- The next statement of allocate_pid, or of the lock function that it has called. -/
  | go
  | tick
  | kernel (op : Sched.Op)

/-- The state after a move, if the move is possible. -/
def moved (s : PidSys) : Move → Option PidSys
  | .call =>
    if s.sys.sched.pending = none ∧ s.pc s.cur = .outside ∧ s.sys.pc s.cur = .outside then
      some ((s.setSys (s.sys.goto .acquireTest)).goto .increment)
    else none
  | .go =>
    if s.sys.pc s.cur ≠ .outside then (s.sys.moved .go).map s.setSys
    else if s.sys.sched.pending = none ∧ s.pc s.cur ≠ .outside then some s.stmt
    else none
  | .tick => (s.sys.moved .tick).map s.setSys
  | .kernel op => if s.pc s.cur = .outside then (s.sys.moved (.kernel op)).map s.setSys else none

theorem moved_step {s s' : PidSys} {m : Move} (h : s.moved m = some s') : s.Step s' := by
  cases m with
  | call =>
    obtain ⟨⟨hp,hpc,hl⟩,h⟩ := Option.ite_none_right_eq_some.mp h
    exact Option.some.inj h ▸ .call hp hpc hl
  | go =>
    unfold moved at h
    by_cases hl : s.sys.pc s.cur = .outside
    · rw [if_neg (not_not.mpr hl)] at h
      obtain ⟨⟨hp,hpc⟩,h⟩ := Option.ite_none_right_eq_some.mp h
      exact Option.some.inj h ▸ .stmt hp hpc hl
    · rw [if_pos hl] at h
      obtain ⟨sys,hs,rfl⟩ := Option.map_eq_some_iff.mp h
      obtain ⟨-,hp,hs⟩ := LockSys.moved_go hs
      exact .lock hl hp hs
  | tick =>
    obtain ⟨sys,hs,rfl⟩ := Option.map_eq_some_iff.mp h
    obtain ⟨hen,sched,hx,rfl⟩ := LockSys.moved_tick hs
    exact .tick hen.enabled hx
  | kernel op =>
    obtain ⟨hpc,h⟩ := Option.ite_none_right_eq_some.mp h
    obtain ⟨sys,hs,rfl⟩ := Option.map_eq_some_iff.mp h
    obtain ⟨hl,hop,hen,sched,hx,rfl⟩ := LockSys.moved_kernel hs
    exact .kernel op hen.enabled hpc hl hop hx

theorem Step.pc_eq {s s' : PidSys} (h : s.Step s') {t : TaskId} (ht : t ≠ s.cur) :
    s'.pc t = s.pc t := by
  cases h with
  | call => exact Function.update_of_ne ht _ _
  | stmt =>
    unfold PidSys.stmt
    split
    · rfl
    all_goals exact Function.update_of_ne ht _ _
  | lock | tick | kernel => rfl

/-- A move of one of the threads in ts that reads first, if no other thread is in allocate_pid. -/
def orderlyMoved (ts : List TaskId) (s : PidSys) (m : Move) : Option PidSys :=
  if s.cur ∈ ts ∧ (s.pc s.cur = .increment → s.sys.pc s.cur = .outside →
      ∀ t ∈ ts, t ≠ s.cur → s.pc t ≠ .read) then s.moved m
  else none

theorem orderlyMoved_step {ts : List TaskId} {s s' : PidSys} {m : Move}
    (hpc : ∀ t, t ∉ ts → s.pc t = .outside) (h : s.orderlyMoved ts m = some s') :
    (s.ReadsFirst ∧ s.Step s') ∧ ∀ t, t ∉ ts → s'.pc t = .outside := by
  obtain ⟨⟨hcur,hread⟩,h⟩ := Option.ite_none_right_eq_some.mp h
  have hstep := moved_step h
  refine ⟨⟨fun hi hl t ht => ?_,hstep⟩,fun t ht => ?_⟩
  · by_cases hmem : t ∈ ts
    · exact hread hi hl t hmem ht
    · simp [hpc t hmem]
  · have hne : t ≠ s.cur := fun he => ht (he ▸ hcur)
    rw [hstep.pc_eq hne]
    exact hpc t ht

/-- Main starts thread 2 and is preempted in allocate_pid with the counter incremented; thread 2
sleeps in lock_acquire until main has released the lock, and increments the counter after main
has read it. -/
def orderlyMoves : List Move :=
  [.kernel (.threadStart 2 31),.kernel (.intrSetStatus true),.call] ++ List.replicate 6 .go ++
  [.tick,.tick,.call,.go,.go] ++ List.replicate 8 .go ++ [.kernel (.threadBlock .blocked)] ++
  List.replicate 13 .go

theorem orderlyReachable_pids_nodup_two : ∃ s : PidSys, s.pids = [1,2] ∧ s.pids.Nodup := by
  have hplay : ∃ s, Script.play (orderlyMoved [1,2]) orderlyMoves (init 1 (fun _ => 0) 7) = some s ∧
      s.pids = [1,2] := by decide +kernel
  obtain ⟨s,hs,hpids⟩ := hplay
  obtain ⟨hrun,-⟩ := Script.play_run hs (fun _ _ => rfl) orderlyMoved_step
  have hreach : s.OrderlyReachable := ⟨1,fun _ => 0,7,hrun⟩
  exact ⟨s,hpids,orderlyReachable_pids_nodup hreach (by simp [hpids])⟩

/-- A call of allocate_pid up to the return of lock_release. -/
def upToRead : List Move := .call :: List.replicate 13 .go

/-- main is preempted between its lock_release and its read; thread 2 takes an identifier
and blocks; main reads the one of thread 2. -/
def racedMoves : List Move :=
  [.kernel (.threadStart 2 31),.kernel (.intrSetStatus true)] ++ upToRead ++ [.tick,.tick] ++
  upToRead ++ [.go,.kernel (.threadBlock .blocked),.go]

theorem raced_pids : ∃ s, Reachable s ∧ s.pids = [2,2] ∧ s.pids.length < 65536 ∧ ¬s.pids.Nodup := by
  have hplay : ∃ s, Script.play moved racedMoves (init 1 (fun _ => 0) 7) = some s ∧
      s.pids = [2,2] := by decide +kernel
  obtain ⟨s,hs,hpids⟩ := hplay
  exact ⟨s,⟨1,fun _ => 0,7,Script.play_steps hs moved_step⟩,hpids,by simp [hpids],by simp [hpids]⟩

end PidSys

end OsKernel

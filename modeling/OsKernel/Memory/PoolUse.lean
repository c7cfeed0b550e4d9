import OsKernel.Memory.PageHand

/-! Which pools a computation works on. Every use of a bitmap is noted together with whether the
running thread holds the lock of its pool. The locks change in lock_acquire and lock_release
only. -/
namespace OsKernel
open Paging ByteMemory Exec KernelM

/-- The processor is at the same thread, the locks are as before, and the new events are about the
pools in S. -/
structure Machine.Uses (S : Set PoolFlags) (m m' : Machine) : Prop where
  runningThread : m'.runningThread = m.runningThread
  lock : ∀ pf, (m'.pool pf).lock = (m.pool pf).lock
  events : ∃ l, m'.events = m.events++l ∧ ∀ e ∈ l, e.pool ∈ S ∧ e.held = m.holds e.pool

/-- There are no new events. -/
def Machine.Quiet (m m' : Machine) : Prop := m'.events = m.events

/-- The lock of the pool was held at every new event. -/
def Machine.Guarded (m m' : Machine) : Prop :=
  ∃ l, m'.events = m.events++l ∧ ∀ e ∈ l, e.held = true

section Relations
variable {m m' m₁ m₂ : Machine} {S S' : Set PoolFlags} {pf : PoolFlags} {e : Event}

theorem Machine.holds_congr (hrun : m'.runningThread = m.runningThread)
    (hlock : (m'.pool pf).lock = (m.pool pf).lock) : m'.holds pf = m.holds pf := by
  rw [holds,holds,hrun,hlock]

theorem Machine.Uses.holds (h : m.Uses S m') (pf : PoolFlags) : m'.holds pf = m.holds pf :=
  Machine.holds_congr h.runningThread (h.lock pf)

instance : Std.Refl (Machine.Uses S) :=
  ⟨fun _ => ⟨rfl,fun _ => rfl,[],(List.append_nil _).symm,fun _ he => absurd he List.not_mem_nil⟩⟩

theorem Machine.Uses.trans (h : m.Uses S m₁) (h' : m₁.Uses S m₂) : m.Uses S m₂ := by
  obtain ⟨l,hl,hS⟩ := h.events
  obtain ⟨l',hl',hS'⟩ := h'.events
  refine ⟨h'.runningThread.trans h.runningThread,fun pf => (h'.lock pf).trans (h.lock pf),l++l',
    by rw [hl',hl,List.append_assoc],fun e he => ?_⟩
  obtain he|he := List.mem_append.mp he
  · exact hS e he
  · rw [← h.holds]
    exact hS' e he

instance : IsTrans Machine (Machine.Uses S) := ⟨fun _ _ _ => Machine.Uses.trans⟩

instance : Std.Refl Machine.Quiet := ⟨fun _ => rfl⟩

instance : IsTrans Machine Machine.Quiet where
  trans _ _ _ h h' := Eq.trans h' h

theorem Machine.Uses.quiet (h : m.Uses ∅ m') : m.Quiet m' := by
  obtain ⟨l,hl,hS⟩ := h.events
  obtain rfl : l = [] := List.eq_nil_iff_forall_not_mem.mpr fun e he => (hS e he).1
  exact hl.trans (List.append_nil _)

/-- Nothing is noted, and the locks stay. -/
theorem Machine.Uses.of_rest (hrest : m'.rest = m.rest) (he : m'.events = m.events) :
    m.Uses S m' :=
  ⟨congrArg (fun c => c.runningThread) hrest,Machine.lock_of_rest hrest,[],by simp [he],by simp⟩

theorem Machine.uses_setMem (m : Machine) (mem : ByteMemory) : m.Uses S (m.setMem mem) :=
  .of_rest rfl rfl

theorem Machine.uses_note (m : Machine) (kind : EventKind) (h : pf ∈ S) :
    m.Uses S (m.note kind pf) :=
  ⟨rfl,fun _ => rfl,[⟨kind,pf,m.holds pf⟩],rfl,by simp [h]⟩

theorem Machine.uses_setBit (m : Machine) (pf : PoolFlags) (i : ℕ) (value : Bool) :
    m.Uses S (m.setBit pf i value) :=
  .of_rest (m.setBit_rest pf i value) rfl

theorem Machine.uses_setVaddr (m : Machine) (pf : PoolFlags) (btmp : Bitmap) :
    m.Uses S (m.setVaddr pf btmp) := by
  refine ⟨m.setVaddr_runningThread pf btmp,fun _ => by rw [m.setVaddr_pool],[],?_,by simp⟩
  cases pf <;> exact (List.append_nil _).symm

theorem Machine.Uses.of_moves {α : Type} {x : KernelM α} {r : Except Panic α}
    (h : Moves (Machine.Uses S) x) (heq : x m = (r,m')) : m.Uses S m' := by
  have hx : m.Uses S (x m).2 := h m
  rwa [heq] at hx

theorem Machine.Uses.guarded (h : m.Uses S m') (hS : ∀ pf ∈ S, m.holds pf = true) :
    m.Guarded m' := by
  obtain ⟨l,hl,hl'⟩ := h.events
  exact ⟨l,hl,fun e he => (hl' e he).2.trans (hS _ (hl' e he).1)⟩

theorem Machine.Guarded.trans (h : m.Guarded m₁) (h' : m₁.Guarded m₂) : m.Guarded m₂ := by
  obtain ⟨l,hl,hheld⟩ := h
  obtain ⟨l',hl',hheld'⟩ := h'
  exact ⟨l++l',by rw [hl',hl,List.append_assoc],
    fun e he => (List.mem_append.mp he).elim (hheld e) (hheld' e)⟩

/-- One part after the other. -/
theorem Machine.Uses.guarded_iff (h : m.Uses S m₁) (h' : m₁.Uses S' m₂) :
    m.Guarded m₂ ↔ m.Guarded m₁ ∧ m₁.Guarded m₂ := by
  obtain ⟨l,hl,-⟩ := h.events
  obtain ⟨l',hl',-⟩ := h'.events
  have hall : m₂.events = m.events++(l++l') := by rw [hl',hl,List.append_assoc]
  constructor
  · rintro ⟨l₂,hl₂,hheld⟩
    obtain rfl := List.append_cancel_left (hl₂.symm.trans hall)
    exact ⟨⟨l,hl,fun e he => hheld e (List.mem_append_left l' he)⟩,
      ⟨l',hl',fun e he => hheld e (List.mem_append_right l he)⟩⟩
  · exact fun ⟨h₁,h₂⟩ => h₁.trans h₂

theorem Machine.guarded_congr (h₁ : m₁.events = m.events) (h₂ : m₂.events = m'.events) :
    m₁.Guarded m₂ ↔ m.Guarded m' := by
  rw [Guarded,Guarded,h₁,h₂]

/-- A use of a bitmap without its lock. -/
theorem Machine.not_guarded (he : m₁.events = m.events++[e]) (hheld : e.held = false) :
    ¬ m.Guarded m₁ := by
  rintro ⟨l,hl,hall⟩
  obtain rfl := List.append_cancel_left (he.symm.trans hl)
  rw [hall e List.mem_cons_self] at hheld
  contradiction

end Relations

section Quiet
variable {α β : Type} {m m₁ : Machine} {x : KernelM α} {f : α → KernelM β} {a : α}

theorem Machine.Uses.moves_quiet (h : Moves (Machine.Uses ∅) x) : Moves Machine.Quiet x :=
  fun m => (h m).quiet

/-- Where nothing is noted afterwards, the first part decides. -/
theorem Machine.guarded_bind_quiet (hf : ∀ a, Moves Machine.Quiet (f a)) :
    m.Guarded ((x >>= f) m₁).2 ↔ m.Guarded (x m₁).2 :=
  Machine.guarded_congr rfl (Moves.after (R := Machine.Quiet) hf m₁)

/-- Where both parts only use bitmaps, each is judged for itself. -/
theorem Machine.guarded_bind (hx : Moves (Machine.Uses Set.univ) x)
    (hf : ∀ a, Moves (Machine.Uses Set.univ) (f a)) : m.Guarded ((x >>= f) m).2 ↔
      m.Guarded (x m).2 ∧ (x m).2.Guarded ((x >>= f) m).2 :=
  (hx m).guarded_iff (Moves.after (R := Machine.Uses Set.univ) hf m)

theorem Machine.guarded_of_bind (hx : x m = (.ok a,m₁)) (hq : m.Quiet m₁) :
    m.Guarded ((x >>= f) m).2 ↔ m₁.Guarded (f a m₁).2 := by
  rw [Exec.bind_of_ok hx]
  exact Machine.guarded_congr hq.symm rfl

/-- A part under the locks that it needs, and what comes after it. -/
theorem Machine.Uses.guarded_bind {S : Set PoolFlags} (h : m.Uses S (x m).2)
    (hS : ∀ pf ∈ S, m.holds pf = true)
    (hf : ∀ a m', x m = (.ok a,m') → m.Uses S m' → m'.Guarded (f a m').2) :
    m.Guarded ((x >>= f) m).2 := by
  have hg := h.guarded hS
  cases hx : x m with
  | mk r m' =>
    rw [hx] at h hg
    cases r with
    | error e =>
      rw [Exec.bind_of_error hx]
      exact hg
    | ok a =>
      rw [Exec.bind_of_ok hx]
      exact hg.trans (hf a m' hx h)

theorem Machine.guarded_refl (m : Machine) : m.Guarded m :=
  ⟨[],(List.append_nil _).symm,fun _ he => absurd he List.not_mem_nil⟩

end Quiet

section Uses
variable {m : Machine} {S : Set PoolFlags} {pf : PoolFlags} {vaddr pa n v : ℕ}

theorem kassert_uses {c : Prop} [Decidable c] {func text : String} :
    Moves (Machine.Uses S) (kassert c func text) := by
  intro m
  unfold kassert OsKernel.assert
  split <;> exact Std.Refl.refl m

theorem physical_uses : Moves (Machine.Uses S) (physical vaddr) := by
  intro m
  unfold physical
  split <;> exact Std.Refl.refl m

theorem load_uses : Moves (Machine.Uses S) (load vaddr) :=
  .bind physical_uses fun _ => .bind .get fun _ => .pure _

theorem store_uses : Moves (Machine.Uses S) (store vaddr n) :=
  .bind physical_uses fun _ => .modify fun m => m.uses_setMem _

theorem loadByte_uses : Moves (Machine.Uses S) (loadByte vaddr) :=
  .bind physical_uses fun _ => .bind .get fun _ => .pure _

theorem storeByte_uses {b : BitVec 8} : Moves (Machine.Uses S) (storeByte vaddr b) :=
  .bind physical_uses fun _ => .modify fun m => m.uses_setMem _

theorem memset_uses {b : BitVec 8} : Moves (Machine.Uses S) (memset vaddr b n) := by
  refine .bind kassert_uses fun _ => ?_
  induction n generalizing vaddr with
  | zero => exact .pure _
  | succ n ih => exact .bind storeByte_uses fun _ => ih

theorem palloc_uses (h : pf ∈ S) : Moves (Machine.Uses S) (palloc pf) := by
  intro m
  rw [palloc_eq]
  cases (m.pool pf).poolBitmap.bitmapScan 1 with
  | none => exact m.uses_note .palloc h
  | some i => exact (m.uses_note .palloc h).trans (Machine.uses_setBit _ pf i true)

theorem pteAdd_uses : Moves (Machine.Uses S) (pteAdd vaddr pa) :=
  .bind load_uses fun _ => .ite store_uses (.throw _)

theorem tableEnter_uses {pde : ℕ} : Moves (Machine.Uses S) (tableEnter vaddr pa pde) :=
  .bind store_uses fun _ => .bind kassert_uses fun _ => .bind memset_uses fun _ =>
    .bind load_uses fun _ => .bind kassert_uses fun _ => store_uses

/-- A missing page table comes from the pool of the kernel, whoever the page is for. -/
theorem pageTableAdd_uses (hk : .kernel ∈ S) : Moves (Machine.Uses S) (pageTableAdd vaddr pa) :=
  .bind load_uses fun _ => .ite pteAdd_uses (.bind (palloc_uses hk) fun _ => tableEnter_uses)

theorem mapPages_uses (h : pf ∈ S) (hk : .kernel ∈ S) :
    Moves (Machine.Uses S) (mapPages pf vaddr n) := by
  induction n generalizing vaddr with
  | zero => exact .pure _
  | succ n ih =>
    exact .bind (palloc_uses h) fun _ => .bind kassert_uses fun _ =>
      .bind (pageTableAdd_uses hk) fun _ => ih

/-- Only the addresses of the kernel are shared. -/
theorem vaddrGet_uses (h : pf = .kernel → .kernel ∈ S) :
    Moves (Machine.Uses S) (vaddrGet pf n) := by
  intro m
  cases pf with
  | kernel =>
    rw [vaddrGet_kernel_eq]
    have hscan : m.Uses S (m.note .vaddrScan .kernel) := m.uses_note .vaddrScan (h rfl)
    cases (m.vbitmap .kernel).bitmapScan n with
    | none => exact hscan
    | some k =>
      exact hscan.trans ((Machine.uses_note _ .vaddrSet (h rfl)).trans
        (Machine.uses_setVaddr _ .kernel _))
  | user =>
    rw [vaddrGet_user_eq]
    cases (m.vbitmap .user).bitmapScan n with
    | none => exact Std.Refl.refl _
    | some k =>
      exact Moves.bind (.modify fun m => m.uses_setVaddr .user _)
        (fun _ => .bind kassert_uses fun _ => .pure _) m

theorem mallocPage_uses (h : pf ∈ S) (hk : .kernel ∈ S) :
    Moves (Machine.Uses S) (mallocPage pf n) :=
  .bind kassert_uses fun _ => .bind (vaddrGet_uses fun _ => hk) fun _ => .bind kassert_uses fun _ =>
    .bind (mapPages_uses h hk) fun _ => .pure _

theorem markPage_uses (h : pf = .kernel → .kernel ∈ S) :
    Moves (Machine.Uses S) (markPage pf vaddr) := by
  refine .bind .get fun m => ?_
  dsimp only
  split_ifs with h₁ h₂
  · exact .bind kassert_uses fun _ => .modify fun m => m.uses_setVaddr .user _
  · exact .bind kassert_uses fun _ => .bind (.modify fun m => m.uses_note .vaddrSet (h h₂.2))
      fun _ => .modify fun m => m.uses_setVaddr .kernel _
  · exact .throw _

theorem pageTablePteRemove_uses : Moves (Machine.Uses S) (pageTablePteRemove vaddr) :=
  .bind load_uses fun _ => .bind store_uses fun _ => .bind .get fun _ =>
    .modify fun _ => ⟨rfl,fun _ => rfl,[],(List.append_nil _).symm,by simp⟩

theorem vaddrRemove_uses (h : pf = .kernel → .kernel ∈ S) :
    Moves (Machine.Uses S) (vaddrRemove pf vaddr n) := by
  cases pf with
  | kernel =>
    refine .bind (.modify fun m => m.uses_note .vaddrSet (h rfl)) fun _ => ?_
    exact fun m => m.uses_setVaddr .kernel _
  | user => exact fun m => m.uses_setVaddr .user _

/-- lock_acquire returns to the holder. -/
theorem lockAcquire_holds (m : Machine) (pf : PoolFlags) :
    Runs (lockAcquire pf) m (fun _ m' => m'.holds pf = true) (fun _ _ => True) := by
  have hself (c : ℕ) : (m.setLock pf ⟨some m.runningThread,c⟩).holds pf = true := by
    rw [Machine.holds,m.setLock_pool,if_pos rfl]
    exact decide_eq_true rfl
  rw [Runs,lockAcquire_eq]
  split_ifs with h₁ h₂
  · rw [h₁]
    exact hself _
  · by_cases h₃ : (m.pool pf).lock.holderRepeatNr = 0
    · rw [Exec.bind_of_ok (kassert_eq h₃)]
      exact hself 1
    · rw [Exec.bind_of_error (kassert_error h₃)]
      trivial
  · trivial

theorem lockAcquire_quiet : Moves Machine.Quiet (lockAcquire pf) := by
  intro m
  cases hx : lockAcquire pf m with
  | mk r m' =>
    cases r with
    | ok u =>
      obtain ⟨l,rfl⟩ := (lockAcquire_runs m pf).of_ok hx
      rfl
    | error e =>
      obtain rfl := (lockAcquire_runs m pf).of_error hx
      rfl

theorem lockRelease_quiet : Moves Machine.Quiet (lockRelease pf) := by
  intro m
  cases hx : lockRelease pf m with
  | mk r m' =>
    cases r with
    | ok u =>
      obtain ⟨l,rfl⟩ := (lockRelease_runs m pf).of_ok hx
      rfl
    | error e =>
      obtain rfl := (lockRelease_runs m pf).of_error hx
      rfl

end Uses

section Free
variable {m : Machine} {A : FrameMap} {F : Set ℕ} {S : Set PoolFlags} {pf : PoolFlags}
  {s : Option TaskId} {v f n : ℕ}

/-- The frame of a page goes back to the pool that the page has it from. -/
theorem PageRep.unmapPage_uses (h : PageRep m A F) (hp : A (.page s v) = some f)
    (hs : m.Reaches s) (hS : (Use.page s v).pool ∈ S) : m.Uses S (unmapPage (4096*v) m).2 := by
  rw [unmapPage,Exec.bind_of_ok (h.addrV2p_eq hp hs),Exec.bind_of_ok (h.pfree_eq (h.inPool _ _ hp))]
  exact ((m.uses_note .pfree hS).trans (Machine.uses_setBit _ _ _ _)).trans
    (pageTablePteRemove_uses _)

theorem PageRep.unmapPages_uses (h : PageRep m A F)
    (hp : ∀ i, i < n → (A (.page s (v+i))).isSome ∧ ¬ m.DirPage s (v+i)) (hs : m.Reaches s)
    (hS : (Use.page s v).pool ∈ S) : m.Uses S (unmapPages (4096*v) n m).2 := by
  induction n generalizing m A v with
  | zero => exact Std.Refl.refl m
  | succ n ih =>
    obtain ⟨f,hf⟩ := Option.isSome_iff_exists.mp (hp 0 (by omega)).1
    obtain ⟨m₁,hrun,hrep,hfree,-⟩ := h.unmapPage_eq hf hs (hp 0 (by omega)).2
    have huse := h.unmapPage_uses hf hs (S := S) hS
    rw [Nat.add_zero] at hrun hrep hfree huse
    rw [hrun] at huse
    have hnext : 4096*v+pageSize = 4096*(v+1) := by
      unfold pageSize
      omega
    rw [unmapPages,Exec.bind_of_ok hrun,hnext]
    refine huse.trans (ih hrep (hfree.pages_behind hp) ?_ ?_)
    · simpa only [Machine.Reaches,Machine.runningThread_congr hfree.setup] using hs
    · cases s <;> exact hS

theorem PageRep.mfreePage_uses (h : PageRep m A F) (hn : 0 < n)
    (hp : ∀ i, i < n → (A (.page (m.space pf) (v+i))).isSome ∧ ¬ m.DirPage (m.space pf) (v+i)) :
    m.Uses {pf} (mfreePage pf (4096*v) n m).2 := by
  obtain ⟨f,hf⟩ := Option.isSome_iff_exists.mp (hp 0 hn).1
  rw [Nat.add_zero] at hf
  rw [mfreePage,Exec.bind_of_ok (h.mfreeAsserts_eq hf (m.reaches_space pf) hn)]
  refine (h.unmapPages_uses hp (m.reaches_space pf) (m.pool_space pf v)).trans ?_
  exact Moves.after (R := Machine.Uses {pf}) (fun _ => vaddrRemove_uses fun hk => hk.symm) m

end Free
end OsKernel

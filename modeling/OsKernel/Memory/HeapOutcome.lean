import OsKernel.Memory.HasPages
import OsKernel.Memory.HeapConserve

/-! How the calls of sys_malloc and sys_free end in a run of the heap, and that everything that has
been handed out can be given back. -/
namespace OsKernel
open Paging ByteMemory Exec KernelM IntrusiveList

namespace HeapSys

/-- malloc_page would hand out n pages. -/
def PagesLeft (m : Machine) (n : ℕ) : Prop := ∃ va m', mallocPage m.ownPool n m = (.ok va,m')

/-- The list of the class of the request has a block, or malloc_page has the pages for it. -/
def Served (m : Machine) (size : ℕ) : Prop :=
  if 1024 < size then PagesLeft m (divRoundUp (size+arenaSize) pageSize)
  else ∃ c, IsClass c size ∧
    (load32 m.bytes (freeListAt m.descs c+4) ≠ freeListAt m.descs c+8 ∨ PagesLeft m 1)

/-- How sys_malloc and sys_free end. -/
structure Outcome (s : HeapSys) : Prop where
  null : ∀ size, (s.m.pool s.m.ownPool).poolSize < size → sysMalloc size s.m = (.ok 0,s.m)
  served : ∀ size, size ≤ (s.m.pool s.m.ownPool).poolSize →
    (Served s.m size ↔ ∃ p m', sysMalloc size s.m = (.ok p,m'))
  nonnull : ∀ size m', sysMalloc size s.m = (.ok 0,m') →
    (s.m.pool s.m.ownPool).poolSize < size
  freed : ∀ p size, s.live p = some size → ∃ m', sysFree p s.m = (.ok (),m')

/-- The same, read off the lists, the bitmaps and the page directory. -/
def HasRoom (m : Machine) (size : ℕ) : Prop :=
  if 1024 < size then m.HasPages m.ownPool (divRoundUp (size+arenaSize) pageSize)
  else ∃ c, IsClass c size ∧
    (load32 m.bytes (freeListAt m.descs c+4) ≠ freeListAt m.descs c+8 ∨ m.HasPages m.ownPool 1)

/-- sys_malloc returns a new block, or NULL in an unchanged state. -/
def Answers (s : HeapSys) (size : ℕ) : Prop := ∃ p m', sysMalloc size s.m = (.ok p,m') ∧
  (p = 0 ∧ m' = s.m ∨ p ≠ 0 ∧ Fresh s p size m')

section Outcomes
variable {m₀ : Machine} {A A₀ : FrameMap} {F : Set ℕ} {s : HeapSys} {H : Heap} {c : Fin 7}
  {n size : ℕ}

theorem Inv.pagesLeft_iff (h : Inv m₀ A₀ s A H) :
    PagesLeft s.m n ↔ s.m.Fits A s.m.ownPool n := by
  have hruns := h.rep.toOwnPages.mallocPage_runs (n := n)
  rw [← Machine.ownPool_congr h.rep.setup] at hruns
  obtain ⟨r,m',hcall⟩ : ∃ r m', mallocPage s.m.ownPool n s.m = (r,m') := ⟨_,_,rfl⟩
  cases r with
  | ok va => exact iff_of_true ⟨va,m',hcall⟩ (hruns.of_ok hcall).1
  | error e =>
    refine iff_of_false ?_ (hruns.of_error hcall)
    rintro ⟨va,m'',hok⟩
    rw [hcall] at hok
    simp at hok

/-- CanServe, as it shows in the memory. -/
theorem Inv.served_iff (h : Inv m₀ A₀ s A H) (h₀ : PageRep m₀ A₀ F) :
    Served s.m size ↔ s.m.CanServe A H size := by
  have hlists := (h.conserves h₀).lists
  have hempty (c : Fin 7) :
      load32 s.m.bytes (freeListAt s.m.descs c+4) = freeListAt s.m.descs c+8 ↔ H.free c = [] :=
    hlists.isEmpty_iff c
  unfold Served Machine.CanServe
  simp only [h.pagesLeft_iff,Ne,hempty]

theorem Inv.outcome (h : Inv m₀ A₀ s A H) (h₀ : PageRep m₀ A₀ F) : Outcome s := by
  have hruns (size : ℕ) : Runs (sysMalloc size) s.m _ _ :=
    h.rep.sysMalloc_runs h₀ h.tight h.lock
  rw [← Machine.ownPool_congr h.rep.setup] at hruns
  refine ⟨fun size hlt => ?_,fun size hle => ?_,fun size m' heq => ?_,fun p size hlive => ?_⟩
  · rw [sysMalloc_eq,if_pos hlt]
    rfl
  · rw [h.served_iff h₀]
    obtain ⟨r,m',hcall⟩ : ∃ r m', sysMalloc size s.m = (r,m') := ⟨_,_,rfl⟩
    cases r with
    | ok p =>
      obtain ⟨hlt,-⟩|⟨-,hs,-⟩ := (hruns size).of_ok hcall
      · exact absurd hle (Nat.not_le_of_lt hlt)
      · exact iff_of_true hs ⟨p,m',hcall⟩
    | error e =>
      refine iff_of_false ((hruns size).of_error hcall).2 ?_
      rintro ⟨p,m'',hok⟩
      rw [hcall] at hok
      simp at hok
  · obtain ⟨hlt,-⟩|⟨-,-,A',H',-,-,ha,-⟩ := (hruns size).of_ok heq
    · exact hlt
    · exact absurd rfl ha.nonnull
  · exact h.sysFree_ok h₀ hlive

/-- How the calls end in every state of every run: sys_malloc returns NULL exactly when the
request is larger than the pool, and then nothing has changed; any other request returns a pointer
or fails an assertion, and sys_free never does. -/
theorem reachable_outcome (hs : HeapStart m₀) (h : Reachable m₀ s) : Outcome s := by
  obtain ⟨A₀,hrep₀,hlock₀⟩ := hs.rep
  obtain ⟨A,H,hinv⟩ := h.inv hrep₀ hlock₀
  exact hinv.outcome hrep₀.rep

theorem reachable_outcome_small : ∃ m₀ m₁ m₂ m₃ p q r, ThreeCalls m₀ m₁ m₂ m₃ p q r ∧
    Outcome ⟨m₃,inUse₃ p q r⟩ := by
  obtain ⟨m₀,m₁,m₂,m₃,p,q,r,h⟩ := exists_threeCalls
  exact ⟨m₀,m₁,m₂,m₃,p,q,r,h,reachable_outcome h.start h.reachable₃⟩

theorem Inv.hasRoom_iff (h : Inv m₀ A₀ s A H) (h₀ : PageRep m₀ A₀ F) :
    HasRoom s.m size ↔ s.m.CanServe A H size := by
  have hlists := (h.conserves h₀).lists
  have hempty (c : Fin 7) :
      load32 s.m.bytes (freeListAt s.m.descs c+4) = freeListAt s.m.descs c+8 ↔ H.free c = [] :=
    hlists.isEmpty_iff c
  unfold HasRoom Machine.CanServe
  simp only [h.rep.rep.fits_iff h.rep.vad,Ne,hempty]

theorem Inv.answers_iff (h : Inv m₀ A₀ s A H) (h₀ : PageRep m₀ A₀ F) :
    Answers s size ↔ (s.m.pool s.m.ownPool).poolSize < size ∨ HasRoom s.m size := by
  have hruns : Runs (sysMalloc size) s.m _ _ := h.rep.sysMalloc_runs h₀ h.tight h.lock
  rw [← Machine.ownPool_congr h.rep.setup] at hruns
  rw [h.hasRoom_iff h₀]
  constructor
  · rintro ⟨p,m',hcall,-⟩
    obtain ⟨hlt,-⟩|⟨-,hserve,-⟩ := hruns.of_ok hcall
    · exact .inl hlt
    · exact .inr hserve
  · intro hroom
    obtain ⟨r,m',hcall⟩ : ∃ r m', sysMalloc size s.m = (r,m') := ⟨_,_,rfl⟩
    cases r with
    | ok p =>
      refine ⟨p,m',hcall,?_⟩
      obtain ⟨-,rfl,rfl⟩|⟨-,-,A',H',-,-,ha,-⟩ := hruns.of_ok hcall
      · exact .inl ⟨rfl,rfl⟩
      · exact .inr ⟨ha.nonnull,h.sysMalloc_fresh h₀ hcall ha.nonnull⟩
    | error e =>
      obtain ⟨hle,hserve⟩ := hruns.of_error hcall
      exact absurd hroom (not_or.mpr ⟨Nat.not_lt_of_le hle,hserve⟩)

/-- A kernel thread asks for 16 megabytes, which its pool has. They are more pages than malloc_page
accepts. -/
theorem sysMalloc_halts : ∃ m₀, HeapStart m₀ ∧ 2^24 ≤ (m₀.pool m₀.ownPool).poolSize ∧
    (∃ m', sysMalloc (2^24) m₀ = (.error (.assert "malloc_page" "pg_cnt>0&&pg_cnt<3840"),m')) ∧
    ¬Answers (init m₀) (2^24) := by
  obtain ⟨m₀,A₀,hs,-,hlock,hown,hsize,-⟩ := exists_heapStart
  have hsize' : 2^24 ≤ (m₀.pool m₀.ownPool).poolSize := by rwa [hown]
  have hcall : ∃ m', sysMalloc (2^24) m₀ =
      (.error (.assert "malloc_page" "pg_cnt>0&&pg_cnt<3840"),m') := by
    rw [sysMalloc_eq,if_neg (Nat.not_lt_of_le hsize'),Exec.bind_of_ok (lockAcquire_free hlock)]
    exact ⟨_,rfl⟩
  refine ⟨m₀,hs,hsize',hcall,?_⟩
  obtain ⟨m',hcall⟩ := hcall
  rintro ⟨p,m'',hok,-⟩
  have he := (Prod.mk.inj (hcall.symm.trans hok)).1
  cases he

/-- When sys_malloc keeps the kernel running: in every state of every run it answers, with a block
or with NULL, exactly when the request is larger than the pool, or there is room for it. Any other
request fails an assertion before one of its returns of NULL is reached. -/
theorem reachable_answers_iff (hs : HeapStart m₀) (h : Reachable m₀ s) (size : ℕ) :
    Answers s size ↔ (s.m.pool s.m.ownPool).poolSize < size ∨ HasRoom s.m size := by
  obtain ⟨A₀,hrep₀,hlock₀⟩ := hs.rep
  obtain ⟨A,H,hinv⟩ := h.inv hrep₀ hlock₀
  exact hinv.answers_iff hrep₀.rep

/-- After three calls there is a block for a fourth one, but 16 megabytes are still too many
pages. -/
theorem reachable_answers_small : ∃ m₀ s, HeapStart m₀ ∧ Reachable m₀ s ∧ HasRoom s.m 24 ∧
    Answers s 24 ∧ ¬Answers s (2^24) := by
  obtain ⟨m₀,m₁,m₂,m₃,p,q,r,h,hown,hsize,hroom⟩ := exists_threeCalls_roomy
  obtain ⟨A₀,hrep₀,hlock₀⟩ := h.start.rep
  obtain ⟨A,H,hinv⟩ := h.reachable₃.inv hrep₀ hlock₀
  have hserve : HasRoom m₃ 24 :=
    (hinv.hasRoom_iff hrep₀.rep).mpr (hinv.canServe 24 (k := 987) hown (by decide) hroom)
  have hanswers := reachable_answers_iff h.start h.reachable₃
  refine ⟨m₀,_,h.start,h.reachable₃,hserve,(hanswers 24).mpr (.inr hserve),fun hbig => ?_⟩
  have hpool : (m₃.pool m₃.ownPool).poolSize = (m₀.pool .kernel).poolSize := by
    rw [Machine.ownPool_congr hinv.rep.setup,hown]
    exact congrArg (fun m => (m.pool .kernel).poolSize) hinv.rep.setup
  obtain hlt|hroom := (hanswers (2^24)).mp hbig
  · exact absurd (hpool ▸ hsize) (Nat.not_le_of_lt hlt)
  · have hpages : m₃.HasPages m₃.ownPool 4097 := hroom
    exact absurd hpages.2.1 (by decide)

/-- The pointers in use can be given back in any order, and then the bitmaps are those of the start
of the run. -/
theorem reachable_freed (hs : HeapStart m₀) (h : Reachable m₀ s) {ps : List ℕ} (hnd : ps.Nodup)
    (hps : ∀ p, p ∈ ps ↔ s.live p ≠ none) :
    ∃ m', ps.forM sysFree s.m = (.ok (),m') ∧ Restored m₀ m' := by
  obtain ⟨A₀,hrep₀,hlock₀⟩ := hs.rep
  induction ps generalizing s with
  | nil =>
    obtain ⟨A,H,hinv⟩ := h.inv hrep₀ hlock₀
    refine ⟨s.m,rfl,(hinv.empty hrep₀ fun p => ?_).2⟩
    by_contra hp
    exact List.not_mem_nil ((hps p).mpr hp)
  | cons p ps ih =>
    obtain ⟨A,H,hinv⟩ := h.inv hrep₀ hlock₀
    obtain ⟨size,hlive⟩ := Option.ne_none_iff_exists'.mp ((hps p).mp List.mem_cons_self)
    obtain ⟨m₁,hrun⟩ := (hinv.outcome hrep₀.rep).freed p size hlive
    obtain ⟨hp,hnd⟩ := List.nodup_cons.mp hnd
    have hstep : Step s ⟨m₁,Function.update s.live p none⟩ := .call (.sysFree hlive hrun)
    obtain ⟨m',hrest,hrestored⟩ := ih (.tail h hstep) hnd fun q => by
      by_cases hq : q = p
      · simp [hq,hp]
      · have hmem := hps q
        rw [List.mem_cons,or_iff_right hq] at hmem
        rw [hmem]
        dsimp only
        rw [Function.update_of_ne hq]
    exact ⟨m',(Exec.bind_of_ok (f := fun _ => ps.forM sysFree) hrun).trans hrest,hrestored⟩

theorem reachable_freed_small : ∃ m₀ m₁ m₂ m₃ p q r, ThreeCalls m₀ m₁ m₂ m₃ p q r ∧
    ∃ m₄, [q,r,p].forM sysFree m₃ = (.ok (),m₄) ∧ Restored m₀ m₄ := by
  obtain ⟨m₀,m₁,m₂,m₃,p,q,r,h⟩ := exists_threeCalls
  have hperm : [q,r,p].Perm [p,q,r] :=
    (List.perm_append_comm : ([q,r]++[p]).Perm ([p]++[q,r]))
  have hfreed := reachable_freed h.start h.reachable₃ (hperm.nodup_iff.mpr h.nodup) fun x => by
    rw [hperm.mem_iff]
    exact h.mem_iff x
  exact ⟨m₀,m₁,m₂,m₃,p,q,r,h,hfreed⟩

end Outcomes
end HeapSys
end OsKernel

import OsKernel.Memory.Heap
import OsKernel.Memory.PoolUse

/-! The pages that one thread has got from its pool since some state, and that it has not given
back: what malloc_page and mfree_page do to them, to all other pages, and to the data. -/
namespace OsKernel
open Paging ByteMemory Exec KernelM

/-- The address space that the running thread allocates from. -/
def Machine.own (m : Machine) : Option TaskId := m.space m.ownPool

section Own
variable {m m' m₀ : Machine} {A A' A₀ : FrameMap} {F : Set ℕ} {C : Set ℕ} {s : Option TaskId}
  {v f p n q : ℕ} {l : PoolLock} {pf : PoolFlags}

theorem Machine.ownPool_congr (h : m'.setup = m.setup) : m'.ownPool = m.ownPool :=
  congrArg (fun c => c.ownPool) h

theorem Machine.own_congr (h : m'.setup = m.setup) : m'.own = m.own :=
  congrArg (fun c => c.own) h

theorem Machine.descs_congr (h : m'.setup = m.setup) : m'.descs = m.descs :=
  congrArg (fun c => c.descs) h

/-- The state differs from m₀ by the pages in C of the running thread, which are mapped now, and
by page tables for them. -/
structure OwnPages (m₀ : Machine) (A₀ : FrameMap) (m : Machine) (A : FrameMap) (C : Set ℕ) :
    Prop where
  rep : PageRep m A ∅
  vad : VaddrRep m A ∅
  setup : m.setup = m₀.setup
  new : ∀ v, v ∈ C → (A (.page m₀.own v)).isSome ∧ A₀ (.page m₀.own v) = none
  old : ∀ v, v ∉ C → A (.page m₀.own v) = A₀ (.page m₀.own v)
  other : ∀ x, (∀ v, x ≠ .page m₀.own v) → (∀ t i, m₀.own = some t → x ≠ .table t i) → A x = A₀ x
  table : ∀ t i f, A₀ (.table t i) = some f → A (.table t i) = some f

theorem OwnPages.refl (h : PageRep m A ∅) (hv : VaddrRep m A ∅) : OwnPages m A m A ∅ :=
  ⟨h,hv,rfl,fun _ hv => absurd hv (Set.notMem_empty _),fun _ _ => rfl,fun _ _ _ => rfl,
    fun _ _ _ hf => hf⟩

theorem OwnPages.space_eq (h : OwnPages m₀ A₀ m A C) : m.space m₀.ownPool = m₀.own :=
  Machine.space_congr h.setup _

/-- Writes to data keep the pages. -/
theorem OwnPages.setMem (h : OwnPages m₀ A₀ m A C) {W : Set ℕ} {mem' : ByteMemory}
    (ho : Only (m.dataPages A) W m.mem mem') : OwnPages m₀ A₀ (m.setMem mem') A C :=
  ⟨h.rep.setData ho,⟨h.vad.bits,h.vad.userStart,h.vad.userLen,h.vad.kernelLen,h.vad.pending⟩,
    h.setup,h.new,h.old,h.other,h.table⟩

theorem OwnPages.setLock (h : OwnPages m₀ A₀ m A C) : OwnPages m₀ A₀ (m.setLock pf l) A C :=
  ⟨h.rep.setLock,h.vad.setLock,(m.setLock_setup pf l).trans h.setup,h.new,h.old,h.other,h.table⟩

theorem OwnPages.run_acts {α : Type} {x : KernelM α} {r : α} {V' : ByteMemory}
    (h : OwnPages m₀ A₀ m A C) (hx : Acts m (m.dataPages A) Set.univ x (m.data A) r V') :
    ∃ mem', x m = (.ok r,m.setMem mem') ∧ OwnPages m₀ A₀ (m.setMem mem') A C ∧
      (m.setMem mem').data A = V' := by
  obtain ⟨mem',hrun,-,hview,ho⟩ := h.rep.run_acts hx
  exact ⟨mem',hrun,h.setMem ho,hview⟩

/-- A new page holds no directory. -/
theorem OwnPages.not_dirPage (h : OwnPages m₀ A₀ m A C) (h₀ : PageRep m₀ A₀ F) (hv : v ∈ C) :
    ¬ m.DirPage m₀.own v := by
  rw [Machine.dirPage_iff_congr h.setup]
  rintro ⟨hs,t,ht,rfl⟩
  have hdir := (h₀.dir t ht).2
  have hnone := (h.new _ hv).2
  rw [hs] at hnone
  rw [hnone] at hdir
  contradiction

/-- The new pages hold data. -/
theorem OwnPages.dataPages (h : OwnPages m₀ A₀ m A C) (h₀ : PageRep m₀ A₀ F) (hv : v ∈ C) :
    (m.dataPages A v).isSome ∧ v < 2^20 := by
  obtain ⟨f,hf⟩ := Option.isSome_iff_exists.mp (h.new v hv).1
  have hs : m.Reaches m₀.own := by
    rw [← h.space_eq]
    exact m.reaches_space _
  have hlt := (h.rep.inSpace hf).lt h.rep.toLayout
  unfold recursivePage at hlt
  rw [h.rep.dataPages_page hs hf (h.not_dirPage h₀ hv)]
  exact ⟨rfl,by omega⟩

theorem Machine.dataPages_low (m : Machine) (A : FrameMap) (hf : f < 256) :
    m.dataPages A (kernelHalf+f) = some f := by
  rw [Machine.dataPages,if_pos (by omega),Nat.add_sub_cancel_left]

/-- A page of the space that is not mapped holds no data. -/
theorem PageRep.dataPages_none (h : PageRep m A F) (hs : m.Reaches s) (hin : m.InSpace s v)
    (hA : A (.page s v) = none) : m.dataPages A v = none := by
  have hhalf {s s' : Option TaskId} {v : ℕ} (h₁ : m.InSpace s v) (h₂ : m.InSpace s' v)
      (hs₁ : m.Reaches s) (hs₂ : m.Reaches s') : s = s' := by
    rcases hs₁ with rfl|rfl <;> rcases hs₂ with rfl|rfl
    · rfl
    · have hle := h₁.1
      have hlt := h₂.2.2
      unfold kernelHeapPage at hle
      unfold kernelHalf at hlt
      omega
    · have hle := h₂.1
      have hlt := h₁.2.2
      unfold kernelHeapPage at hle
      unfold kernelHalf at hlt
      omega
    · rfl
  by_contra hne
  obtain ⟨f,hf⟩ := Option.ne_none_iff_exists'.mp hne
  obtain ⟨rfl,hlt⟩|⟨s',hs',hp,-⟩ := Machine.dataPages_cases hf
  · cases s with
    | none =>
      have hle := hin.1
      unfold kernelHeapPage kernelHalf at hle
      omega
    | some t =>
      have hlt' := hin.2.2
      omega
  · rw [hhalf (h.inSpace hp) hin hs' hs,hA] at hp
    contradiction

/-- What has grown shows the old data. -/
theorem Gains.dataPages {N : Finset Use} (hg : Gains m A N m' A') (h' : PageRep m' A' F)
    (hv : m.dataPages A v = some f) : m'.dataPages A' v = some f := by
  obtain ⟨rfl,hlt⟩|⟨s,hs,hp,hdir⟩ := Machine.dataPages_cases hv
  · exact m'.dataPages_low A' hlt
  · refine h'.dataPages_page ?_ (hg.le hp) ?_
    · rwa [Machine.Reaches,Machine.runningThread_congr hg.setup]
    · rwa [Machine.dirPage_iff_congr hg.setup]

theorem Gains.data_eq {N : Finset Use} (hg : Gains m A N m' A') (h' : PageRep m' A' F)
    (hq : (m.dataPages A (q/4096)).isSome) : m'.data A' q = m.data A q := by
  obtain ⟨f,hf⟩ := Option.isSome_iff_exists.mp hq
  rw [Machine.data,Machine.data,view_of_some hf,view_of_some (hg.dataPages h' hf)]
  exact hg.data f (Machine.dataPages_dataFrame hf) _ (by omega)

/-- malloc_page hands out new pages, and changes no data. -/
theorem OwnPages.mallocPage_runs (h : OwnPages m₀ A₀ m A C) :
    Runs (mallocPage m₀.ownPool n) m
      (fun va m' => m.Fits A m₀.ownPool n ∧ ∃ p A', va = 4096*p ∧ p ≠ 0 ∧ 0 < n ∧
        OwnPages m₀ A₀ m' A' (C ∪ { v | p ≤ v ∧ v < p+n }) ∧
        (∀ v, p ≤ v → v < p+n → v ∉ C ∧ m.dataPages A v = none) ∧
        (∀ v f, m.dataPages A v = some f → m'.dataPages A' v = some f) ∧
        (∀ q, (m.dataPages A (q/4096)).isSome → m'.data A' q = m.data A q) ∧
        (∀ pf, (m'.pool pf).lock = (m.pool pf).lock) ∧ m.LeavesRoom m₀.ownPool n m')
      (fun _ _ => ¬ m.Fits A m₀.ownPool n) := by
  refine (h.rep.mallocPage_runs h.vad).mono ?_ fun _ _ he => he
  rintro _ m' ⟨k,A',rfl,hh,hrep'⟩
  have hg := hh.gains
  obtain ⟨-,hscan⟩ := h.vad.scan hh.pos hh.scan
  have hreach := m.reaches_space m₀.ownPool
  have hne : firstPage (m.space m₀.ownPool)+k ≠ 0 := by
    have hpos : 0 < firstPage (m.space m₀.ownPool) := by
      cases m₀.ownPool <;> exact Nat.succ_pos _
    omega
  have hvad' := hh.vaddrRep h.vad
  rw [h.space_eq] at hg hscan hreach hne ⊢
  generalize firstPage m₀.own+k = p at hg hscan hne ⊢
  have hrange : ∀ v, p ≤ v → v < p+n → m.InSpace m₀.own v ∧ A (.page m₀.own v) = none := by
    intro v h₁ h₂
    have hv := hscan (v-p) (by omega)
    rw [show p+(v-p) = v by omega] at hv
    exact ⟨hv.1,hv.2.1⟩
  have hout : ∀ v, p ≤ v → v < p+n → v ∉ C := by
    intro v h₁ h₂ hv
    have hsome := (h.new v hv).1
    rw [(hrange v h₁ h₂).2] at hsome
    contradiction
  refine ⟨hh.fits,p,A',rfl,hne,hh.pos,⟨hrep',hvad',hg.setup.trans h.setup,?_,?_,?_,?_⟩,?_,
    fun v f => hg.dataPages hrep',fun q => hg.data_eq hrep',fun pf => ?_,hh.leavesRoom⟩
  · rintro v (hv|⟨h₁,h₂⟩)
    · obtain ⟨f,hf⟩ := Option.isSome_iff_exists.mp (h.new v hv).1
      exact ⟨Option.isSome_of_eq_some (hg.le hf),(h.new v hv).2⟩
    · refine ⟨(hg.new _ (mem_newUses_page.mpr ⟨rfl,h₁,h₂⟩)).2,?_⟩
      rw [← h.old v (hout v h₁ h₂),(hrange v h₁ h₂).2]
  · intro v hv
    rw [hg.old,h.old v fun hc => hv (.inl hc)]
    exact fun hc => hv (.inr (mem_newUses_page.mp hc).2)
  · intro x hpage htable
    rw [hg.old,h.other x hpage htable]
    intro hc
    rcases mem_newUses.mp hc with hc|hc
    · obtain ⟨w,-,-,hw⟩ := mem_newPages.mp hc
      exact hpage w hw
    · obtain ⟨t,w,hs,-,-,hw,-⟩ := mem_newTables.mp hc
      exact htable t _ hs hw
  · exact fun t i f hf => hg.le (h.table t i f hf)
  · intro v h₁ h₂
    exact ⟨hout v h₁ h₂,h.rep.dataPages_none hreach (hrange v h₁ h₂).1 (hrange v h₁ h₂).2⟩
  · have hlock := Machine.lock_of_rest hh.grow.rest pf
    rwa [Machine.setVaddr_pool] at hlock

/-- mfree_page takes the pages back, and changes no data of other pages. -/
theorem OwnPages.mfreePage_eq (h : OwnPages m₀ A₀ m A C) (h₀ : PageRep m₀ A₀ F) (hn : 0 < n)
    (hC : ∀ v, p ≤ v → v < p+n → v ∈ C) :
    ∃ m' A', mfreePage m₀.ownPool (4096*p) n m = (.ok (),m') ∧
      OwnPages m₀ A₀ m' A' (C \ { v | p ≤ v ∧ v < p+n }) ∧
      (∀ v, v < p ∨ p+n ≤ v → m'.dataPages A' v = m.dataPages A v) ∧
      (∀ q, q/4096 < p ∨ p+n ≤ q/4096 → m'.data A' q = m.data A q) ∧
      m.Uses {m₀.ownPool} m' := by
  have hp : ∀ i, i < n → (A (.page m₀.own (p+i))).isSome ∧ ¬ m.DirPage m₀.own (p+i) := fun i hi =>
    ⟨(h.new _ (hC _ (by omega) (by omega))).1,h.not_dirPage h₀ (hC _ (by omega) (by omega))⟩
  have hin : firstPage m₀.own ≤ p := by
    obtain ⟨f,hf⟩ := Option.isSome_iff_exists.mp (hp 0 hn).1
    rw [Nat.add_zero] at hf
    exact (h.rep.inSpace hf).firstPage_le
  have heq := h.space_eq
  have hp' : ∀ i, i < n → (A (.page (m.space m₀.ownPool) (p+i))).isSome ∧
      ¬ m.DirPage (m.space m₀.ownPool) (p+i) := by
    rw [heq]
    exact hp
  obtain ⟨m₁,events,hrun,hrep₁,hfree,-⟩ := h.rep.mfreePage_eq h.vad hn hp'
  have huse := h.rep.mfreePage_uses hn hp'
  have hvad := h.vad.free hfree (fun i hi => by rw [heq]; exact (hp i hi).1)
    (by rw [heq]; exact hin)
  rw [heq] at hrun hrep₁ hfree hvad
  have hlen : ((m.vbitmap m₀.ownPool).setRange (p-firstPage m₀.own) false n).btmpBytesLen =
      (m₁.vbitmap m₀.ownPool).btmpBytesLen := by
    rw [Bitmap.setRange_btmpBytesLen,hfree.vbitmap]
  generalize hm' : ({ m₁.setVaddr m₀.ownPool ((m.vbitmap m₀.ownPool).setRange
    (p-firstPage m₀.own) false n) with events := events } : Machine) = m' at hrun
  have hset : m'.setup = m.setup := by
    rw [← hm']
    exact (Machine.setVaddr_setup hlen).trans hfree.setup
  have hrep' : PageRep m' (A.drop m₀.own p n) ∅ := by
    rw [← hm']
    exact (hrep₁.setVaddr hlen).congr rfl rfl fun _ _ => rfl
  have hmem : m'.mem = m₁.mem := by
    rw [← hm']
    exact m₁.setVaddr_mem _ _
  have hpages : ∀ v, v < p ∨ p+n ≤ v →
      m'.dataPages (A.drop m₀.own p n) v = m.dataPages A v := by
    intro v hv
    have hdrop : ∀ s, A.drop m₀.own p n (.page s v) = A (.page s v) := by
      intro s
      rw [FrameMap.drop_page,if_neg (by omega)]
    have hdir := Machine.dirPage_iff_congr hset none v
    simp only [Machine.dataPages,hdrop,Machine.runningThread_congr hset]
    split_ifs <;> first | rfl | tauto
  rw [hrun] at huse
  refine ⟨m',_,hrun,⟨hrep',?_,hset.trans h.setup,?_,?_,?_,?_⟩,hpages,fun q hq => ?_,huse⟩
  · rw [← hm']
    exact ⟨hvad.bits,hvad.userStart,hvad.userLen,hvad.kernelLen,hvad.pending⟩
  · rintro v ⟨hv,hout⟩
    rw [FrameMap.drop_page,if_neg fun hc => hout hc.2]
    exact h.new v hv
  · intro v hv
    rw [FrameMap.drop_page]
    by_cases hr : p ≤ v ∧ v < p+n
    · rw [if_pos ⟨rfl,hr⟩,(h.new v (hC v hr.1 hr.2)).2]
    · rw [if_neg fun hc => hr hc.2]
      exact h.old v fun hc => hv ⟨hc,hr⟩
  · intro x hpage htable
    rw [← h.other x hpage htable]
    cases x with
    | page s v =>
      rw [FrameMap.drop_page,if_neg]
      rintro ⟨rfl,-⟩
      exact hpage v rfl
    | table t i => rfl
  · exact h.table
  · cases hv : m.dataPages A (q/4096) with
    | none =>
      have hv' := (hpages _ hq).trans hv
      simp only [Machine.data,view,hv,hv']
    | some f =>
      have hv' := (hpages _ hq).trans hv
      rw [Machine.data,Machine.data,view_of_some hv,view_of_some hv',hmem]
      refine hfree.data f ?_ _ (by omega)
      exact (Machine.dataPages_dataFrame hv').mono (hset.trans hfree.setup.symm).symm
        fun _ _ hp => hp

end Own
end OsKernel

import OsKernel.Memory.PageLookup

/-! The calls that give a page a frame: palloc and page_table_add. Their specifications say how
the map grows, and exactly when they stop the kernel. -/
namespace OsKernel
open Paging ByteMemory Exec KernelM

/-- The state without memory, the bits of the pools and the events. -/
def Machine.rest (m : Machine) : Machine :=
  { m with
    mem := fun _ => 0
    pool := fun pf => { m.pool pf with
      poolBitmap := { (m.pool pf).poolBitmap with bits := fun _ => 0 } }
    events := [] }

section Rest
variable {m m' : Machine}

theorem Machine.setup_of_rest (h : m'.rest = m.rest) : m'.setup = m.setup :=
  congrArg (fun c => c.setup) h

theorem Machine.lock_of_rest (h : m'.rest = m.rest) (pf : PoolFlags) :
    (m'.pool pf).lock = (m.pool pf).lock :=
  congrArg (fun c => (c.pool pf).lock) h

theorem Machine.task_of_rest (h : m'.rest = m.rest) : m'.task = m.task :=
  congrArg (fun c => c.task) h

theorem Machine.kernelVaddr_of_rest (h : m'.rest = m.rest) : m'.kernelVaddr = m.kernelVaddr :=
  congrArg (fun c => c.kernelVaddr) h

theorem Machine.tlb_of_rest (h : m'.rest = m.rest) : m'.tlb = m.tlb :=
  congrArg (fun c => c.tlb) h

variable (m) in
theorem Machine.setBit_rest (pf : PoolFlags) (i : ℕ) (value : Bool) :
    (m.setBit pf i value).rest = m.rest := by
  have hp : (m.setBit pf i value).rest.pool = m.rest.pool := by
    funext pf'
    by_cases hpf : pf' = pf
    · subst hpf
      simp [rest,setBit,setBitmap,setPool]
    · simp [rest,setBit,setBitmap,setPool,hpf]
  exact congrArg (fun p => { m.rest with pool := p }) hp

end Rest

/-- The map has grown by the uses in N, whose frames come from the free positions of the
pools. The data is as before. -/
structure Grow (m : Machine) (A : FrameMap) (N : Finset Use) (m' : Machine) (A' : FrameMap) :
    Prop where
  rest : m'.rest = m.rest
  new : ∀ x, x ∈ N → A x = none ∧ (A' x).isSome
  old : ∀ x, x ∉ N → A' x = A x
  free : ∀ pf, m'.free pf+(N.filter fun x => x.pool = pf).card = m.free pf
  data : ∀ g, m.DataFrame A g → SameFrame m.mem m'.mem g

section Growth
variable {m m' m'' : Machine} {A A' A'' : FrameMap} {F : Set ℕ} {N N' : Finset Use}

theorem Grow.le (h : Grow m A N m' A') {x : Use} {f : ℕ} (hx : A x = some f) :
    A' x = some f := by
  rw [h.old x fun hn => by simp [(h.new x hn).1] at hx,hx]

theorem Machine.dirPage_iff_congr (h : m'.setup = m.setup) (s : Option TaskId) (v : ℕ) :
    m'.DirPage s v ↔ m.DirPage s v := by
  simp only [Machine.DirPage,Machine.isProc_congr h,Machine.dirPage_congr h]

theorem Machine.DataFrame.mono {g : ℕ} (hg : m.DataFrame A g) (h : m'.setup = m.setup)
    (hle : ∀ s v, A (.page s v) = some g → A' (.page s v) = some g) : m'.DataFrame A' g := by
  rcases hg with hg | ⟨s,v,hp,hn⟩
  · exact .inl hg
  · exact .inr ⟨s,v,hle s v hp,fun hd => hn ((Machine.dirPage_iff_congr h s v).mp hd)⟩

theorem Grow.dataFrame (h : Grow m A N m' A') {g : ℕ} (hg : m.DataFrame A g) :
    m'.DataFrame A' g :=
  hg.mono (m.setup_of_rest h.rest) fun _ _ => h.le

theorem Grow.refl : Grow m A ∅ m A :=
  ⟨rfl,by simp,fun _ _ => rfl,by simp,fun g _ => .refl _ g⟩

theorem Grow.trans (h : Grow m A N m' A') (h' : Grow m' A' N' m'' A'') :
    Grow m A (N ∪ N') m'' A'' := by
  have hdis : Disjoint N N' := by
    rw [Finset.disjoint_left]
    intro x hx hx'
    have h₁ := (h.new x hx).2
    rw [(h'.new x hx').1] at h₁
    contradiction
  refine ⟨h'.rest.trans h.rest,fun x hx => ?_,fun x hx => ?_,fun pf => ?_,fun g hg =>
    (h.data g hg).trans (h'.data g (h.dataFrame hg))⟩
  · rcases Finset.mem_union.mp hx with hx | hx
    · obtain ⟨f,hf⟩ := Option.isSome_iff_exists.mp (h.new x hx).2
      exact ⟨(h.new x hx).1,Option.isSome_of_eq_some (h'.le hf)⟩
    · have hn := (h'.new x hx).1
      rw [h.old x fun hx' => Finset.disjoint_left.mp hdis hx' hx] at hn
      exact ⟨hn,(h'.new x hx).2⟩
  · rw [Finset.mem_union,not_or] at hx
    rw [h'.old x hx.2,h.old x hx.1]
  · rw [Finset.filter_union,Finset.card_union_of_disjoint
      (Finset.disjoint_filter_filter hdis),← h.free pf,← h'.free pf]
    omega

end Growth

section Palloc
variable {m : Machine} {A : FrameMap} {F : Set ℕ} {pf : PoolFlags}

theorem Machine.setBit_free {i : ℕ} (hi : (m.pool pf).poolBitmap.bitmapScan 1 = some i)
    (pf' : PoolFlags) :
    (m.setBit pf i true).free pf'+(if pf' = pf then 1 else 0) = m.free pf' := by
  rw [free,(m.setBit_pool pf i pf' true).2]
  by_cases hpf : pf' = pf
  · subst hpf
    rw [if_pos rfl,if_pos rfl]
    exact (m.pool pf').poolBitmap.free_bitmapSet hi
  · simp [hpf,free]

/-- What palloc does: it notes the call, and sets the first clear bit. -/
theorem palloc_eq (m : Machine) (pf : PoolFlags) :
    palloc pf m = match (m.pool pf).poolBitmap.bitmapScan 1 with
      | none => (.error (.assert "palloc" "idx!=-1"),m.note .palloc pf)
      | some i => (.ok ((m.pool pf).phyAddrStart+i*pageSize),
          (m.note .palloc pf).setBit pf i true) := by
  have h : palloc pf m = (match (m.pool pf).poolBitmap.bitmapScan 1 with
    | none => throw (.assert "palloc" "idx!=-1")
    | some idx => do
      modify fun m' => m'.setBitmap pf ((m.pool pf).poolBitmap.bitmapSet idx true)
      return (m.pool pf).phyAddrStart+idx*pageSize : KernelM ℕ) (m.note .palloc pf) := rfl
  rw [h]
  cases (m.pool pf).poolBitmap.bitmapScan 1 with
  | none => rfl
  | some i => rfl

/-- palloc takes an unused frame, and fails exactly when no position is free. -/
theorem PageRep.palloc_runs (h : PageRep m A F) :
    Runs (palloc pf) m
      (fun pa m' => ∃ f, pa = 4096*f ∧ f ∉ F ∧ m.InPool pf f ∧ PageRep m' A (insert f F) ∧
        m'.rest = m.rest ∧ m'.mem = m.mem ∧
        ∀ pf', m'.free pf'+(if pf' = pf then 1 else 0) = m.free pf')
      (fun _ m' => m.free pf = 0 ∧ m'.rest = m.rest) := by
  cases hs : (m.pool pf).poolBitmap.bitmapScan 1 with
  | none =>
    rw [Runs,palloc_eq,hs]
    exact ⟨((m.pool pf).poolBitmap.bitmapScan_one_eq_none_iff).mp hs,rfl⟩
  | some i =>
    obtain ⟨hlt,hc,-⟩ := ((m.pool pf).poolBitmap.bitmapScan_eq_some_iff 1 Nat.one_pos i).mp hs
    have hi : i < 8*m.len pf := by
      unfold Machine.len
      omega
    have hbit : m.bit pf i = false := hc 0 Nat.one_pos
    have hnote : PageRep (m.note .palloc pf) A F := h.congr rfl rfl fun _ _ => rfl
    rw [Runs,palloc_eq,hs]
    refine ⟨m.start pf+i,?_,?_,⟨by omega,by omega⟩,
      hnote.reserve hi hbit,Machine.setBit_rest _ pf i true,rfl,Machine.setBit_free hs⟩
    · have hst : (m.pool pf).phyAddrStart = 4096*m.start pf := by
        cases pf with
        | kernel => rw [h.kernelStart,h.start_kernel,pageSize]
        | user => exact h.userAligned
      rw [hst,pageSize]
      ring
    · intro hF
      have := (h.bits pf i hi).mpr (.inl hF)
      rw [hbit] at this
      contradiction

end Palloc

theorem tableEntry_frame (f : ℕ) : tableEntry (4096*f) = 4096*f+7 := by
  have h := Nat.two_pow_add_eq_or_of_lt (show 7 < 2^12 by decide) f
  rw [tableEntry,pgUsU,pgRwW,pgP1,Nat.or_assoc,Nat.or_assoc]
  exact h.symm

section TableAdd
variable {m : Machine} {A : FrameMap} {F : Set ℕ} {s : Option TaskId} {v f tab d g : ℕ}
  {t : TaskId}

theorem PageRep.tableFrame (h : PageRep m A F) (hv : m.InSpace s v)
    (htab : A.tableOf s v = some tab) : m.TableFrame A tab := by
  cases s with
  | none =>
    rw [FrameMap.tableOf_kernel htab]
    exact .inl ⟨_,_,Nat.mod_lt v (by decide),.kernelPte hv.1 (hv.lt h.toLayout)⟩
  | some t => exact .inl ⟨_,_,Nat.mod_lt v (by decide),.pte htab (Nat.mod_lt v (by decide))⟩

theorem PageRep.pteAdd_runs (h : PageRep m A F) (hv : m.InSpace s v) (hs : m.Reaches s)
    (htab : A.tableOf s v = some tab) :
    Runs (pteAdd (4096*v) (4096*f)) m
      (fun _ m' => A (.page s v) = none ∧
        m' = m.setMem (store32 m.mem (4096*tab+4*(v % 1024)) (4096*f+7)))
      (fun _ m' => (A (.page s v)).isSome ∧ m'.rest = m.rest) := by
  have htr := h.translate_pte hv hs htab
  have hpte := h.target_pte hv htab
  rw [Runs,pteAdd,Exec.bind_of_ok (load_eq htr)]
  change target (load32 m.mem _) = _ at hpte
  by_cases hp : load32 m.mem (4096*tab+4*(v % 1024)) % 2 = 0
  · rw [target_of_even hp] at hpte
    rw [if_pos hp,store_eq htr,tableEntry_frame]
    exact ⟨hpte.symm,rfl⟩
  · rw [if_neg hp]
    rw [target,if_pos (by omega)] at hpte
    exact ⟨Option.isSome_of_eq_some hpte.symm,rfl⟩

/-- The memset of page_table_add goes through the last entry of the directory. -/
theorem memset_table {i : ℕ} (hc : m.cr3/pageSize = d) (hself : SelfMapped m.mem d)
    (hi : i < 1024) (hpde : target (word m.mem d i) = some g) (hne : d ≠ g) :
    memset (4096*(0xffc00+i)) 0 pageSize m =
      (.ok (),m.setMem (fill m.mem (4096*g) 4096 0)) := by
  have hwin : Window (m.cr3/pageSize) m.mem (tableWindow i g) {0xffc00+i} := by
    rw [hc]
    exact hself.window hi hpde hne
  have hin : ∀ k, k < pageSize → (tableWindow i g ((4096*(0xffc00+i)+k)/4096)).isSome ∧
      (4096*(0xffc00+i)+k)/4096 ∈ ({0xffc00+i} : Set ℕ) := by
    intro k hk
    unfold pageSize at hk
    rw [show (4096*(0xffc00+i)+k)/4096 = 0xffc00+i by omega]
    exact ⟨by simp [tableWindow],rfl⟩
  have hset : Acts m (tableWindow i g) {0xffc00+i} (memset (4096*(0xffc00+i)) 0 pageSize)
      (view (tableWindow i g) m.mem) () _ := Acts.memset hwin (by omega) hin
  obtain ⟨mem',he,ho,hview⟩ := hset m.mem .refl rfl
  rw [fill_of_tableWindow ho hview] at he
  exact he

/-- The new page table is entered, filled with zeros, and gets its first entry. -/
theorem PageRep.tableEnter_eq (h : PageRep m A F) (hv : m.InSpace (some m.runningThread) v)
    (hd : m.dirOf A m.runningThread = some d)
    (hnew : A (.table m.runningThread (v/1024)) = none) (hg : g ∈ F) (hp : m.InPool .kernel g) :
    ∃ m₁, m₁ = m.setMem (fill (store32 m.mem (4096*d+4*(v/1024)) (4096*g+7)) (4096*g) 4096 0) ∧
      PageRep m₁ (Function.update A (.table m.runningThread (v/1024)) (some g)) (F \ {g}) ∧
      tableEnter (4096*v) (4096*f) (4096*g) m =
        (.ok (),m₁.setMem (store32 m₁.mem (4096*g+4*(v % 1024)) (4096*f+7))) := by
  have hrec := hv.lt h.toLayout
  have hhalf : v/1024 < 768 := by
    have h₂ := hv.2.2
    unfold kernelHalf at h₂
    omega
  have hne : d ≠ g := by
    intro he
    rw [Machine.dirOf_of_proc hv.1,he] at hd
    exact h.reserved _ _ hd hg
  have hlt := h.lt_of_inPool hp
  have hcr3 : m.cr3/pageSize = d := by
    obtain ⟨d',hd',hc⟩ := h.cr3_eq
    rw [hc,Option.some.inj (hd.symm.trans hd')]
  have hrep := h.addTable hv.1 hd hhalf hnew hg hp
  refine ⟨_,rfl,hrep,?_⟩
  generalize hm₂ : m.setMem (store32 m.mem (4096*d+4*(v/1024)) (4096*g+7)) = m₂
  have hmem₂ : m₂.mem = store32 m.mem (4096*d+4*(v/1024)) (4096*g+7) := by rw [← hm₂]; rfl
  have hm₁ : m.setMem (fill (store32 m.mem (4096*d+4*(v/1024)) (4096*g+7)) (4096*g) 4096 0) =
      m₂.setMem (fill m₂.mem (4096*g) 4096 0) := by rw [hmem₂,← hm₂]; rfl
  have hfill : memset (4096*(0xffc00+v/1024)) 0 pageSize m₂ =
      (.ok (),m₂.setMem (fill m₂.mem (4096*g) 4096 0)) := by
    apply memset_table (d := d)
    · rw [← hm₂]
      exact hcr3
    · rw [SelfMapped,hmem₂,word_store32_of_ne (by omega) (by decide) (by omega)]
      exact h.selfMapped hd
    · omega
    · rw [hmem₂,word_store32_self (by omega),target_entry]
    · exact hne
  rw [hm₁] at hrep ⊢
  generalize hm₃ : m₂.setMem (fill m₂.mem (4096*g) 4096 0) = m₃ at hrep hfill ⊢
  have hzero : load32 m₃.mem (4096*g+4*(v % 1024)) = 0 := by
    rw [← hm₃]
    exact load32_fill_zero (by omega) (by omega)
  have htr : m₃.translate (ptePtr (4096*v)) = some (4096*g+4*(v % 1024)) := by
    apply hrep.translate_pte (s := some m.runningThread)
    · rw [← hm₃,← hm₂]
      exact hv
    · rw [← hm₃,← hm₂]
      exact .inr rfl
    · exact Function.update_self _ _ _
  have hptr : ptePtr (4096*v)/pageSize*pageSize = 4096*(0xffc00+v/1024) := by
    rw [ptePtr_page,pageSize]
    omega
  rw [tableEnter,tableEntry_frame g,tableEntry_frame f,
    Exec.bind_of_ok (store_eq (h.translate_pde hd hrec)),hm₂,hptr,
    Exec.bind_of_ok (kassert_eq (by omega)),Exec.bind_of_ok hfill,Exec.bind_of_ok (load_eq htr),
    Exec.bind_of_ok (kassert_eq (by rw [hzero])),store_eq htr]

end TableAdd
end OsKernel

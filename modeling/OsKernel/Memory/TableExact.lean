import OsKernel.Memory.PageAlloc

/-! pte_ptr, pde_ptr, addr_v2p and page_table_add over any page directory whose last entry points
to itself and whose page tables lie elsewhere. Tables may be shared, and nothing is known about
the use of frames. -/
namespace OsKernel
open Paging ByteMemory Exec KernelM

/-- The directory in cr3 maps itself, and its page tables lie in other frames. -/
structure Machine.Recursive (m : Machine) : Prop where
  self : SelfMapped m.mem (m.cr3/pageSize)
  apart : ∀ i < 1023, target (word m.mem (m.cr3/pageSize) i) ≠ some (m.cr3/pageSize)

/-- A frame that is neither the directory nor a page table. -/
structure Machine.Unused (m : Machine) (g : ℕ) : Prop where
  lt : g < 2^20
  ne_dir : g ≠ m.cr3/pageSize
  ne_table : ∀ i < 1024, target (word m.mem (m.cr3/pageSize) i) ≠ some g

/-- panic_spin has been called. -/
def Panic.Spins : Panic → Prop
  | .assert _ _ | .panic _ _ => True
  | _ => False

section Pointers
variable {m : Machine} {v pa table : ℕ}

theorem ptePtr_eq (v : ℕ) : ptePtr v = 0xffc00000+4096*(v/4096/1024)+4*(v/4096 % 1024) := by
  unfold ptePtr pdeIdx pteIdx
  omega

theorem pdePtr_eq (v : ℕ) : pdePtr v = 0xfffff000+4*(v/4096/1024) := by
  unfold pdePtr pdeIdx
  omega

/-- pde_ptr points to the directory entry of the address. -/
theorem Machine.Recursive.translate_pdePtr (h : m.Recursive) (hv : v < 0xffc00000) :
    m.translate (pdePtr v) = some (4096*(m.cr3/pageSize)+4*(v/4096/1024)) := by
  rw [Machine.translate,pdePtr_eq v]
  exact h.self.walk_pde (by omega)

/-- pte_ptr points to the table entry of the address, if there is a table. -/
theorem Machine.Recursive.translate_ptePtr (h : m.Recursive) (hv : v < 0xffc00000)
    (ht : target (word m.mem (m.cr3/pageSize) (v/4096/1024)) = some table) :
    m.translate (ptePtr v) = some (4096*table+4*(v/4096 % 1024)) := by
  rw [Machine.translate,ptePtr_eq v,h.self.walk_pte (by omega) (Nat.mod_lt _ (by decide)),ht]
  rfl

/-- addr_v2p is the translation of every mapped address. -/
theorem Machine.Recursive.addrV2p_eq (h : m.Recursive) (hv : v < 0xffc00000)
    (htr : m.translate v = some pa) : addrV2p v m = (.ok pa,m) := by
  obtain ⟨f,hf,rfl⟩ := Option.map_eq_some_iff.mp htr
  obtain ⟨table,ht,hp⟩ := Option.bind_eq_some_iff.mp hf
  obtain ⟨-,hframe⟩ := target_eq_some_iff.mp hp
  rw [addrV2p,Exec.bind_of_ok (load_eq (h.translate_ptePtr hv ht))]
  change (Except.ok (word m.mem table (v/4096 % 1024)/pageSize*pageSize+v % pageSize),m) = _
  rw [pageSize,hframe,Nat.mul_comm f]

end Pointers

section Adding
variable {m : Machine} {v f g table : ℕ}

/-- The page of the address has got the frame, and of the other pages below the tables only those
that share the word of its entry have changed. -/
structure Entered (m : Machine) (v f : ℕ) (m' : Machine) : Prop where
  cr3 : m'.cr3 = m.cr3
  page : lookup m'.mem (m.cr3/pageSize) (v/4096) = some f
  other : ∀ w < 1023*1024, pteWord m'.mem (m.cr3/pageSize) w ≠
    pteWord m'.mem (m.cr3/pageSize) (v/4096) →
    lookup m'.mem (m.cr3/pageSize) w = lookup m.mem (m.cr3/pageSize) w

theorem Machine.Recursive.setEntry_entered (h : m.Recursive) (hv : v < 0xffc00000)
    (hf : f < 2^20) (ht : target (word m.mem (m.cr3/pageSize) (v/4096/1024)) = some table) :
    Entered m v f (m.setMem (setEntry m.mem table (v/4096) (4096*f+7))) := by
  have hne : table ≠ m.cr3/pageSize := fun he => h.apart _ (by omega) (he ▸ ht)
  refine ⟨rfl,?_,fun w hw hword => ?_⟩
  · exact (lookup_setEntry ht hne (by omega) (by omega)).trans target_entry
  · exact lookup_setEntry_of_ne ht hne (by omega) (by omega) hword

theorem Machine.Recursive.pteAdd_entered (h : m.Recursive) (hv : v < 0xffc00000)
    (hf : f < 2^20) (ht : target (word m.mem (m.cr3/pageSize) (v/4096/1024)) = some table) :
    Runs (pteAdd v (4096*f)) m (fun _ m' => Entered m v f m') (fun e _ => e.Spins) := by
  have htr := h.translate_ptePtr hv ht
  rw [Runs,pteAdd,Exec.bind_of_ok (load_eq htr)]
  by_cases hp : load32 m.mem (4096*table+4*(v/4096 % 1024)) % 2 = 0
  · rw [if_pos hp,store_eq htr,tableEntry_frame]
    exact h.setEntry_entered hv hf ht
  · rw [if_neg hp]
    trivial

/-- The state in which the new page table is there, and empty. -/
def Machine.withTable (m : Machine) (g v : ℕ) : Machine :=
  m.setMem (enterTable m.mem (m.cr3/pageSize) g (v/4096))

theorem Machine.Recursive.withTable (h : m.Recursive) (hv : v < 0xffc00000) (hg : m.Unused g) :
    (m.withTable g v).Recursive := by
  refine ⟨selfMapped_enterTable h.self (by omega) hg.lt hg.ne_dir,fun i hi => ?_⟩
  change target (word (enterTable m.mem (m.cr3/pageSize) g (v/4096)) (m.cr3/pageSize) i) ≠ _
  rw [word_dir_enterTable (by omega) hg.lt hg.ne_dir (by omega)]
  split_ifs
  · rw [target_entry]
    exact fun he => hg.ne_dir (Option.some.inj he)
  · exact h.apart i hi

/-- The memset of a page table that has just been entered. -/
theorem Machine.Recursive.memset_withTable (h : m.Recursive) (hv : v < 0xffc00000)
    (hg : m.Unused g) : memset (ptePtr v/pageSize*pageSize) 0 pageSize
      (m.setMem (store32 m.mem (4096*(m.cr3/pageSize)+4*(v/4096/1024)) (4096*g+7))) =
      (.ok (),m.withTable g v) := by
  have hptr : ptePtr v/pageSize*pageSize = 4096*(0xffc00+v/4096/1024) := by
    rw [ptePtr_eq v,pageSize]
    omega
  have hself : SelfMapped (store32 m.mem (4096*(m.cr3/pageSize)+4*(v/4096/1024)) (4096*g+7))
      (m.cr3/pageSize) := by
    rw [SelfMapped,word_store32_of_ne (by omega) (by decide) (by omega)]
    exact h.self
  have hlt := hg.lt
  rw [hptr]
  refine memset_table (d := m.cr3/pageSize) rfl hself (by omega) ?_ hg.ne_dir.symm
  exact (congrArg target (word_store32_self (by omega))).trans target_entry

/-- The new page table is entered and cleared through the mapping that it becomes part of. -/
theorem Machine.Recursive.tableEnter_entered (h : m.Recursive) (hv : v < 0xffc00000)
    (hf : f < 2^20) (hpde : target (word m.mem (m.cr3/pageSize) (v/4096/1024)) = none)
    (hg : m.Unused g) :
    ∃ m', tableEnter v (4096*f) (4096*g) m = (.ok (),m') ∧ Entered m v f m' := by
  have hrec := h.withTable hv hg
  have htable : target (word (m.withTable g v).mem (m.cr3/pageSize) (v/4096/1024)) = some g :=
    target_enterTable (by omega) hg.lt hg.ne_dir
  have htr := hrec.translate_ptePtr hv htable
  have hzero : load32 (m.withTable g v).mem (4096*g+4*(v/4096 % 1024)) = 0 :=
    word_fill_self (Nat.mod_lt _ (by decide))
  have hptr : ptePtr v/pageSize*pageSize ≠ 0 := by
    rw [ptePtr_eq v,pageSize]
    omega
  have henter := hrec.setEntry_entered (f := f) hv hf htable
  refine ⟨_,?_,henter.cr3,henter.page,fun w hw hword => (henter.other w hw hword).trans ?_⟩
  · rw [tableEnter,tableEntry_frame g,tableEntry_frame f,
      Exec.bind_of_ok (store_eq (h.translate_pdePtr hv)),Exec.bind_of_ok (kassert_eq hptr),
      Exec.bind_of_ok (h.memset_withTable hv hg),Exec.bind_of_ok (load_eq htr),
      Exec.bind_of_ok (kassert_eq (by rw [hzero])),store_eq htr]
  · exact lookup_enterTable (by omega) hg.lt hg.ne_dir hpde hg.ne_table h.apart (by omega)

/-- page_table_add enters the frame or panics. -/
theorem Machine.Recursive.pageTableAdd_entered (h : m.Recursive) (hv : v < 0xffc00000)
    (hf : f < 2^20)
    (hnew : ∀ pa m', palloc .kernel m = (.ok pa,m') → ∃ g, pa = 4096*g ∧ m.Unused g) :
    Runs (pageTableAdd v (4096*f)) m (fun _ m' => Entered m v f m') (fun e _ => e.Spins) := by
  have hpde := Exec.bind_of_ok (load_eq (h.translate_pdePtr hv))
    (f := fun pde => if pde % 2 = 1 then pteAdd v (4096*f) else tableAdd v (4096*f))
  rw [Runs,pageTableAdd,hpde]
  change Runs (if word m.mem (m.cr3/pageSize) (v/4096/1024) % 2 = 1 then pteAdd v (4096*f)
    else tableAdd v (4096*f)) m _ _
  split_ifs with hp
  · exact h.pteAdd_entered hv hf (if_pos hp)
  · have hnone : target (word m.mem (m.cr3/pageSize) (v/4096/1024)) = none := if_neg hp
    have halloc := palloc_eq m .kernel
    rw [Runs,tableAdd]
    cases hs : (m.pool .kernel).poolBitmap.bitmapScan 1 with
    | none =>
      rw [hs] at halloc
      rw [Exec.bind_of_error halloc]
      trivial
    | some i =>
      rw [hs] at halloc
      obtain ⟨g,hpa,hg⟩ := hnew _ _ halloc
      have halloc' : palloc .kernel m =
          (.ok (4096*g),(m.note .palloc .kernel).setBit .kernel i true) := by
        rw [← hpa]
        exact halloc
      -- palloc changes neither memory nor cr3
      have h₁ : ((m.note .palloc .kernel).setBit .kernel i true).Recursive := ⟨h.self,h.apart⟩
      have hg₁ : ((m.note .palloc .kernel).setBit .kernel i true).Unused g :=
        ⟨hg.lt,hg.ne_dir,hg.ne_table⟩
      obtain ⟨m',hm',hentered⟩ := h₁.tableEnter_entered hv hf hnone hg₁
      rw [Exec.bind_of_ok halloc',hm']
      exact ⟨hentered.cr3,hentered.page,hentered.other⟩

end Adding

/-- Two addresses below the page tables have their entries in the same word. -/
def SharesPte (m : Machine) (a b : ℕ) : Prop :=
  pteWord m.mem (m.cr3/pageSize) (a/4096) = pteWord m.mem (m.cr3/pageSize) (b/4096)

/-- The four functions are exact: pointers to entries, translation, and the editing of tables,
where only addresses that share their entry with the new page change. -/
theorem page_tables_exact (m : Machine) (h : m.Recursive) (v : ℕ) (hv : v < 0xffc00000) :
    m.translate (pdePtr v) = some (4096*(m.cr3/pageSize)+4*pdeIdx v) ∧
    (∀ table, target (word m.mem (m.cr3/pageSize) (pdeIdx v)) = some table →
      m.translate (ptePtr v) = some (4096*table+4*pteIdx v)) ∧
    (∀ pa, m.translate v = some pa → addrV2p v m = (.ok pa,m)) ∧
    ∀ f < 2^20,
      (∀ pa m', palloc .kernel m = (.ok pa,m') → ∃ g, pa = 4096*g ∧ m.Unused g) →
      Runs (pageTableAdd v (4096*f)) m (fun _ m' =>
        (∀ a < 0xffc00000, SharesPte m' a v → m'.translate a = some (4096*f+a % 4096)) ∧
        ∀ a < 0xffc00000, ¬SharesPte m' a v → m'.translate a = m.translate a)
        (fun e _ => e.Spins) := by
  have hpde : v/4096/1024 = pdeIdx v := by unfold pdeIdx; omega
  have hpte : v/4096 % 1024 = pteIdx v := by unfold pteIdx; omega
  refine ⟨?_,fun table ht => ?_,fun pa => h.addrV2p_eq hv,fun f hf hnew => ?_⟩
  · rw [← hpde]
    exact h.translate_pdePtr hv
  · rw [← hpte]
    rw [← hpde] at ht
    exact h.translate_ptePtr hv ht
  · refine (h.pageTableAdd_entered hv hf hnew).mono (fun _ m' he => ⟨?_,?_⟩) fun e _ he => he
    · intro a ha hs
      rw [SharesPte,he.cr3] at hs
      rw [Machine.translate,walk,he.cr3,lookup_eq_of_pteWord hs,he.page]
      rfl
    · intro a ha hs
      rw [SharesPte,he.cr3] at hs
      rw [Machine.translate,walk,he.cr3,he.other (a/4096) (by omega) hs]
      rfl

/-- A directory in frame 1 with no entry but its own, and a kernel pool from frame 2 on. -/
def bareDirectory : Machine where
  mem := fun p => if p = 8188 then 7 else if p = 8189 then 0x10 else 0
  cr3 := 4096
  runningThread := 0
  pool := fun _ => ⟨⟨2,fun _ => 0⟩,4096*2,16*pageSize,⟨none,0⟩⟩
  kernelVaddr := ⟨⟨0,fun _ => 0⟩,kHeapStart⟩
  task := fun _ => ⟨0,⟨⟨0,fun _ => 0⟩,0⟩⟩
  kBlockDesc := 0
  tlb := fun _ => none
  events := []

theorem bareDirectory_word {i : ℕ} (hi : i < 1023) : word bareDirectory.mem 1 i = 0 := by
  have hbyte : ∀ k < 4, bareDirectory.mem (4096*1+4*i+k) = 0 := by
    intro k hk
    exact (if_neg (by omega)).trans (if_neg (by omega))
  have h₀ := hbyte 0 (by decide)
  have h₁ := hbyte 1 (by decide)
  have h₂ := hbyte 2 (by decide)
  have h₃ := hbyte 3 (by decide)
  rw [Nat.add_zero] at h₀
  simp only [word,load32,h₀,h₁,h₂,h₃]
  rfl

theorem bareDirectory_recursive : bareDirectory.Recursive := by
  refine ⟨rfl,fun i hi => ?_⟩
  change target (word bareDirectory.mem 1 i) ≠ some 1
  rw [bareDirectory_word hi,target_zero]
  exact Option.some_ne_none _ |>.symm

theorem bareDirectory_unused : bareDirectory.Unused 2 := by
  refine ⟨by decide,by decide,fun i hi => ?_⟩
  change target (word bareDirectory.mem 1 i) ≠ some 2
  by_cases hlast : i = 1023
  · subst hlast
    decide
  · rw [bareDirectory_word (by omega),target_zero]
    exact Option.some_ne_none _ |>.symm

theorem bareDirectory_palloc {pa : ℕ} {m' : Machine}
    (hp : palloc .kernel bareDirectory = (.ok pa,m')) : pa = 4096*2 := by
  have heq := palloc_eq bareDirectory .kernel
  have hscan : (bareDirectory.pool .kernel).poolBitmap.bitmapScan 1 = some 0 := by decide
  rw [hscan,hp] at heq
  exact Except.ok.inj (Prod.mk.inj heq).1

theorem bareDirectory_exact : bareDirectory.translate (pdePtr 0) = some (4096*1+4*0) ∧
    Runs (pageTableAdd 0 (4096*5)) bareDirectory
      (fun _ m' => m'.translate 0 = some (4096*5+0)) (fun e _ => e.Spins) := by
  have hrec := bareDirectory_recursive
  have hunused := bareDirectory_unused
  have halloc := @bareDirectory_palloc
  have hcr3 : bareDirectory.cr3 = 4096 := rfl
  generalize bareDirectory = m at hrec hunused halloc hcr3 ⊢
  obtain ⟨hpde,-,-,hadd⟩ := page_tables_exact m hrec 0 (by decide)
  have hdir : 4096*(m.cr3/pageSize)+4*pdeIdx 0 = 4096*1+4*0 := by
    rw [hcr3]
    decide
  refine ⟨hpde.trans (congrArg some hdir),(hadd 5 (by decide) fun pa m' hp => ?_).mono
    (fun _ m' h => h.1 0 (by decide) (Eq.refl _)) fun _ _ h => h⟩
  exact ⟨2,halloc hp,hunused⟩

end OsKernel

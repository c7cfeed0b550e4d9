import OsKernel.Memory.PageAlloc

/-! How page_table_add and the loop of malloc_page let the map grow. A range of pages gets new
frames, and so does every page table that is missing for it. -/
namespace OsKernel
open Paging ByteMemory Exec KernelM

def newPages (s : Option TaskId) (v n : ℕ) : Finset Use := (Finset.Ico v (v+n)).image (Use.page s)

/-- The page tables that are missing for a range of pages. -/
def newTables (A : FrameMap) (s : Option TaskId) (v n : ℕ) : Finset Use :=
  match s with
  | none => ∅
  | some t => ((Finset.Ico v (v+n)).image fun w => Use.table t (w/1024)).filter fun x => A x = none

def newUses (A : FrameMap) (s : Option TaskId) (v n : ℕ) : Finset Use :=
  newPages s v n ∪ newTables A s v n

section Sets
variable {A A' : FrameMap} {s : Option TaskId} {v n : ℕ} {x : Use}

theorem mem_newPages : x ∈ newPages s v n ↔ ∃ w, v ≤ w ∧ w < v+n ∧ x = .page s w := by
  simp only [newPages,Finset.mem_image,Finset.mem_Ico]
  constructor
  · rintro ⟨w,⟨h₁,h₂⟩,h₃⟩
    exact ⟨w,h₁,h₂,h₃.symm⟩
  · rintro ⟨w,h₁,h₂,h₃⟩
    exact ⟨w,⟨h₁,h₂⟩,h₃.symm⟩

theorem mem_newTables : x ∈ newTables A s v n ↔
    ∃ t w, s = some t ∧ v ≤ w ∧ w < v+n ∧ x = .table t (w/1024) ∧ A x = none := by
  cases s with
  | none => simp [newTables]
  | some t =>
    simp only [newTables,Finset.mem_filter,Finset.mem_image,Finset.mem_Ico]
    constructor
    · rintro ⟨⟨w,⟨h₁,h₂⟩,h₃⟩,h₄⟩
      exact ⟨t,w,rfl,h₁,h₂,h₃.symm,h₄⟩
    · rintro ⟨u,w,h₁,h₂,h₃,h₄,h₅⟩
      obtain rfl := Option.some.inj h₁
      exact ⟨⟨w,⟨h₂,h₃⟩,h₄.symm⟩,h₅⟩

theorem mem_newUses : x ∈ newUses A s v n ↔ x ∈ newPages s v n ∨ x ∈ newTables A s v n :=
  Finset.mem_union

theorem newUses_zero : newUses A s v 0 = ∅ := by
  cases s <;> simp [newUses,newPages,newTables]

theorem page_mem_newUses (hn : 0 < n) : Use.page s v ∈ newUses A s v n :=
  mem_newUses.mpr (.inl (mem_newPages.mpr ⟨v,by omega,by omega,rfl⟩))

/-- The uses of a range are those of its first page and then those of the others. -/
theorem newUses_succ (hold : ∀ x, x ∉ newUses A s v 1 → A' x = A x)
    (hnew : ∀ x, x ∈ newUses A s v 1 → (A' x).isSome) :
    newUses A s v (n+1) = newUses A s v 1 ∪ newUses A' s (v+1) n := by
  have htab : ∀ x, x ∉ newTables A s v 1 → x ∉ newPages s v 1 → A' x = A x := by
    intro x h₁ h₂
    exact hold x fun h => (mem_newUses.mp h).elim h₂ h₁
  ext x
  simp only [Finset.mem_union,mem_newUses]
  constructor
  · rintro (h | h)
    · obtain ⟨w,h₁,h₂,h₃⟩ := mem_newPages.mp h
      by_cases hw : w = v
      · exact .inl (.inl (mem_newPages.mpr ⟨w,by omega,by omega,h₃⟩))
      · exact .inr (.inl (mem_newPages.mpr ⟨w,by omega,by omega,h₃⟩))
    · by_cases hx : x ∈ newTables A s v 1
      · exact .inl (.inr hx)
      · obtain ⟨t,w,hs,h₁,h₂,h₃,h₄⟩ := mem_newTables.mp h
        have hp : x ∉ newPages s v 1 := by
          intro hc
          obtain ⟨_,_,_,hc⟩ := mem_newPages.mp hc
          simp [h₃] at hc
        refine .inr (.inr (mem_newTables.mpr ⟨t,w,hs,?_,by omega,h₃,(htab x hx hp).trans h₄⟩))
        by_contra hlt
        exact hx (mem_newTables.mpr ⟨t,w,hs,by omega,by omega,h₃,h₄⟩)
  · rintro ((h | h) | (h | h))
    · obtain ⟨w,h₁,h₂,h₃⟩ := mem_newPages.mp h
      exact .inl (mem_newPages.mpr ⟨w,by omega,by omega,h₃⟩)
    · obtain ⟨t,w,hs,h₁,h₂,h₃,h₄⟩ := mem_newTables.mp h
      exact .inr (mem_newTables.mpr ⟨t,w,hs,by omega,by omega,h₃,h₄⟩)
    · obtain ⟨w,h₁,h₂,h₃⟩ := mem_newPages.mp h
      exact .inl (mem_newPages.mpr ⟨w,by omega,by omega,h₃⟩)
    · obtain ⟨t,w,hs,h₁,h₂,h₃,h₄⟩ := mem_newTables.mp h
      have hx : x ∉ newUses A s v 1 := by
        intro hc
        have hi := hnew x hc
        rw [h₄] at hi
        contradiction
      exact .inr (mem_newTables.mpr ⟨t,w,hs,by omega,by omega,h₃,(hold x hx).symm.trans h₄⟩)

theorem newUses_disjoint (hnew : ∀ x, x ∈ newUses A s v 1 → (A' x).isSome) :
    Disjoint (newUses A s v 1) (newUses A' s (v+1) n) := by
  rw [Finset.disjoint_left]
  intro x hx hx'
  rcases mem_newUses.mp hx' with h | h
  · obtain ⟨w,h₁,h₂,rfl⟩ := mem_newPages.mp h
    rcases mem_newUses.mp hx with h | h
    · obtain ⟨w',h₃,h₄,h₅⟩ := mem_newPages.mp h
      simp only [Use.page.injEq] at h₅
      omega
    · obtain ⟨_,_,-,-,-,h₅,-⟩ := mem_newTables.mp h
      simp at h₅
  · obtain ⟨_,_,-,-,-,-,h₃⟩ := mem_newTables.mp h
    have hi := hnew x hx
    rw [h₃] at hi
    contradiction

end Sets

/-- page_table_add has entered the frame f for a page. -/
structure Added (m : Machine) (A : FrameMap) (s : Option TaskId) (v f : ℕ) (m' : Machine)
    (A' : FrameMap) : Prop where
  rest : m'.rest = m.rest
  absent : A (.page s v) = none
  page : A' (.page s v) = some f
  table : ∀ x, x ∈ newTables A s v 1 → (A' x).isSome
  old : ∀ x, x ∉ newUses A s v 1 → A' x = A x
  free : ∀ pf, m'.free pf+((newTables A s v 1).filter fun x => x.pool = pf).card = m.free pf
  data : ∀ g, m.DataFrame A g → SameFrame m.mem m'.mem g

section PageTableAdd
variable {m : Machine} {A : FrameMap} {F : Set ℕ} {s : Option TaskId} {v f : ℕ}

theorem newTables_of_some {tab : ℕ} (h : A.tableOf s v = some tab) : newTables A s v 1 = ∅ := by
  apply Finset.eq_empty_of_forall_notMem
  intro x hx
  obtain ⟨t,w,rfl,h₁,h₂,rfl,h₄⟩ := mem_newTables.mp hx
  obtain rfl : w = v := by omega
  have h' : A (.table t (w/1024)) = some tab := h
  rw [h'] at h₄
  contradiction

theorem newTables_of_none {t : TaskId} (h : A (.table t (v/1024)) = none) :
    newTables A (some t) v 1 = {.table t (v/1024)} := by
  ext x
  rw [mem_newTables,Finset.mem_singleton]
  constructor
  · rintro ⟨u,w,h₁,h₂,h₃,h₄,_⟩
    obtain rfl := Option.some.inj h₁
    obtain rfl : w = v := by omega
    exact h₄
  · intro hx
    exact ⟨t,v,rfl,by omega,by omega,hx,hx ▸ h⟩

theorem insert_diff_self {f : ℕ} (hf : f ∉ F) : insert f F \ {f} = F := by
  ext g
  simp only [Set.mem_sdiff,Set.mem_insert_iff,Set.mem_singleton_iff]
  constructor
  · rintro ⟨h₁,h₂⟩
    exact h₁.resolve_left h₂
  · intro hg
    exact ⟨.inr hg,fun e => hf (e ▸ hg)⟩

/-- The branch in which the page table exists. -/
theorem PageRep.added_pte (h : PageRep m A (insert f F)) (hf : f ∉ F) (hv : m.InSpace s v)
    (hp : m.InPool (Use.page s v).pool f) {tab : ℕ} (htab : A.tableOf s v = some tab)
    (hnew : A (.page s v) = none) :
    ∃ A', PageRep (m.setMem (store32 m.mem (4096*tab+4*(v % 1024)) (4096*f+7))) A' F ∧
      Added m A s v f (m.setMem (store32 m.mem (4096*tab+4*(v % 1024)) (4096*f+7))) A' := by
  have hrep := h.addPage hv hnew htab (Set.mem_insert f F) hp
  rw [insert_diff_self hf] at hrep
  refine ⟨_,hrep,rfl,hnew,Function.update_self _ _ _,?_,fun x hx => ?_,?_,fun g hg => ?_⟩
  · simp [newTables_of_some htab]
  · apply Function.update_of_ne
    rintro rfl
    exact hx (page_mem_newUses Nat.one_pos)
  · rw [newTables_of_some htab]
    exact fun pf => rfl
  · apply sameFrame_store32_word (Nat.mod_lt _ (by decide))
    rintro rfl
    exact h.dataFrame_ne_table hg (h.tableFrame hv htab)

/-- Data frames are in use, or lie below the pools. -/
theorem PageRep.dataFrame_ne (h : PageRep m A F) {g g' : ℕ} (hg : m.DataFrame A g) (hF : g' ∈ F)
    (hp : m.InPool .kernel g') : g ≠ g' := by
  rintro rfl
  rcases hg with hg | ⟨s,v,hp',-⟩
  · have hle := h.le_of_inPool hp
    unfold bootDir at hg
    unfold firstPoolFrame at hle
    omega
  · exact h.reserved _ _ hp' hF

/-- The branch in which the page table is made, after the call of palloc. -/
theorem PageRep.added_table {g : ℕ} (h : PageRep m A (insert g (insert f F))) (hf : f ∉ F)
    (hg : g ∉ insert f F) (hv : m.InSpace (some m.runningThread) v)
    (hp : m.InPool .user f) (hpg : m.InPool .kernel g)
    (hpde : A (.table m.runningThread (v/1024)) = none) :
    ∃ m' A', tableEnter (4096*v) (4096*f) (4096*g) m = (.ok (),m') ∧ PageRep m' A' F ∧
      m'.rest = m.rest ∧ (∀ pf, m'.free pf = m.free pf) ∧
      A (.page (some m.runningThread) v) = none ∧ A' (.page (some m.runningThread) v) = some f ∧
      (A' (.table m.runningThread (v/1024))).isSome ∧
      (∀ x, x ∉ newUses A (some m.runningThread) v 1 → A' x = A x) ∧
      ∀ g', m.DataFrame A g' → SameFrame m.mem m'.mem g' := by
  obtain ⟨d,hd,-⟩ := h.cr3_eq
  have hgF := Set.mem_insert g (insert f F)
  obtain ⟨m₁,hm₁,hrep₁,heq⟩ := h.tableEnter_eq (f := f) hv hd hpde hgF hpg
  rw [insert_diff_self hg] at hrep₁
  have hnew : A (.page (some m.runningThread) v) = none := by
    cases hpage : A (.page (some m.runningThread) v) with
    | none => rfl
    | some g =>
      have hsome := (h.userPage _ v g hpage).2.2.2
      rw [hpde] at hsome
      contradiction
  have hset : m₁.setup = m.setup := by rw [hm₁]; rfl
  have hrest : m₁.rest = m.rest := by rw [hm₁]; rfl
  have hv₁ : m₁.InSpace (some m.runningThread) v := by rw [hm₁]; exact hv
  have hp₁ : m₁.InPool (Use.page (some m.runningThread) v).pool f := by rw [hm₁]; exact hp
  have htab : FrameMap.tableOf (Function.update A (.table m.runningThread (v/1024)) (some g))
      (some m.runningThread) v = some g := Function.update_self _ _ _
  obtain ⟨A',hrep₂,hadd⟩ := hrep₁.added_pte hf hv₁ hp₁ htab
    (by rw [Function.update_of_ne (by simp),hnew])
  have hout : ∀ x, x ≠ .page (some m.runningThread) v → x ≠ .table m.runningThread (v/1024) →
      A' x = A x := by
    intro x h₁ h₂
    rw [hadd.old x,Function.update_of_ne h₂]
    rw [mem_newUses,mem_newPages,newTables_of_some htab]
    rintro (⟨w,h₃,h₄,h₅⟩ | hc)
    · obtain rfl : w = v := by omega
      exact h₁ h₅
    · simp at hc
  refine ⟨_,A',heq,hrep₂,hadd.rest.trans hrest,fun pf => ?_,hnew,hadd.page,?_,fun x hx => ?_,
    fun g' hg' => ?_⟩
  · rw [hm₁]
    rfl
  · rw [hadd.old,Function.update_self]
    · rfl
    · rw [mem_newUses,mem_newPages,newTables_of_some htab]
      simp
  · rw [mem_newUses,not_or,newTables_of_none hpde,Finset.mem_singleton] at hx
    refine hout x (fun e => hx.1 (mem_newPages.mpr ⟨v,by omega,by omega,e⟩)) hx.2
  · have hdata : m₁.DataFrame (Function.update A (.table m.runningThread (v/1024)) (some g)) g' :=
      hg'.mono hset fun _ _ hpw => by rwa [Function.update_of_ne (by simp)]
    have hmem : SameFrame m.mem m₁.mem g' := by
      have hne := h.dataFrame_ne hg' hgF hpg
      have hned : g' ≠ d := by
        rintro rfl
        exact h.dataFrame_ne_table hg' (.inr (Machine.dir_of_dirOf hd))
      have hlt := hv.lt h.toLayout
      unfold recursivePage at hlt
      rw [hm₁]
      exact (sameFrame_store32_word (by omega) hned).trans
        (sameFrame_fill fun p h₁ h₂ => by omega)
    exact hmem.trans (hadd.data g' hdata)

/-- Whether page_table_add has to make a page table. -/
theorem PageRep.pageTableAdd_eq (h : PageRep m A F) (hv : m.InSpace s v) (hs : m.Reaches s)
    (pa : ℕ) : pageTableAdd (4096*v) pa m =
      (if (A.tableOf s v).isSome then pteAdd (4096*v) pa else tableAdd (4096*v) pa) m := by
  obtain ⟨d,hd,-⟩ := h.cr3_eq
  have hpde := h.target_pde hd hv hs
  change target (load32 m.mem _) = _ at hpde
  rw [pageTableAdd,Exec.bind_of_ok (load_eq (h.translate_pde hd (hv.lt h.toLayout))),← hpde,target]
  by_cases hbit : load32 m.mem (4096*d+4*(v/1024)) % 2 = 1 <;> simp [hbit]

theorem PageRep.pageTableAdd_runs (h : PageRep m A (insert f F)) (hf : f ∉ F)
    (hv : m.InSpace s v) (hs : m.Reaches s) (hp : m.InPool (Use.page s v).pool f) :
    Runs (pageTableAdd (4096*v) (4096*f)) m
      (fun _ m' => ∃ A', PageRep m' A' F ∧ Added m A s v f m' A')
      (fun _ m' => m'.rest = m.rest ∧ ((A (.page s v)).isSome ∨
        m.free .kernel < ((newTables A s v 1).filter fun x => x.pool = .kernel).card)) := by
  rw [Runs,h.pageTableAdd_eq hv hs]
  cases htab : A.tableOf s v with
  | some tab =>
    rw [if_pos Option.isSome_some]
    refine (h.pteAdd_runs hv hs htab).mono ?_ ?_
    · rintro _ m' ⟨hnew,rfl⟩
      exact h.added_pte hf hv hp htab hnew
    · exact fun _ m' h => ⟨h.2,.inl h.1⟩
  | none =>
    rw [if_neg (by rw [Option.isSome_none]; exact Bool.false_ne_true)]
    -- only the tables of processes can be missing
    obtain ⟨t,rfl⟩ : ∃ t, s = some t := by
      cases s with
      | none => simp [FrameMap.tableOf] at htab
      | some t => exact ⟨t,rfl⟩
    obtain rfl : t = m.runningThread := by simpa [Machine.Reaches] using hs
    have hpde : A (.table m.runningThread (v/1024)) = none := htab
    have hcard : ∀ pf, ((newTables A (some m.runningThread) v 1).filter
        fun x => x.pool = pf).card = if pf = .kernel then 1 else 0 := by
      intro pf
      rw [newTables_of_none hpde]
      cases pf <;> rfl
    change Runs (tableAdd (4096*v) (4096*f)) m _ _
    apply Runs.bind (h.palloc_runs.mono (fun _ _ hx => hx) ?_)
    · rintro _ m₁ ⟨g,rfl,hg,hpg,hrep,hrest,hmem,hfree⟩
      have hset := m.setup_of_rest hrest
      have hrun := Machine.runningThread_congr hset
      obtain ⟨m',A',heq,hrep',hrest',hfree',hnew,hpage,htable,hold,hdata⟩ :=
        hrep.added_table (v := v) hf hg
          (by rw [hrun]; exact ⟨(Machine.isProc_congr hset _).mpr hv.1,hv.2⟩)
          ((Machine.inPool_congr hset _ f).mpr hp) ((Machine.inPool_congr hset _ g).mpr hpg)
          (by rw [hrun]; exact hpde)
      rw [hrun] at hnew hpage htable hold
      refine .of_eq heq ⟨A',hrep',hrest'.trans hrest,hnew,hpage,fun x hx => ?_,hold,
        fun pf => ?_,fun g' hg' => ?_⟩
      · rw [newTables_of_none hpde,Finset.mem_singleton] at hx
        rw [hx]
        exact htable
      · rw [hfree',hcard,← hfree pf]
      · rw [← hmem]
        exact hdata g' (hg'.mono hset fun _ _ hpw => hpw)
    · rintro _ m₁ ⟨hzero,hrest⟩
      refine ⟨hrest,.inr ?_⟩
      rw [hcard,hzero]
      decide

end PageTableAdd

section MapPages
variable {m m₁ m' : Machine} {A A' : FrameMap} {F : Set ℕ} {s : Option TaskId} {v f n : ℕ}
  {pf : PoolFlags}

theorem card_newUses_one (pf : PoolFlags) :
    ((newUses A s v 1).filter fun x => x.pool = pf).card =
      (if pf = (Use.page s v).pool then 1 else 0)+
        ((newTables A s v 1).filter fun x => x.pool = pf).card := by
  have hpages : newPages s v 1 = {.page s v} := by
    ext x
    rw [mem_newPages,Finset.mem_singleton]
    constructor
    · rintro ⟨w,h₁,h₂,h₃⟩
      obtain rfl : w = v := by omega
      exact h₃
    · intro hx
      exact ⟨v,by omega,by omega,hx⟩
  have hdis : Disjoint (newPages s v 1) (newTables A s v 1) := by
    rw [Finset.disjoint_left]
    intro x h₁ h₂
    obtain ⟨w,-,-,rfl⟩ := mem_newPages.mp h₁
    obtain ⟨t,w',-,-,-,hx,-⟩ := mem_newTables.mp h₂
    simp at hx
  rw [newUses,Finset.filter_union,
    Finset.card_union_of_disjoint (Finset.disjoint_filter_filter hdis),hpages,
    Finset.filter_singleton]
  by_cases hp : pf = (Use.page s v).pool
  · rw [if_pos hp.symm,if_pos hp,Finset.card_singleton]
  · rw [if_neg (Ne.symm hp),if_neg hp,Finset.card_empty]

/-- palloc and page_table_add together. -/
theorem Added.grow (h : Added m₁ A s v f m' A') (hrest : m₁.rest = m.rest)
    (hmem : m₁.mem = m.mem)
    (hfree : ∀ pf, m₁.free pf+(if pf = (Use.page s v).pool then 1 else 0) = m.free pf) :
    Grow m A (newUses A s v 1) m' A' := by
  refine ⟨h.rest.trans hrest,fun x hx => ?_,h.old,fun pf => ?_,fun g hg => ?_⟩
  · rcases mem_newUses.mp hx with hx | hx
    · obtain ⟨w,h₁,h₂,rfl⟩ := mem_newPages.mp hx
      obtain rfl : w = v := by omega
      exact ⟨h.absent,Option.isSome_of_eq_some h.page⟩
    · obtain ⟨t,w,-,-,-,-,hn⟩ := mem_newTables.mp hx
      exact ⟨hn,h.table x hx⟩
  · have h₁ := hfree pf
    have h₂ := h.free pf
    rw [card_newUses_one]
    omega
  · rw [← hmem]
    exact h.data g (hg.mono (m.setup_of_rest hrest) fun _ _ hp => hp)

theorem Machine.pool_space (m : Machine) (pf : PoolFlags) (v : ℕ) :
    (Use.page (m.space pf) v).pool = pf := by
  cases pf <;> rfl

theorem Machine.reaches_space (m : Machine) (pf : PoolFlags) :
    m.Reaches (m.space pf) := by
  cases pf
  · exact .inl rfl
  · exact .inr rfl

theorem Machine.inSpace_congr (h : m'.setup = m.setup) (s : Option TaskId) (v : ℕ) :
    m'.InSpace s v ↔ m.InSpace s v :=
  iff_of_eq (congrArg (fun c => c.InSpace s v) h)

theorem Machine.space_congr (h : m'.setup = m.setup) (pf : PoolFlags) :
    m'.space pf = m.space pf :=
  congrArg (fun c => c.space pf) h

/-- The loop of malloc_page maps the whole range, and fails exactly when a page is mapped
already or when a pool has too few free frames. -/
theorem PageRep.mapPages_runs (h : PageRep m A F)
    (hv : ∀ k, k < n → m.InSpace (m.space pf) (v+k)) :
    Runs (mapPages pf (4096*v) n) m
      (fun _ m' => ∃ A', PageRep m' A' F ∧
        Grow m A (newUses A (m.space pf) v n) m' A')
      (fun _ m' => m'.rest = m.rest ∧
        ((∃ k, k < n ∧ (A (.page (m.space pf) (v+k))).isSome) ∨
        ∃ pf', m.free pf' < ((newUses A (m.space pf) v n).filter
          fun x => x.pool = pf').card)) := by
  induction n generalizing m A v with
  | zero =>
    rw [newUses_zero]
    exact ⟨A,h,Grow.refl⟩
  | succ n ih =>
    generalize hs : m.space pf = s at hv ⊢
    have hsub : newUses A s v 1 ⊆ newUses A s v (n+1) := by
      intro x hx
      rcases mem_newUses.mp hx with hx | hx
      · obtain ⟨w,h₁,h₂,h₃⟩ := mem_newPages.mp hx
        exact mem_newUses.mpr (.inl (mem_newPages.mpr ⟨w,h₁,by omega,h₃⟩))
      · obtain ⟨t,w,h₀,h₁,h₂,h₃,h₄⟩ := mem_newTables.mp hx
        exact mem_newUses.mpr (.inr (mem_newTables.mpr ⟨t,w,h₀,h₁,by omega,h₃,h₄⟩))
    have hle : ∀ pf', ((newUses A s v 1).filter fun x => x.pool = pf').card ≤
        ((newUses A s v (n+1)).filter fun x => x.pool = pf').card :=
      fun pf' => Finset.card_le_card (Finset.filter_subset_filter _ hsub)
    have hpool : (Use.page s v).pool = pf := by rw [← hs,Machine.pool_space]
    rw [mapPages]
    apply Runs.bind (h.palloc_runs.mono (fun _ _ hx => hx) ?_)
    · rintro _ m₁ ⟨f,rfl,hf,hp,hrep,hrest,hmem,hfree⟩
      have hset := m.setup_of_rest hrest
      have hs₁ : m₁.space pf = s := by rw [Machine.space_congr hset,hs]
      have hf0 : 4096*f ≠ 0 := by
        have hle := h.le_of_inPool hp
        unfold firstPoolFrame at hle
        omega
      rw [Runs,Exec.bind_of_ok (kassert_eq hf0)]
      change Runs _ m₁ _ _
      apply Runs.bind ((hrep.pageTableAdd_runs hf ((Machine.inSpace_congr hset s v).mpr
        (hv 0 (by omega))) (hs₁ ▸ m₁.reaches_space pf)
        ((Machine.inPool_congr hset _ f).mpr (hpool.symm ▸ hp))).mono (fun _ _ hx => hx) ?_)
      · rintro _ m₂ ⟨A₂,hrep₂,hadd⟩
        have hgrow := hadd.grow hrest hmem (by rw [hpool]; exact hfree)
        have hset₂ := m.setup_of_rest hgrow.rest
        have hs₂ : m₂.space pf = s := by rw [Machine.space_congr hset₂,hs]
        have hsplit : newUses A s v (n+1) = newUses A s v 1 ∪ newUses A₂ s (v+1) n :=
          newUses_succ hgrow.old fun x hx => (hgrow.new x hx).2
        have hrun := ih (m := m₂) (v := v+1) hrep₂ fun k hk => by
          rw [hs₂,Machine.inSpace_congr hset₂,show v+1+k = v+(k+1) by omega]
          exact hv (k+1) (by omega)
        rw [hs₂] at hrun
        refine hrun.mono ?_ ?_
        · rintro _ m₃ ⟨A₃,hrep₃,hgrow₃⟩
          exact ⟨A₃,hrep₃,hsplit ▸ hgrow.trans hgrow₃⟩
        · rintro _ m₃ ⟨hrest₃,hfail⟩
          refine ⟨hrest₃.trans hgrow.rest,?_⟩
          rcases hfail with ⟨k,hk,hsome⟩ | ⟨pf',hlt⟩
          · refine .inl ⟨k+1,by omega,?_⟩
            rw [hgrow.old _ fun hc => ?_,show v+1+k = v+(k+1) by omega] at hsome
            · exact hsome
            · rcases mem_newUses.mp hc with hc | hc
              · obtain ⟨w,h₁,h₂,h₃⟩ := mem_newPages.mp hc
                simp only [Use.page.injEq] at h₃
                omega
              · obtain ⟨t,w,-,-,-,hx,-⟩ := mem_newTables.mp hc
                simp at hx
          · refine .inr ⟨pf',?_⟩
            have hdis : Disjoint (newUses A s v 1) (newUses A₂ s (v+1) n) :=
              newUses_disjoint fun x hx => (hgrow.new x hx).2
            have hfr := hgrow.free pf'
            rw [hsplit,Finset.filter_union,Finset.card_union_of_disjoint
              (Finset.disjoint_filter_filter hdis)]
            omega
      · rintro _ m₂ ⟨hrest₂,hfail⟩
        refine ⟨hrest₂.trans hrest,?_⟩
        rcases hfail with hsome | hlt
        · exact .inl ⟨0,by omega,hsome⟩
        · refine .inr ⟨.kernel,?_⟩
          have h₁ := hfree .kernel
          have h₂ := card_newUses_one (A := A) (s := s) (v := v) .kernel
          have h₃ := hle .kernel
          rw [hpool] at h₂
          omega
    · rintro _ m₁ ⟨hzero,hrest⟩
      refine ⟨hrest,.inr ⟨pf,?_⟩⟩
      have h₂ := card_newUses_one (A := A) (s := s) (v := v) pf
      have h₃ := hle pf
      rw [if_pos hpool.symm] at h₂
      omega

end MapPages
end OsKernel

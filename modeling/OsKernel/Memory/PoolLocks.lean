import OsKernel.Memory.HasPages
import OsKernel.Memory.PoolUse

/-! Whether the page allocator keeps to the lock that it holds. The frames of page tables come from
the pool of the kernel, also when the page is for a process and the lock is that of the other
pool. -/
namespace OsKernel
open Paging ByteMemory Exec KernelM

/-- In the range that bitmap_scan finds for a process, every page that gets a frame has a page
table. -/
def Machine.HasTables (m : Machine) (n : ℕ) : Prop :=
  0 < n → n < 3840 → ∀ k, (m.vbitmap .user).bitmapScan n = some k →
    m.lackingTables (firstPage (m.space .user)+k) (min n (m.free .user)) = ∅

/-- When malloc_page, under the lock of its pool, uses no other pool without the lock. -/
def Machine.Sheltered (m : Machine) (pf : PoolFlags) (n : ℕ) : Prop :=
  pf = .kernel ∨ m.holds .kernel = true ∨ m.HasTables n

section Pages
variable {m m' : Machine} {A : FrameMap} {F : Set ℕ} {P : Set (Option TaskId × ℕ)}
  {s : Option TaskId} {pf : PoolFlags} {t : TaskId} {l : PoolLock} {vaddr pa v n k : ℕ}

theorem newTables_eq_empty_iff : newTables A (some t) v n = ∅ ↔
    ∀ w, v ≤ w → w < v+n → (A (.table t (w/1024))).isSome := by
  rw [Finset.eq_empty_iff_forall_notMem]
  constructor
  · intro hno w h₁ h₂
    by_contra hw
    rw [Option.not_isSome_iff_eq_none] at hw
    exact hno _ (mem_newTables.mpr ⟨t,w,rfl,h₁,h₂,rfl,hw⟩)
  · rintro hall x hx
    obtain ⟨u,w,hu,h₁,h₂,rfl,hnone⟩ := mem_newTables.mp hx
    obtain rfl := Option.some.inj hu
    have hsome := hall w h₁ h₂
    rw [hnone] at hsome
    contradiction

theorem tableAdd_not_guarded (hk : m.holds .kernel = false) :
    ¬ m.Guarded (tableAdd vaddr pa m).2 := by
  have hp : (palloc .kernel m).2.events = m.events++[⟨.palloc,.kernel,m.holds .kernel⟩] := by
    rw [palloc_eq]
    split <;> rfl
  rw [tableAdd,Machine.guarded_bind (palloc_uses (Set.mem_univ _)) fun _ => tableEnter_uses]
  exact fun hg => Machine.not_guarded hp hk hg.1

theorem PageRep.pageTableAdd_guarded_iff (h : PageRep m A F) (hv : m.InSpace s v)
    (hs : m.Reaches s) (hk : m.holds .kernel = false) :
    m.Guarded (pageTableAdd (4096*v) pa m).2 ↔ (A.tableOf s v).isSome := by
  rw [h.pageTableAdd_eq hv hs]
  split_ifs with htab
  · exact iff_of_true ((pteAdd_uses (S := ∅) m).guarded (by simp)) htab
  · exact iff_of_false (tableAdd_not_guarded hk) htab

/-- A page with a page table gets its frame. -/
theorem PageRep.pageTableAdd_ok {f : ℕ} (h : PageRep m A (insert f F)) (hf : f ∉ F)
    (hv : m.InSpace s v) (hs : m.Reaches s) (hp : m.InPool (Use.page s v).pool f)
    (hnone : A (.page s v) = none) (htab : (A.tableOf s v).isSome) :
    ∃ m' A', pageTableAdd (4096*v) (4096*f) m = (.ok (),m') ∧ PageRep m' A' F ∧
      Added m A s v f m' A' ∧ newTables A s v 1 = ∅ := by
  obtain ⟨tab,htab⟩ := Option.isSome_iff_exists.mp htab
  have htables : newTables A s v 1 = ∅ := newTables_of_some htab
  have hruns := h.pageTableAdd_runs hf hv hs hp
  cases hx : pageTableAdd (4096*v) (4096*f) m with
  | mk r m' =>
    cases r with
    | ok u =>
      obtain ⟨A',hrep,hadd⟩ := hruns.of_ok hx
      exact ⟨m',A',rfl,hrep,hadd,htables⟩
    | error e =>
      obtain ⟨-,hsome|hlt⟩ := hruns.of_error hx
      · rw [hnone] at hsome
        contradiction
      · rw [htables] at hlt
        simp at hlt

/-- A frame for a page of a process. -/
theorem PageRep.pallocUser_runs (h : PageRep m A F) (hin : m.InSpace (some m.runningThread) v) :
    Runs (palloc .user) m
      (fun pa m' => ∃ f, pa = 4096*f ∧ 4096*f ≠ 0 ∧ f ∉ F ∧ PageRep m' A (insert f F) ∧
        m'.InSpace (some m.runningThread) v ∧ m'.Reaches (some m.runningThread) ∧
        m'.InPool .user f ∧ m'.setup = m.setup ∧ m'.free .user+1 = m.free .user)
      (fun _ _ => m.free .user = 0) := by
  refine h.palloc_runs.mono ?_ fun _ _ he => he.1
  rintro _ m' ⟨f,rfl,hf,hp,hrep,hrest,-,hfree⟩
  have hset := m.setup_of_rest hrest
  refine ⟨f,rfl,?_,hf,hrep,(Machine.inSpace_congr hset _ _).mpr hin,
    .inr (congrArg some (Machine.runningThread_congr hset).symm),
    (Machine.inPool_congr hset _ f).mpr hp,hset,hfree .user⟩
  have hle := h.le_of_inPool hp
  unfold firstPoolFrame at hle
  omega

/-- The loop of malloc_page for a process, until a page table is missing or the frames are used
up. -/
theorem PageRep.mapPages_guarded_iff (h : PageRep m A F)
    (hv : ∀ i, i < n → m.InSpace (some m.runningThread) (v+i) ∧
      A (.page (some m.runningThread) (v+i)) = none)
    (hu : m.holds .user = true) (hk : m.holds .kernel = false) :
    m.Guarded (mapPages .user (4096*v) n m).2 ↔
      newTables A (some m.runningThread) v (min n (m.free .user)) = ∅ := by
  generalize ht : m.runningThread = t at hv ⊢
  rw [newTables_eq_empty_iff]
  induction n generalizing m A v with
  | zero => exact iff_of_true m.guarded_refl fun w h₁ h₂ => by omega
  | succ n ih =>
    have hpalloc : m.Uses {.user} (palloc .user m).2 := palloc_uses (Set.mem_singleton _) m
    have hruns := h.pallocUser_runs (ht.symm ▸ (hv 0 (Nat.zero_lt_succ n)).1)
    have hg₁ : m.Guarded (palloc .user m).2 := hpalloc.guarded (by rintro _ rfl; exact hu)
    rw [mapPages,Machine.guarded_bind (palloc_uses (Set.mem_univ _)) fun _ =>
      .bind kassert_uses fun _ => .bind (pageTableAdd_uses (Set.mem_univ _)) fun _ =>
        mapPages_uses (Set.mem_univ _) (Set.mem_univ _),and_iff_right hg₁]
    cases hx : palloc .user m with
    | mk r m₁ =>
      rw [hx] at hpalloc
      cases r with
      | error e =>
        have hzero := hruns.of_error hx
        rw [Exec.bind_of_error hx]
        exact iff_of_true m₁.guarded_refl fun w h₁ h₂ => by omega
      | ok pa =>
        obtain ⟨f,rfl,hf0,hf,hrep₁,hin₁,hs₁,hp₁,hset₁,hfree₁⟩ := hruns.of_ok hx
        rw [ht,Nat.add_zero] at hin₁
        rw [ht] at hs₁
        have hk₁ : m₁.holds .kernel = false := (hpalloc.holds _).trans hk
        rw [Exec.bind_of_ok hx,Exec.bind_of_ok (kassert_eq hf0)]
        change m₁.Guarded _ ↔ _
        rw [Machine.guarded_bind (pageTableAdd_uses (Set.mem_univ _)) fun _ =>
            mapPages_uses (Set.mem_univ _) (Set.mem_univ _),
          hrep₁.pageTableAdd_guarded_iff hin₁ hs₁ hk₁]
        by_cases htab : (A.tableOf (some t) v).isSome
        swap
        · refine iff_of_false (fun hg => htab hg.1) fun hall => htab ?_
          exact hall v (Nat.le_refl v) (by omega)
        obtain ⟨m₂,A₂,hy,hrep₂,hadd,htables⟩ := hrep₁.pageTableAdd_ok hf hin₁ hs₁ hp₁
          (hv 0 (Nat.zero_lt_succ n)).2 htab
        have huse₂ := (Machine.Uses.of_moves (pageTableAdd_uses (Set.mem_univ _)) hy)
        have hset₂ := (m₁.setup_of_rest hadd.rest).trans hset₁
        have hnext : 4096*v+pageSize = 4096*(v+1) := by
          unfold pageSize
          omega
        have hold (x : Use) (hx : x ≠ .page (some t) v) : A₂ x = A x := by
          refine hadd.old x fun hmem => ?_
          rw [mem_newUses,htables] at hmem
          obtain ⟨w,h₁,h₂,rfl⟩ := mem_newPages.mp (hmem.resolve_right (Finset.notMem_empty x))
          exact hx (by rw [show w = v by omega])
        have hfree : m₂.free .user+1 = m.free .user := by
          have h₂ := hadd.free .user
          rw [htables,Finset.filter_empty,Finset.card_empty] at h₂
          omega
        rw [Exec.bind_of_ok hy,hy,hnext,and_iff_right htab,ih hrep₂
          ((huse₂.holds _).trans ((hpalloc.holds _).trans hu)) ((huse₂.holds _).trans hk₁)
          ((Machine.runningThread_congr hset₂).trans ht) fun i hi => ?_]
        · constructor
          · intro hall w h₁ h₂
            by_cases hw : w = v
            · rw [hw]
              exact htab
            · rw [← hold _ (by simp)]
              exact hall w (by omega) (by omega)
          · intro hall w h₁ h₂
            rw [hold _ (by simp)]
            exact hall w (by omega) (by omega)
        · have hvi := hv (i+1) (by omega)
          rw [show v+1+i = v+(i+1) by omega,Machine.inSpace_congr hset₂,
            hold _ (by rw [Ne,Use.page.injEq]; omega)]
          exact hvi

theorem PageRep.lackingTables_eq_empty_iff (h : PageRep m A F) (ht : m.IsProc m.runningThread)
    (hlt : v+n ≤ kernelHalf) :
    m.lackingTables v n = ∅ ↔ newTables A (some m.runningThread) v n = ∅ := by
  rw [h.lackingTables_image ht hlt,Finset.image_eq_empty]

/-- HasTables, in terms of the map. -/
theorem PageRep.hasTables_iff (h : PageRep m A F) (hv : VaddrRep m A P) : m.HasTables n ↔
    (0 < n → n < 3840 → ∀ k, (m.vbitmap .user).bitmapScan n = some k →
      newTables A (m.space .user) (firstPage (m.space .user)+k) (min n (m.free .user)) = ∅) := by
  refine forall_congr' fun hn => forall_congr' fun _ => forall_congr' fun k =>
    forall_congr' fun hscan => ?_
  have hin := (hv.scan hn hscan).2
  have hlast := (hin (n-1) (by omega)).1
  have hproc : m.IsProc m.runningThread := hlast.1
  have hlt := hlast.2.2
  have hspace : m.space .user = some m.runningThread := rfl
  rw [hspace] at hlt ⊢
  exact h.lackingTables_eq_empty_iff hproc (by omega)

/-- The loop of malloc_page in a range that vaddr_get has marked. -/
theorem PageRep.mapMarked_guarded_iff (h : PageRep m A F) (hv : VaddrRep m A P) (hn : 0 < n)
    (hscan : (m.vbitmap .user).bitmapScan n = some k) {events : List Event}
    (hm' : m' = { m.setVaddr .user ((m.vbitmap .user).setRange k true n) with events := events })
    (hu : m'.holds .user = true) (hk : m'.holds .kernel = false) :
    m'.Guarded (mapPages .user (4096*(firstPage (m.space .user)+k)) n m').2 ↔
      newTables A (m.space .user) (firstPage (m.space .user)+k) (min n (m.free .user)) = ∅ := by
  have hlen : ((m.vbitmap .user).setRange k true n).btmpBytesLen =
      (m.vbitmap .user).btmpBytesLen := Bitmap.setRange_btmpBytesLen _ _ _ _
  have hset : m'.setup = m.setup := by
    rw [hm']
    exact Machine.setVaddr_setup hlen
  have hrep : PageRep m' A F := by
    rw [hm']
    exact (h.setVaddr hlen).congr rfl rfl fun _ _ => rfl
  have hfree : m'.free .user = m.free .user := by
    rw [hm']
    exact m.setVaddr_free .user ((m.vbitmap .user).setRange k true n) .user
  have hrun := Machine.runningThread_congr hset
  have hloop := hrep.mapPages_guarded_iff (n := n) (v := firstPage (m.space .user)+k)
    (fun i hi => ?_) hu hk
  · rwa [hrun,hfree] at hloop
  · obtain ⟨hin,hnone,-⟩ := (hv.scan hn hscan).2 i hi
    rw [hrun,Machine.inSpace_congr hset]
    exact ⟨hin,hnone⟩

/-- malloc_page for a process, which does not hold the lock of the kernel's pool. -/
theorem PageRep.mallocUser_guarded_iff (h : PageRep m A F) (hv : VaddrRep m A P)
    (hu : m.holds .user = true) (hk : m.holds .kernel = false) :
    m.Guarded (mallocPage .user n m).2 ↔ m.HasTables n := by
  rw [h.hasTables_iff hv]
  by_cases hn : 0 < n ∧ n < 3840
  swap
  · rw [mallocPage,Exec.bind_of_error (kassert_error hn)]
    exact iff_of_true m.guarded_refl fun h₁ h₂ => absurd ⟨h₁,h₂⟩ hn
  have huse : m.Uses ∅ (vaddrGet .user n m).2 :=
    vaddrGet_uses (fun hc => absurd hc PoolFlags.noConfusion) m
  have hruns : Runs (vaddrGet .user n) m _ _ := vaddrGet_runs h hv hn.1
  rw [mallocPage,Exec.bind_of_ok (kassert_eq hn)]
  cases hx : vaddrGet .user n m with
  | mk r m₁ =>
    rw [hx] at huse
    cases r with
    | error e =>
      rw [Exec.bind_of_error hx]
      refine iff_of_true (huse.guarded (by simp)) fun _ _ k hk => ?_
      rw [hruns.of_error hx] at hk
      contradiction
    | ok va =>
      rw [Machine.guarded_of_bind hx huse.quiet]
      obtain ⟨rfl,hnone⟩|⟨k,events,hscan,rfl,hm₁⟩ := hruns.of_ok hx
      · rw [Exec.bind_of_error (kassert_error (by simp))]
        refine iff_of_true m₁.guarded_refl fun _ _ k hk => ?_
        rw [hnone] at hk
        contradiction
      have hne : 4096*(firstPage (m.space .user)+k) ≠ 0 := by
        simp only [Machine.space,firstPage,userStartPage]
        omega
      rw [Exec.bind_of_ok (kassert_eq hne),Machine.guarded_bind_quiet fun _ => .pure _,
        h.mapMarked_guarded_iff hv hn.1 hscan hm₁ ((huse.holds _).trans hu)
          ((huse.holds _).trans hk)]
      constructor
      · intro htables _ _ k' hk'
        obtain rfl := Option.some.inj (hscan.symm.trans hk')
        exact htables
      · exact fun hall => hall hn.1 hn.2 k hscan

/-- malloc_page under the lock of its pool. -/
theorem PageRep.mallocPage_guarded_iff (h : PageRep m A F) (hv : VaddrRep m A P)
    (hheld : m.holds pf = true) : m.Guarded (mallocPage pf n m).2 ↔ m.Sheltered pf n := by
  cases pf with
  | kernel =>
    have huse : m.Uses {.kernel} (mallocPage .kernel n m).2 :=
      mallocPage_uses (Set.mem_singleton _) (Set.mem_singleton _) m
    exact iff_of_true (huse.guarded (by rintro _ rfl; exact hheld)) (.inl rfl)
  | user =>
    by_cases hk : m.holds .kernel = true
    · have huse : m.Uses Set.univ (mallocPage .user n m).2 :=
        mallocPage_uses (Set.mem_univ _) (Set.mem_univ _) m
      exact iff_of_true (huse.guarded fun pf _ => by cases pf <;> assumption) (.inr (.inl hk))
    · rw [Machine.Sheltered,or_iff_right (by simp),or_iff_right hk]
      exact h.mallocUser_guarded_iff hv hheld (Bool.eq_false_of_not_eq_true hk)

end Pages

section Calls
variable {m m' : Machine} {A : FrameMap} {F : Set ℕ} {P : Set (Option TaskId × ℕ)}
  {pf : PoolFlags} {l : PoolLock} {func : String} {vaddr v n : ℕ}

theorem Machine.lackingTables_setLock : (m.setLock pf l).lackingTables v n = m.lackingTables v n :=
  rfl

theorem Machine.holds_setLock_of_ne {pf' : PoolFlags} (h : pf' ≠ pf) :
    (m.setLock pf l).holds pf' = m.holds pf' :=
  Machine.holds_congr rfl (by rw [m.setLock_pool,if_neg h])

/-- The lock that is taken is not the one in question. -/
theorem Machine.sheltered_setLock : (m.setLock pf l).Sheltered pf n ↔ m.Sheltered pf n := by
  cases pf with
  | kernel => exact iff_of_true (.inl rfl) (.inl rfl)
  | user =>
    unfold Sheltered HasTables
    rw [Machine.holds_setLock_of_ne (by simp),Machine.setLock_free]
    rfl

/-- Under the lock, if the lock can be had. -/
theorem Machine.guarded_locked {α : Type} {f : Unit → KernelM α}
    (hf : ∀ l, (m.setLock pf l).holds pf = true →
      (m.setLock pf l).Guarded (f () (m.setLock pf l)).2) :
    m.Guarded ((lockAcquire pf >>= f) m).2 := by
  have hruns := lockAcquire_runs m pf
  cases hx : lockAcquire pf m with
  | mk r m₁ =>
    cases r with
    | error e =>
      rw [Exec.bind_of_error hx,hruns.of_error hx]
      exact m.guarded_refl
    | ok u =>
      have hheld := (lockAcquire_holds m pf).of_ok hx
      obtain ⟨l,rfl⟩ := hruns.of_ok hx
      rw [Machine.guarded_of_bind hx rfl]
      exact hf l hheld

/-- What get_kernel_pages and get_user_pages do after malloc_page. -/
theorem getPages_tail_quiet (vaddr : ℕ) : Moves Machine.Quiet (do
    kassert (vaddr ≠ 0) func "vaddr!=NULL"
    memset vaddr 0 (n*pageSize)
    lockRelease pf
    return vaddr : KernelM ℕ) :=
  .bind (Machine.Uses.moves_quiet kassert_uses) fun _ =>
    .bind (Machine.Uses.moves_quiet memset_uses) fun _ => .bind lockRelease_quiet fun _ => .pure _

/-- get_kernel_pages and get_user_pages, whoever has the lock. -/
theorem PageRep.getPages_guarded (h : PageRep m A F) (hv : VaddrRep m A P)
    (hs : m.Sheltered pf n) : m.Guarded (getPages pf func n m).2 := by
  refine Machine.guarded_locked fun l hheld => ?_
  rw [Machine.guarded_bind_quiet getPages_tail_quiet,
    h.setLock.mallocPage_guarded_iff hv.setLock hheld,Machine.sheltered_setLock]
  exact hs

/-- get_kernel_pages and get_user_pages, where nobody has the lock. -/
theorem PageRep.getPages_guarded_iff (h : PageRep m A F) (hv : VaddrRep m A P)
    (hlock : (m.pool pf).lock = ⟨none,0⟩) :
    m.Guarded (getPages pf func n m).2 ↔ m.Sheltered pf n := by
  have hacq := lockAcquire_free hlock
  rw [getPages,Machine.guarded_of_bind hacq rfl,Machine.guarded_bind_quiet getPages_tail_quiet,
    h.setLock.mallocPage_guarded_iff hv.setLock ((lockAcquire_holds m pf).of_ok hacq),
    Machine.sheltered_setLock]

/-- get_a_page after lock_acquire. -/
def handPage (pf : PoolFlags) (vaddr : ℕ) : KernelM ℕ := do
  markPage pf vaddr
  let pagePhyaddr ← palloc pf
  if pagePhyaddr = 0 then return 0
  else do
    pageTableAdd vaddr pagePhyaddr
    lockRelease pf
    return vaddr

theorem getAPage_eq (pf : PoolFlags) (vaddr : ℕ) : getAPage pf vaddr = (do
    lockAcquire pf
    handPage pf vaddr) := rfl

theorem handPage_guarded (hpf : m.holds pf = true) (hk : m.holds .kernel = true) :
    m.Guarded (handPage pf vaddr m).2 := by
  have hS : ∀ pf' ∈ ({pf,.kernel} : Set PoolFlags), m.holds pf' = true := by
    rintro pf' (rfl|rfl)
    · exact hpf
    · exact hk
  have hmem : PoolFlags.kernel ∈ ({pf,.kernel} : Set PoolFlags) := .inr rfl
  refine (markPage_uses (fun _ => hmem) m).guarded_bind hS fun _ m₁ _ huse₁ => ?_
  refine (palloc_uses (.inl rfl) m₁).guarded_bind (fun pf' h => (huse₁.holds _).trans (hS pf' h))
    fun pa m₂ _ huse₂ => ?_
  split_ifs
  · exact m₂.guarded_refl
  · rw [Machine.guarded_bind_quiet fun _ => .bind lockRelease_quiet fun _ => .pure _]
    exact (pageTableAdd_uses hmem m₂).guarded fun pf' h =>
      ((huse₁.trans huse₂).holds _).trans (hS pf' h)

/-- get_a_page with a page of the kernel keeps to its lock. -/
theorem getAPage_kernel_guarded (m : Machine) (vaddr : ℕ) :
    m.Guarded (getAPage .kernel vaddr m).2 := by
  rw [getAPage_eq]
  exact Machine.guarded_locked fun _ hheld => handPage_guarded hheld hheld

/-- The page of a process that get_a_page gives a frame has a page table. -/
def Machine.HasTable (m : Machine) (v : ℕ) : Prop :=
  userStartPage < v → m.lackingTables v (min 1 (m.free .user)) = ∅

theorem pageOffset_in_page {start : ℕ} (hstart : start = 4096*k) (hle : k ≤ vaddr/4096)
    (hlt : vaddr/4096 < 2^20) : pageOffset vaddr start = vaddr/4096-k := by
  subst hstart
  unfold pageOffset pageSize
  omega

/-- page_table_add does not depend on the offset in the page. -/
theorem pageTableAdd_page (vaddr pa : ℕ) :
    pageTableAdd vaddr pa = pageTableAdd (4096*(vaddr/4096)) pa := by
  have hpde : pdePtr vaddr = pdePtr (4096*(vaddr/4096)) := by
    unfold pdePtr pdeIdx
    omega
  have hpte : ptePtr vaddr = ptePtr (4096*(vaddr/4096)) := by
    unfold ptePtr pdeIdx pteIdx
    omega
  unfold pageTableAdd pteAdd tableAdd tableEnter
  rw [hpde,hpte]

/-- The bit that get_a_page sets for a process. -/
theorem PageRep.markUser_eq (h : PageRep m A F) (hv : VaddrRep m A P)
    (hin : m.InSpace (some m.runningThread) v) (hpage : vaddr/4096 = v) : markPage .user vaddr m =
      if userStartPage < v then
        (.ok (),m.setVaddr .user ((m.vbitmap .user).setRange (v-userStartPage) true 1))
      else (.error (.assert "get_a_page" "bit_idx > 0"),m) := by
  have hlt := hin.lt h.toLayout
  unfold recursivePage at hlt
  have hoff := pageOffset_in_page (h.vaddrStart_eq hv hin)
    (hpage ▸ hin.firstPage_le) (by omega)
  rw [hpage,show firstPage (some m.runningThread) = userStartPage from rfl] at hoff
  generalize hk : v-userStartPage = k at hoff ⊢
  change pageOffset vaddr (m.task m.runningThread).userprogVaddr.vaddrStart = k at hoff
  rw [markPage,Exec.bind_of_ok (show Exec.get m = (.ok m,m) from rfl)]
  dsimp only
  rw [if_pos ⟨hin.1,rfl⟩,hoff]
  by_cases hlt : userStartPage < v
  · rw [if_pos hlt,Exec.bind_of_ok (kassert_eq (by omega))]
    rfl
  · rw [if_neg hlt,Exec.bind_of_error (kassert_error (by omega))]

theorem PageRep.hasTable_iff (h : PageRep m A F) (hin : m.InSpace (some m.runningThread) v) :
    m.HasTable v ↔ (userStartPage < v → 0 < m.free .user →
      (A.tableOf (some m.runningThread) v).isSome) := by
  refine forall_congr' fun _ => ?_
  have hlt := hin.2.2
  rw [h.lackingTables_eq_empty_iff hin.1 (by omega),newTables_eq_empty_iff]
  constructor
  · exact fun hall hfree => hall v (Nat.le_refl v) (by omega)
  · intro hone w h₁ h₂
    obtain rfl : w = v := by omega
    exact hone (by omega)

/-- get_a_page for a process, after lock_acquire. -/
theorem PageRep.handPage_guarded_iff (h : PageRep m A F) (hv : VaddrRep m A P)
    (hin : m.InSpace (some m.runningThread) v) (hpage : vaddr/4096 = v)
    (hu : m.holds .user = true) (hk : m.holds .kernel = false) :
    m.Guarded (handPage .user vaddr m).2 ↔ m.HasTable v := by
  rw [h.hasTable_iff hin]
  have hmark := h.markUser_eq hv hin hpage
  by_cases hlt : userStartPage < v
  swap
  · rw [if_neg hlt] at hmark
    rw [handPage,Exec.bind_of_error hmark]
    exact iff_of_true m.guarded_refl fun hc => absurd hc hlt
  rw [if_pos hlt] at hmark
  have hlen : ((m.vbitmap .user).setRange (v-userStartPage) true 1).btmpBytesLen =
      (m.vbitmap .user).btmpBytesLen := Bitmap.setRange_btmpBytesLen _ _ _ _
  generalize hm₁ : m.setVaddr .user ((m.vbitmap .user).setRange (v-userStartPage) true 1) = m₁
    at hmark
  have huse₁ : m.Uses ∅ m₁ := hm₁ ▸ m.uses_setVaddr .user _
  have hset₁ : m₁.setup = m.setup := hm₁ ▸ Machine.setVaddr_setup hlen
  have hrep₁ : PageRep m₁ A F := hm₁ ▸ h.setVaddr hlen
  have hfree₁ : m₁.free .user = m.free .user := by rw [← hm₁,m.setVaddr_free]
  have hrun₁ := huse₁.runningThread
  have hin₁ : m₁.InSpace (some m₁.runningThread) v := by
    rwa [hrun₁,Machine.inSpace_congr hset₁]
  have hpalloc : m₁.Uses {.user} (palloc .user m₁).2 := palloc_uses (Set.mem_singleton _) m₁
  have hg₂ := hpalloc.guarded (by rintro _ rfl; exact (huse₁.holds _).trans hu)
  have hruns := hrep₁.pallocUser_runs hin₁
  rw [handPage,Machine.guarded_of_bind hmark huse₁.quiet]
  cases hx : palloc .user m₁ with
  | mk r m₂ =>
    rw [hx] at hpalloc hg₂
    cases r with
    | error e =>
      rw [Exec.bind_of_error hx]
      exact iff_of_true hg₂ fun _ hpos => absurd ((hruns.of_error hx).symm.trans hfree₁)
        (Nat.ne_of_lt hpos)
    | ok pa =>
      obtain ⟨f,rfl,hf0,hf,hrep₂,hin₂,hs₂,hp₂,hset₂,hfree₂⟩ := hruns.of_ok hx
      rw [hrun₁] at hin₂ hs₂
      have hk₂ : m₂.holds .kernel = false := (hpalloc.holds _).trans ((huse₁.holds _).trans hk)
      rw [Exec.bind_of_ok hx,if_neg hf0,Machine.guarded_bind_quiet fun _ =>
        .bind lockRelease_quiet fun _ => .pure _,
        hpalloc.guarded_iff (pageTableAdd_uses (Set.mem_univ _) m₂),and_iff_right hg₂,
        pageTableAdd_page,hpage,hrep₂.pageTableAdd_guarded_iff hin₂ hs₂ hk₂]
      exact ⟨fun htab _ _ => htab,fun hall => hall hlt (by omega)⟩

/-- get_a_page for a process, where nobody holds the lock. -/
theorem PageRep.getAPage_guarded_iff (h : PageRep m A F) (hv : VaddrRep m A P)
    (hin : m.InSpace (some m.runningThread) v) (hpage : vaddr/4096 = v)
    (hlock : (m.pool .user).lock = ⟨none,0⟩) :
    m.Guarded (getAPage .user vaddr m).2 ↔ m.holds .kernel = true ∨ m.HasTable v := by
  have hacq := lockAcquire_free hlock
  have hheld := (lockAcquire_holds m .user).of_ok hacq
  have hne : PoolFlags.kernel ≠ .user := PoolFlags.noConfusion
  rw [getAPage_eq,Machine.guarded_of_bind hacq rfl]
  by_cases hk : m.holds .kernel = true
  · exact iff_of_true (handPage_guarded hheld (by rwa [Machine.holds_setLock_of_ne hne])) (.inl hk)
  · have hset := m.setLock_setup .user ⟨some m.runningThread,1⟩
    have hin' := (Machine.inSpace_congr hset _ _).mpr hin
    rw [or_iff_right hk,h.setLock.handPage_guarded_iff hv.setLock hin' hpage hheld
      (by rw [Machine.holds_setLock_of_ne hne]; exact Bool.eq_false_of_not_eq_true hk)]
    unfold Machine.HasTable
    rw [Machine.setLock_free]
    rfl

end Calls
end OsKernel

import OsKernel.Memory.PageInvariant

/-! Writes to page tables, and writes that leave all tables alone. -/
namespace OsKernel
open Paging ByteMemory

/-- The frame of the page table that holds the entry of a page. -/
def FrameMap.tableOf (A : FrameMap) (s : Option TaskId) (v : ℕ) : Option ℕ :=
  match s with
  | none => some (kernelTable v)
  | some t => A (.table t (v/1024))

/-- The pages that the bitmap of an address space covers. -/
def Machine.InSpace (m : Machine) (s : Option TaskId) (v : ℕ) : Prop :=
  match s with
  | none => kernelHeapPage ≤ v ∧
      v < kernelHeapPage+8*m.kernelVaddr.vaddrBitmap.btmpBytesLen
  | some t => m.IsProc t ∧ userStartPage ≤ v ∧ v < kernelHalf

/-- The frames of directories and page tables. -/
def Machine.TableFrame (m : Machine) (A : FrameMap) (g : ℕ) : Prop :=
  (∃ i o, i < 1024 ∧ TableSpec m A g i o) ∨ m.Dir A g

section Tables
variable {m : Machine} {A : FrameMap} {F : Set ℕ} {s : Option TaskId} {v f tab e : ℕ}
  {t : TaskId} {d i : ℕ} {o : Option ℕ}

theorem PageRep.inSpace (h : PageRep m A F) (hp : A (.page s v) = some f) : m.InSpace s v := by
  cases s with
  | none => exact h.kernelPage v f hp
  | some t =>
    obtain ⟨h₁,h₂,h₃,-⟩ := h.userPage t v f hp
    exact ⟨h₁,h₂,h₃⟩

theorem PageRep.kernel_lt_recursive (h : PageRep m A F) (hv : m.InSpace none v) :
    v < recursivePage := by
  have hl := h.vaddrLen
  have h₂ := hv.2
  unfold kernelHeapPage at h₂
  unfold recursivePage
  omega

theorem kernelTable_lt (hv : v < recursivePage) : kernelTable v < firstPoolFrame := by
  unfold recursivePage at hv
  unfold kernelTable firstPoolFrame
  omega

theorem FrameMap.tableOf_kernel (h : A.tableOf none v = some tab) : tab = kernelTable v :=
  (Option.some.inj h).symm

/-- A directory is no page table. -/
theorem PageRep.tableOf_ne_dir (h : PageRep m A F) (htab : A.tableOf s v = some tab)
    (hs : s = none → v < recursivePage) (hd : m.Dir A d) : d ≠ tab := by
  have hd' := h.dir_cases hd
  cases s with
  | none =>
    have hlt := kernelTable_lt (hs rfl)
    rw [FrameMap.tableOf_kernel htab]
    unfold bootDir firstPoolFrame at hd'
    unfold firstPoolFrame at hlt
    unfold kernelTable at hlt ⊢
    omega
  | some u =>
    rintro rfl
    change A (.table u (v/1024)) = some d at htab
    obtain hb | ⟨t,-,hd⟩ := hd
    · have hle := h.le_of_use htab
      unfold firstPoolFrame at hle
      unfold bootDir at hb
      omega
    · have := h.inj _ _ _ hd htab
      contradiction

/-- The entries of a page table after the entry of one page has been written. -/
theorem PageRep.setPage_tables (h : PageRep m A F) (hv : m.InSpace s v)
    (htab : A.tableOf s v = some tab) (he : e < 2^32)
    (hdir : ∀ t, m.IsProc t → Use.page none (m.dirPage t) ≠ .page s v) :
    Tables (m.setMem (store32 m.mem (4096*tab+4*(v % 1024)) e))
      (Function.update A (.page s v) (target e)) := by
  have hmod : v % 1024 < 1024 := Nat.mod_lt _ (by decide)
  have hrec : s = none → v < recursivePage := by
    rintro rfl
    exact h.kernel_lt_recursive hv
  have hdirOf : ∀ t, m.dirOf (Function.update A (.page s v) (target e)) t = m.dirOf A t := by
    intro t
    unfold Machine.dirOf
    split
    · rename_i ht
      rw [Function.update_of_ne (hdir t ht)]
    · rfl
  have hDir : ∀ d, m.Dir (Function.update A (.page s v) (target e)) d → m.Dir A d := by
    rintro d (hb | ⟨t,ht,hd⟩)
    · exact .inl hb
    · rw [Function.update_of_ne (hdir t ht)] at hd
      exact .inr ⟨t,ht,hd⟩
  have hkeep : ∀ g i o, TableSpec m A g i o → ¬ (g = tab ∧ i = v % 1024) →
      target (word (store32 m.mem (4096*tab+4*(v % 1024)) e) g i) = o := by
    intro g i o hs hne
    rw [word_store32_of_ne hmod hs.index_lt hne]
    exact h.spec g i o hs
  have hself : target (word (store32 m.mem (4096*tab+4*(v % 1024)) e) tab (v % 1024)) =
      target e := by rw [word_store32_self he]
  have hdirne : ∀ {t d}, m.dirOf A t = some d → d ≠ tab :=
    fun hd => h.tableOf_ne_dir htab hrec (Machine.dir_of_dirOf hd)
  refine ⟨fun g k o hs => ?_,fun g k hg h₁ h₂ => ?_,?_⟩
  · change target (word (store32 m.mem (4096*tab+4*(v % 1024)) e) g k) = o
    cases hs with
    | @low j hj =>
      apply hkeep _ _ _ (.low hj)
      rintro ⟨hg,hk⟩
      cases s with
      | none =>
        have h₁ := hv.1
        have ht := FrameMap.tableOf_kernel htab
        unfold kernelHeapPage at h₁
        unfold kernelTable at ht
        omega
      | some u =>
        have hle := h.le_of_use (x := .table u (v/1024)) htab
        unfold firstPoolFrame at hle
        omega
    | @kernelPte w h₁ h₂ =>
      by_cases hw : Use.page none w = .page s v
      · rw [Use.page.injEq] at hw
        obtain ⟨hs,hw⟩ := hw
        subst hs hw
        have ht := FrameMap.tableOf_kernel htab
        subst ht
        rw [hself,Function.update_self]
      · rw [Function.update_of_ne hw]
        apply hkeep _ _ _ (.kernelPte h₁ h₂)
        rintro ⟨htw,hmw⟩
        cases s with
        | none =>
          have h₃ := hv.1
          have ht := FrameMap.tableOf_kernel htab
          apply hw
          congr 1
          unfold kernelHeapPage at h₁ h₃
          unfold kernelTable at ht htw
          omega
        | some u =>
          change A (.table u (v/1024)) = some tab at htab
          have hle := h.le_of_use htab
          have hlt := kernelTable_lt h₂
          omega
    | kernelPde hd h₁ h₂ =>
      replace hd := (hdirOf _).symm.trans hd
      exact hkeep _ _ _ (.kernelPde hd h₁ h₂) fun hn => hdirne hd hn.1
    | self hd =>
      replace hd := (hdirOf _).symm.trans hd
      exact hkeep _ _ _ (.self hd) fun hn => hdirne hd hn.1
    | pde ht hd hi =>
      replace hd := (hdirOf _).symm.trans hd
      rw [Function.update_of_ne (by simp)]
      exact hkeep _ _ _ (.pde ht hd hi) fun hn => hdirne hd hn.1
    | @pte t i _ _ hf hj =>
      rw [Function.update_of_ne (by simp)] at hf
      by_cases hw : Use.page (some t) (1024*i+k) = .page s v
      · obtain ⟨rfl,rfl⟩ := Use.page.inj hw
        have hi : (1024*i+k)/1024 = i := by omega
        have hj' : (1024*i+k) % 1024 = k := by omega
        rw [FrameMap.tableOf,hi,hf] at htab
        obtain rfl := Option.some.inj htab
        rw [hj'] at hself
        rw [Function.update_self,hj',hself]
      · rw [Function.update_of_ne hw]
        apply hkeep _ _ _ (.pte hf hj)
        rintro ⟨rfl,rfl⟩
        cases s with
        | none =>
          have hle := h.le_of_use hf
          have hlt := kernelTable_lt (hrec rfl)
          have ht := FrameMap.tableOf_kernel htab
          omega
        | some u =>
          obtain ⟨rfl,rfl⟩ := Use.table.inj (h.inj _ _ _ hf htab)
          apply hw
          rw [Nat.div_add_mod]
  · have hg' : m.Dir A g := hDir g hg
    have hne := h.tableOf_ne_dir htab hrec hg'
    change word (store32 m.mem (4096*tab+4*(v % 1024)) e) g k = _
    rw [word_store32_of_ne hmod (by omega) fun hn => hne hn.1]
    exact h.kernelWord g k hg' h₁ h₂
  · obtain ⟨d,hd,hc⟩ := h.cr3
    exact ⟨d,(hdirOf _).trans hd,hc⟩

end Tables

section Uses
variable {m : Machine} {A : FrameMap} {F : Set ℕ} {x : Use} {f : ℕ}

/-- A reserved frame gets a use. -/
theorem Frames.add (h : Frames m A F) (hx : A x = none) (hf : f ∈ F) (hp : m.InPool x.pool f) :
    Frames m (Function.update A x (some f)) (F \ {f}) := by
  have hfresh : ∀ y, A y ≠ some f := fun y hy => h.reserved y f hy hf
  refine ⟨fun y z g hy hz => ?_,fun y g hy hg => ?_,fun y g hy => ?_,fun g hg => ?_,
    fun pf i hi => ?_⟩
  · by_cases hyx : y = x <;> by_cases hzx : z = x
    · rw [hyx,hzx]
    · subst hyx
      rw [Function.update_self] at hy
      rw [Function.update_of_ne hzx] at hz
      exact absurd (hz.trans hy.symm) (hfresh z)
    · subst hzx
      rw [Function.update_self] at hz
      rw [Function.update_of_ne hyx] at hy
      exact absurd (hy.trans hz.symm) (hfresh y)
    · rw [Function.update_of_ne hyx] at hy
      rw [Function.update_of_ne hzx] at hz
      exact h.inj y z g hy hz
  · by_cases hyx : y = x
    · subst hyx
      rw [Function.update_self] at hy
      exact hg.2 (Option.some.inj hy).symm
    · rw [Function.update_of_ne hyx] at hy
      exact h.reserved y g hy hg.1
  · by_cases hyx : y = x
    · subst hyx
      rw [Function.update_self] at hy
      rwa [← Option.some.inj hy]
    · rw [Function.update_of_ne hyx] at hy
      exact h.inPool y g hy
  · exact h.reservedInPool g hg.1
  · rw [h.bits pf i hi]
    constructor
    · rintro (hF | ⟨y,hy⟩)
      · by_cases he : m.start pf+i = f
        · exact .inr ⟨x,by rw [Function.update_self,he]⟩
        · exact .inl ⟨hF,he⟩
      · refine .inr ⟨y,?_⟩
        rwa [Function.update_of_ne (by rintro rfl; simp [hx] at hy)]
    · rintro (hF | ⟨y,hy⟩)
      · exact .inl hF.1
      · by_cases hyx : y = x
        · subst hyx
          rw [Function.update_self] at hy
          exact .inl (Option.some.inj hy ▸ hf)
        · rw [Function.update_of_ne hyx] at hy
          exact .inr ⟨y,hy⟩

/-- A frame loses its use and stays reserved. -/
theorem Frames.remove (h : Frames m A F) (hx : A x = some f) :
    Frames m (Function.update A x none) (insert f F) := by
  have hsub : ∀ y g, Function.update A x none y = some g → y ≠ x ∧ A y = some g := by
    intro y g hy
    by_cases hyx : y = x
    · subst hyx
      simp at hy
    · rw [Function.update_of_ne hyx] at hy
      exact ⟨hyx,hy⟩
  refine ⟨fun y z g hy hz => ?_,fun y g hy hg => ?_,fun y g hy => ?_,fun g hg => ?_,
    fun pf i hi => ?_⟩
  · exact h.inj y z g (hsub y g hy).2 (hsub z g hz).2
  · obtain ⟨hyx,hy⟩ := hsub y g hy
    rcases hg with rfl | hg
    · exact hyx (h.inj y x g hy hx)
    · exact h.reserved y g hy hg
  · exact h.inPool y g (hsub y g hy).2
  · rcases hg with rfl | hg
    · exact ⟨x.pool,h.inPool x g hx⟩
    · exact h.reservedInPool g hg
  · rw [h.bits pf i hi]
    constructor
    · rintro (hF | ⟨y,hy⟩)
      · exact .inl (.inr hF)
      · by_cases hyx : y = x
        · subst hyx
          exact .inl (.inl (Option.some.inj (hy.symm.trans hx)))
        · exact .inr ⟨y,by rwa [Function.update_of_ne hyx]⟩
    · rintro ((he | hF) | ⟨y,hy⟩)
      · exact .inr ⟨x,by rw [hx,he]⟩
      · exact .inl hF
      · exact .inr ⟨y,(hsub y _ hy).2⟩

end Uses
end OsKernel

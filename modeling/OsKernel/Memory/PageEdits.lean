import OsKernel.Memory.PageTables

/-! What a write to a page table does to the state as a whole: a page gets a frame, a page loses
its frame, a page table is added, or no table is written at all. -/
namespace OsKernel
open Paging ByteMemory

section Edits
variable {m : Machine} {A : FrameMap} {F : Set ℕ} {s : Option TaskId} {v f tab e : ℕ}
  {t : TaskId} {d i g : ℕ} {o : Option ℕ} {mem' : ByteMemory}

/-- The page holds the directory of a process. -/
def Machine.DirPage (m : Machine) (s : Option TaskId) (v : ℕ) : Prop :=
  s = none ∧ ∃ t, m.IsProc t ∧ m.dirPage t = v

theorem Machine.not_dirPage (h : ¬ m.DirPage s v) (t : TaskId) (ht : m.IsProc t) :
    Use.page none (m.dirPage t) ≠ .page s v := by
  intro he
  rw [Use.page.injEq] at he
  exact h ⟨he.1.symm,t,ht,he.2⟩

/-- Writes that keep all tables keep the representation. -/
theorem PageRep.setMem (h : PageRep m A F)
    (hk : ∀ g, m.TableFrame A g → SameFrame m.mem mem' g) : PageRep (m.setMem mem') A F := by
  refine .mk' (h.toLayout.congr rfl) (h.toFrames.congr rfl fun _ _ => rfl)
    (h.toShape.congr rfl) ⟨fun g i o hs => ?_,fun d i hd h₁ h₂ => ?_,h.cr3⟩
  · have hs' := hs.congr (m.setMem_setup mem')
    have hi := hs'.index_lt
    change target (word mem' g i) = o
    rw [(hk g (.inl ⟨i,o,hi,hs'⟩)).word_eq hi]
    exact h.spec g i o hs'
  · change word mem' d i = _
    rw [(hk d (.inr hd)).word_eq (by omega)]
    exact h.kernelWord d i hd h₁ h₂

theorem PageRep.tableOf_of_page (h : PageRep m A F) (hp : A (.page s v) = some f) :
    ∃ tab, A.tableOf s v = some tab := by
  cases s with
  | none => exact ⟨_,rfl⟩
  | some t => exact Option.isSome_iff_exists.mp (h.userPage t v f hp).2.2.2

theorem Shape.addPage (h : Shape m A) (hv : m.InSpace s v) (htab : A.tableOf s v = some tab) :
    Shape m (Function.update A (.page s v) (some f)) := by
  refine ⟨fun w g hw => ?_,fun t w g hw => ?_,fun t i g hw => ?_,fun t ht => ?_,h.dirInj⟩
  · by_cases he : Use.page none w = .page s v
    · obtain ⟨rfl,rfl⟩ := Use.page.inj he
      exact hv
    · rw [Function.update_of_ne he] at hw
      exact h.kernelPage w g hw
  · rw [Function.update_of_ne (by simp)]
    by_cases he : Use.page (some t) w = .page s v
    · obtain ⟨rfl,rfl⟩ := Use.page.inj he
      exact ⟨hv.1,hv.2.1,hv.2.2,Option.isSome_of_eq_some htab⟩
    · rw [Function.update_of_ne he] at hw
      exact h.userPage t w g hw
  · rw [Function.update_of_ne (by simp)] at hw
    exact h.table t i g hw
  · refine ⟨(h.dir t ht).1,?_⟩
    by_cases he : Use.page none (m.dirPage t) = .page s v
    · rw [he,Function.update_self]
      rfl
    · rw [Function.update_of_ne he]
      exact (h.dir t ht).2

theorem Shape.removePage (h : Shape m A) (hdir : ¬ m.DirPage s v) :
    Shape m (Function.update A (.page s v) none) := by
  have hsub : ∀ y g, Function.update A (.page s v) none y = some g → A y = some g := by
    intro y g hy
    by_cases hyx : y = .page s v
    · subst hyx
      simp at hy
    · rwa [Function.update_of_ne hyx] at hy
  refine ⟨fun w g hw => h.kernelPage w g (hsub _ _ hw),fun t w g hw => ?_,
    fun t i g hw => h.table t i g (hsub _ _ hw),fun t ht => ?_,h.dirInj⟩
  · rw [Function.update_of_ne (by simp)]
    exact h.userPage t w g (hsub _ _ hw)
  · rw [Function.update_of_ne (Machine.not_dirPage hdir t ht)]
    exact h.dir t ht

/-- page_table_add with a present page table. -/
theorem PageRep.addPage (h : PageRep m A F) (hv : m.InSpace s v) (hnew : A (.page s v) = none)
    (htab : A.tableOf s v = some tab) (hf : f ∈ F) (hp : m.InPool (Use.page s v).pool f) :
    PageRep (m.setMem (store32 m.mem (4096*tab+4*(v % 1024)) (4096*f+7)))
      (Function.update A (.page s v) (some f)) (F \ {f}) := by
  have he : 4096*f+7 < 2^32 := by
    have hlt := h.lt_of_inPool hp
    omega
  have hdir : ∀ t, m.IsProc t → Use.page none (m.dirPage t) ≠ .page s v := by
    intro t ht he
    have hs := (h.dir t ht).2
    rw [he,hnew] at hs
    contradiction
  have ht := h.setPage_tables hv htab he hdir
  rw [target_entry] at ht
  exact .mk' (h.toLayout.congr rfl) ((h.toFrames.add hnew hf hp).congr rfl fun _ _ => rfl)
    ((h.toShape.addPage hv htab).congr rfl) ht

/-- page_table_pte_remove. -/
theorem PageRep.removePage (h : PageRep m A F) (hpage : A (.page s v) = some f)
    (htab : A.tableOf s v = some tab) (hdir : ¬ m.DirPage s v) (he : e < 2^32)
    (heven : e % 2 = 0) :
    PageRep (m.setMem (store32 m.mem (4096*tab+4*(v % 1024)) e))
      (Function.update A (.page s v) none) (insert f F) := by
  have ht := h.setPage_tables (h.inSpace hpage) htab he (Machine.not_dirPage hdir)
  rw [target_of_even heven] at ht
  exact .mk' (h.toLayout.congr rfl) ((h.toFrames.remove hpage).congr rfl fun _ _ => rfl)
    ((h.toShape.removePage hdir).congr rfl) ht

theorem Shape.addTable (h : Shape m A) (ht : m.IsProc t) (hi : i < 768) :
    Shape m (Function.update A (.table t i) (some g)) := by
  refine ⟨fun w f hw => ?_,fun u w f hw => ?_,fun u j f hw => ?_,fun u hu => ?_,h.dirInj⟩
  · rw [Function.update_of_ne (by simp)] at hw
    exact h.kernelPage w f hw
  · rw [Function.update_of_ne (by simp)] at hw
    obtain ⟨h₁,h₂,h₃,h₄⟩ := h.userPage u w f hw
    refine ⟨h₁,h₂,h₃,?_⟩
    by_cases he : Use.table u (w/1024) = .table t i
    · rw [he,Function.update_self]
      rfl
    · rwa [Function.update_of_ne he]
  · by_cases he : Use.table u j = .table t i
    · obtain ⟨rfl,rfl⟩ := Use.table.inj he
      exact ⟨ht,hi⟩
    · rw [Function.update_of_ne he] at hw
      exact h.table u j f hw
  · rw [Function.update_of_ne (by simp)]
    exact h.dir u hu

/-- The tables after a page directory entry has been written and the new page table has been
filled with zeros. -/
theorem PageRep.setTable_tables (h : PageRep m A F) (ht : m.IsProc t) (hd : m.dirOf A t = some d)
    (hi : i < 768) (hnew : A (.table t i) = none) (hg : g ∈ F) (hle : firstPoolFrame ≤ g)
    (hlt : g < 2^20) :
    Tables (m.setMem (fill (store32 m.mem (4096*d+4*i) (4096*g+7)) (4096*g) 4096 0))
      (Function.update A (.table t i) (some g)) := by
  have hdirOf : ∀ u, m.dirOf (Function.update A (.table t i) (some g)) u = m.dirOf A u := by
    intro u
    unfold Machine.dirOf
    rw [Function.update_of_ne (by simp)]
  have hDir : ∀ a, m.Dir (Function.update A (.table t i) (some g)) a → m.Dir A a := by
    rintro a (hb | ⟨u,hu,hd'⟩)
    · exact .inl hb
    · rw [Function.update_of_ne (by simp)] at hd'
      exact .inr ⟨u,hu,hd'⟩
  have hfresh : ∀ x, A x ≠ some g := fun x hx => h.reserved x g hx hg
  have hdne : ∀ {u d'}, m.dirOf A u = some d' → d' ≠ g := by
    intro u d' hu he
    by_cases hp : m.IsProc u
    · rw [Machine.dirOf_of_proc hp] at hu
      exact hfresh _ (he ▸ hu)
    · rw [Machine.dirOf_of_not_proc hp] at hu
      have hb := Option.some.inj hu
      unfold bootDir at hb
      unfold firstPoolFrame at hle
      omega
  have hfill : ∀ {a}, a ≠ g → SameFrame (store32 m.mem (4096*d+4*i) (4096*g+7))
      (fill (store32 m.mem (4096*d+4*i) (4096*g+7)) (4096*g) 4096 0) a := by
    intro a ha
    apply sameFrame_fill
    intro p h₁ h₂
    omega
  have hkeep : ∀ a k o, TableSpec m A a k o → a ≠ g → ¬ (a = d ∧ k = i) →
      target (word (fill (store32 m.mem (4096*d+4*i) (4096*g+7)) (4096*g) 4096 0) a k) = o := by
    intro a k o hs ha hne
    rw [(hfill ha).word_eq hs.index_lt,word_store32_of_ne (by omega) hs.index_lt hne]
    exact h.spec a k o hs
  refine ⟨fun a k o hs => ?_,fun a k ha h₁ h₂ => ?_,?_⟩
  · change target (word (fill (store32 m.mem (4096*d+4*i) (4096*g+7)) (4096*g) 4096 0) a k) = o
    cases hs with
    | low hj =>
      have hdc := h.dir_cases (Machine.dir_of_dirOf hd)
      unfold bootDir firstPoolFrame at hdc
      unfold firstPoolFrame at hle
      exact hkeep _ _ _ (.low hj) (by omega) (by omega)
    | @kernelPte w h₁ h₂ =>
      have hk := kernelTable_lt h₂
      rw [Function.update_of_ne (by simp)]
      refine hkeep _ _ _ (.kernelPte h₁ h₂) (by omega) fun hn => ?_
      exact h.tableOf_ne_dir (s := none) rfl (fun _ => h₂) (Machine.dir_of_dirOf hd) hn.1.symm
    | kernelPde hu h₁ h₂ =>
      replace hu := (hdirOf _).symm.trans hu
      exact hkeep _ _ _ (.kernelPde hu h₁ h₂) (hdne hu) (by omega)
    | self hu =>
      replace hu := (hdirOf _).symm.trans hu
      exact hkeep _ _ _ (.self hu) (hdne hu) (by omega)
    | @pde u _ j hp hu hj =>
      replace hu := (hdirOf _).symm.trans hu
      by_cases he : Use.table u k = .table t i
      · obtain ⟨rfl,rfl⟩ := Use.table.inj he
        obtain rfl := Option.some.inj (hd.symm.trans hu)
        rw [Function.update_self,(hfill (hdne hd)).word_eq (by omega),
          word_store32_self (by omega),target_entry]
      · rw [Function.update_of_ne he]
        refine hkeep _ _ _ (.pde hp hu hj) (hdne hu) fun hn => he ?_
        obtain ⟨rfl,rfl⟩ := hn
        replace hp : m.IsProc u := hp
        rw [Machine.dirOf_of_proc hp] at hu
        rw [Machine.dirOf_of_proc ht] at hd
        rw [h.dirInj _ _ hp ht (Use.page.inj (h.inj _ _ _ hu hd)).2]
    | @pte u j _ _ hf hk =>
      rw [Function.update_of_ne (by simp)]
      by_cases he : Use.table u j = .table t i
      · obtain ⟨rfl,rfl⟩ := Use.table.inj he
        rw [Function.update_self] at hf
        obtain rfl := Option.some.inj hf
        rw [word_fill_self hk,target_zero]
        cases hp : A (.page (some u) (1024*j+k)) with
        | none => rfl
        | some f =>
          have hs := (h.userPage u _ f hp).2.2.2
          rw [show (1024*j+k)/1024 = j by omega,hnew] at hs
          contradiction
      · rw [Function.update_of_ne he] at hf
        refine hkeep _ _ _ (.pte hf hk) (fun e => hfresh _ (e ▸ hf)) fun hn => ?_
        exact h.tableOf_ne_dir (s := some u) (v := 1024*j)
          (by rw [FrameMap.tableOf,Nat.mul_div_cancel_left _ (by decide),hf]) (by simp)
          (Machine.dir_of_dirOf hd) hn.1.symm
  · have ha' : m.Dir A a := hDir a ha
    have hne : a ≠ g := by
      obtain hb | ⟨u,-,hd'⟩ := ha'
      · unfold bootDir at hb
        unfold firstPoolFrame at hle
        omega
      · exact fun e => hfresh _ (e ▸ hd')
    change word (fill (store32 m.mem (4096*d+4*i) (4096*g+7)) (4096*g) 4096 0) a k = _
    rw [(hfill hne).word_eq (by omega),word_store32_of_ne (by omega) (by omega) (by omega)]
    exact h.kernelWord a k ha' h₁ h₂
  · obtain ⟨d',hd',hc⟩ := h.cr3
    exact ⟨d',(hdirOf _).trans hd',hc⟩

/-- page_table_add makes a page table. -/
theorem PageRep.addTable (h : PageRep m A F) (ht : m.IsProc t) (hd : m.dirOf A t = some d)
    (hi : i < 768) (hnew : A (.table t i) = none) (hg : g ∈ F) (hp : m.InPool .kernel g) :
    PageRep (m.setMem (fill (store32 m.mem (4096*d+4*i) (4096*g+7)) (4096*g) 4096 0))
      (Function.update A (.table t i) (some g)) (F \ {g}) :=
  .mk' (h.toLayout.congr rfl) ((h.toFrames.add hnew hg hp).congr rfl fun _ _ => rfl)
    ((h.toShape.addTable ht hi).congr rfl)
    (h.setTable_tables ht hd hi hnew hg (h.le_of_inPool hp) (h.lt_of_inPool hp))

end Edits
end OsKernel

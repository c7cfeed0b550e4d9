import OsKernel.Memory.PageHand
import OsKernel.Memory.Process

/-! create_page_dir, and the switch to another page directory. The new directory is a page of the
kernel heap whose entries of the kernel half are copied from the active directory. -/
namespace OsKernel
open Paging ByteMemory Exec KernelM

section NewDirectory
variable {m m' : Machine} {A : FrameMap} {F : Set ℕ} {P : Set (Option TaskId × ℕ)}
  {p g d v i : ℕ}

/-- The page at which the active directory shows itself. -/
def selfPage : ℕ := 0xfffff

theorem PageRep.dataPages_lt (h : PageRep m A F) {f : ℕ} (hv : m.dataPages A v = some f) :
    v < recursivePage := by
  obtain ⟨rfl,hf⟩ | ⟨s,-,hp,-⟩ := Machine.dataPages_cases hv
  · unfold kernelHalf recursivePage
    omega
  · exact (h.inSpace hp).lt h.toLayout

/-- The data together with the active directory, of which one page of data can be written. -/
theorem PageRep.selfWindow (h : PageRep m A F) (hd : m.dirOf A m.runningThread = some d)
    (hp : (m.dataPages A p).isSome) :
    Window (m.cr3/pageSize) m.mem (Function.update (m.dataPages A) selfPage (some d)) {p} := by
  obtain ⟨d',hd',hc⟩ := h.cr3_eq
  obtain rfl := Option.some.inj (hd.symm.trans hd')
  have hdata : ∀ {v f}, v ≠ selfPage →
      Function.update (m.dataPages A) selfPage (some d) v = some f → m.dataPages A v = some f := by
    intro v f hv hf
    rwa [Function.update_of_ne hv] at hf
  have hne : ∀ {v f}, m.dataPages A v = some f → f ≠ d := by
    rintro v f hv rfl
    exact h.dataFrame_ne_table (Machine.dataPages_dataFrame hv) (.inr (Machine.dir_of_dirOf hd))
  have hpself : p ≠ selfPage := by
    rintro rfl
    obtain ⟨f,hf⟩ := Option.isSome_iff_exists.mp hp
    exact absurd (h.dataPages_lt hf) (by decide)
  refine ⟨fun v w f hv hw => ?_,fun mem' ho v f hv => ?_⟩
  · by_cases hvs : v = selfPage <;> by_cases hws : w = selfPage
    · rw [hvs,hws]
    · subst hvs
      rw [Function.update_self] at hv
      exact absurd (Option.some.inj hv).symm (hne (hdata hws hw))
    · subst hws
      rw [Function.update_self] at hw
      exact absurd (Option.some.inj hw).symm (hne (hdata hvs hv))
    · exact h.dataPages_inj (hdata hvs hv) (hdata hws hw)
  · have hrep : PageRep (m.setMem mem') A F := by
      refine h.setData (W := {p}) fun f hf => ho f fun w hw => ?_
      rw [Set.mem_singleton_iff.mp hw,Function.update_of_ne hpself]
      exact hf p rfl
    by_cases hvs : v = selfPage
    · subst hvs
      rw [Function.update_self] at hv
      obtain rfl := Option.some.inj hv
      have hself : SelfMapped mem' d := hrep.selfMapped (t := m.runningThread) hd
      rw [hc,show selfPage = 0xffc00+1023 from rfl,hself.lookup_table (by decide)]
      exact hself
    · exact hrep.lookup_data (hdata hvs hv)

/-- The memory holds a new directory in the frame g: the entries of the kernel half, an entry for
itself, and no page of a process. -/
structure NewDir (mem : ByteMemory) (g : ℕ) : Prop where
  user : ∀ i, i < 768 → word mem g i = 0
  kernel : ∀ i, 768 ≤ i → i < 1023 → word mem g i = 4096*(0x101+(i-768))+7
  self : word mem g 1023 = 4096*g+7

/-- The memcpy of create_page_dir, which reads the active directory through its last entry. -/
theorem PageRep.copyDir (h : PageRep m A F) (hp : m.dataPages A p = some g)
    (hzero : ∀ i, i < 1024 → word m.mem g i = 0) :
    ∃ mem', memcpy (4096*p+0x300*4) (0xfffff000+0x300*4) 1024 m = (.ok (),m.setMem mem') ∧
      Only (m.dataPages A) {p} m.mem mem' ∧ (∀ i, i < 768 → word mem' g i = 0) ∧
      ∀ i, 768 ≤ i → i < 1023 → word mem' g i = 4096*(0x101+(i-768))+7 := by
  obtain ⟨d,hd,-⟩ := h.cr3_eq
  have hlt := h.dataPages_lt hp
  unfold recursivePage at hlt
  have hwin := h.selfWindow hd (p := p) (by rw [hp]; rfl)
  generalize hτ : Function.update (m.dataPages A) selfPage (some d) = τ at hwin
  have hτp : τ p = some g := by
    rw [← hτ,Function.update_of_ne (by unfold selfPage; omega),hp]
  have hτs : τ selfPage = some d := by rw [← hτ,Function.update_self]
  have hcopy : Acts m τ {p} (memcpy (4096*p+0x300*4) (0xfffff000+0x300*4) 1024) (view τ m.mem) ()
      (copy (view τ m.mem) (4096*p+0x300*4) (0xfffff000+0x300*4) 1024) := by
    refine Acts.memcpy hwin (by omega) (by decide) (fun k hk => ?_) (fun k hk => ?_) (by omega)
    · rw [show (4096*p+0x300*4+k)/4096 = p by omega,hτp]
      exact ⟨rfl,rfl⟩
    · rw [show (0xfffff000+0x300*4+k)/4096 = selfPage by unfold selfPage; omega,hτs]
      rfl
  obtain ⟨mem',hrun,ho,hview⟩ := hcopy m.mem .refl rfl
  have hword : ∀ {mem : ByteMemory} {i}, i < 1024 →
      word mem g i = load32 (view τ mem) (4096*p+4*i) := by
    intro mem i hi
    rw [load32_view (f := g) (by rwa [show (4096*p+4*i)/4096 = p by omega]) (by omega),word,
      show (4096*p+4*i) % 4096 = 4*i by omega]
  have hdir : ∀ {i}, i < 1024 → load32 (view τ m.mem) (0xfffff000+4*i) = word m.mem d i := by
    intro i hi
    rw [load32_view (f := d) (by rwa [show (0xfffff000+4*i)/4096 = selfPage by
      unfold selfPage; omega]) (by omega),word,show (0xfffff000+4*i) % 4096 = 4*i by omega]
  refine ⟨mem',hrun,fun f hf => ho f fun v hv => ?_,fun i hi => ?_,fun i h₁ h₂ => ?_⟩
  · rw [Set.mem_singleton_iff.mp hv,hτp,← hp]
    exact hf p rfl
  · rw [hword (by omega),hview,load32_copy_of_disjoint (by omega),← hword (by omega)]
    exact hzero i (by omega)
  · have ha : 4096*p+4*i = 4096*p+0x300*4+4*(i-768) := by omega
    have hb : 0xfffff000+0x300*4+4*(i-768) = 0xfffff000+4*i := by omega
    rw [hword (by omega),hview,ha,load32_copy (by omega),hb,hdir (by omega)]
    exact h.kernelWord d i (Machine.dir_of_dirOf hd) h₁ h₂

/-- A page that get_kernel_pages has handed out. -/
theorem Gains.new_page {N : Finset Use} {A' : FrameMap} (hg : Gains m A N m' A')
    (h : PageRep m A F) (h' : PageRep m' A' F) (hp : Use.page none p ∈ N) :
    A (.page none p) = none ∧ ¬ m.DirPage none p ∧
      ∃ g, A' (.page none p) = some g ∧ m'.dataPages A' p = some g := by
  obtain ⟨hnone,hsome⟩ := hg.new _ hp
  obtain ⟨g,hg'⟩ := Option.isSome_iff_exists.mp hsome
  have hdir : ¬ m.DirPage none p := by
    rintro ⟨-,t,ht,rfl⟩
    have hd := (h.dir t ht).2
    rw [hnone] at hd
    contradiction
  refine ⟨hnone,hdir,g,hg',h'.dataPages_page (.inl rfl) hg' fun hd => hdir ?_⟩
  exact (Machine.dirPage_iff_congr hg.setup none p).mp hd

theorem load32_of_zero {mem : ByteMemory} {a : ℕ} (h : ∀ i, i < 4 → mem (a+i) = 0) :
    load32 mem a = 0 := by
  have h₀ := h 0 (by decide)
  rw [Nat.add_zero] at h₀
  simp only [load32,h₀,h 1 (by decide),h 2 (by decide),h 3 (by decide)]
  rfl

/-- The words of a page of zeros. -/
theorem Machine.word_of_data (hp : m.dataPages A p = some g)
    (hz : ∀ i, i < 4096 → m.data A (4096*p+i) = 0) {i : ℕ} (hi : i < 1024) :
    word m.mem g i = 0 := by
  have hv : load32 (m.data A) (4096*p+4*i) = word m.mem g i := by
    rw [Machine.data,load32_view (f := g) (by rwa [show (4096*p+4*i)/4096 = p by omega])
      (by omega),word,show (4096*p+4*i) % 4096 = 4*i by omega]
  rw [← hv]
  apply load32_of_zero
  intro j hj
  rw [Nat.add_assoc]
  exact hz _ (by omega)

/-- create_page_dir makes a directory in a new page of the kernel heap. -/
theorem PageRep.createPageDir_runs (h : PageRep m A F) (hv : VaddrRep m A P) :
    Runs createPageDir m
      (fun va m' => ∃ p g A', va = 4096*p ∧ PageRep m' A' F ∧ VaddrRep m' A' P ∧
        A (.page none p) = none ∧ A' (.page none p) = some g ∧ NewDir m'.mem g ∧
        Gains m A (newUses A none p 1) m' A')
      (fun _ _ => True) := by
  refine Runs.bind ((h.getPages_runs hv).mono (fun _ _ hx => hx) fun _ _ _ => trivial) ?_
  rintro _ m₁ ⟨k,A₁,rfl,-,hrep,hvad,hgain,hzero⟩
  change Gains m A (newUses A none (firstPage none+k) 1) m₁ A₁ at hgain
  change ∀ i, i < 1*pageSize → m₁.data A₁ (4096*(firstPage none+k)+i) = 0 at hzero
  rw [show m.space .kernel = none from rfl]
  have hp0 : firstPage none+k ≠ 0 := by
    simp only [firstPage,kernelHeapPage]
    omega
  generalize firstPage none+k = p at hgain hzero hp0 ⊢
  obtain ⟨hnone,hdir,g,hg,hdata⟩ := hgain.new_page h hrep (page_mem_newUses Nat.one_pos)
  obtain ⟨mem',hcopy,ho,huser,hkernel⟩ := hrep.copyDir hdata fun i hi =>
    Machine.word_of_data hdata (fun j hj => hzero j (by unfold pageSize; omega)) hi
  have hrep₂ : PageRep (m₁.setMem mem') A₁ F := hrep.setData ho
  have hlt := hrep.lt_of_inPool (hrep.inPool _ _ hg)
  have htr : (m₁.setMem mem').translate (4096*p+4*1023) = some (4096*g+4*1023) := by
    have hl : lookup (m₁.setMem mem').mem ((m₁.setMem mem').cr3/pageSize) p = some g :=
      hrep₂.lookup_data (m := m₁.setMem mem') hdata
    rw [Machine.translate,walk,show (4096*p+4*1023)/4096 = p by omega,hl,
      show (4096*p+4*1023) % 4096 = 4*1023 by omega]
    rfl
  have hstore := store_eq (v := tableEntry (4096*g)) htr
  rw [tableEntry_frame] at hstore
  change store _ _ _ = (.ok (),m₁.setMem (store32 mem' (4096*g+4*1023) (4096*g+7))) at hstore
  have ho₂ : Only (m₁.dataPages A₁) {p} m₁.mem (store32 mem' (4096*g+4*1023) (4096*g+7)) :=
    ho.trans fun f hf => sameFrame_store32_word (by decide) fun e => hf p rfl (e ▸ hdata)
  have hword : ∀ i, i < 1023 →
      word (store32 mem' (4096*g+4*1023) (4096*g+7)) g i = word mem' g i :=
    fun i hi => word_store32_of_ne (by decide) (by omega) (by omega)
  rw [Runs,Exec.bind_of_ok hcopy,Exec.bind_of_ok (hrep₂.addrV2p_eq hg (.inl rfl)),
    tableEntry_frame,Exec.bind_of_ok hstore]
  refine ⟨p,g,A₁,rfl,hrep.setData ho₂,
    ⟨hvad.bits,hvad.userStart,hvad.userLen,hvad.kernelLen,hvad.pending⟩,hnone,hg,
    ⟨fun i hi => ?_,fun i h₁ h₂ => ?_,word_store32_self (by omega)⟩,hgain.setMem fun f hf => ?_⟩
  · exact (hword i (by omega)).trans (huser i hi)
  · exact (hword i h₂).trans (hkernel i h₁ h₂)
  · refine hgain.sameFrame h hrep (W := {p}) (fun v hvp => ?_) ho₂ hf
    rw [Set.mem_singleton_iff.mp hvp]
    exact ⟨none,page_mem_newUses Nat.one_pos,.inl rfl⟩

end NewDirectory
end OsKernel

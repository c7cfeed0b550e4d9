import OsKernel.Boot.KernelImage

/-! When kernel_init installs the kernel as its headers say. -/
namespace OsKernel
open X86

section Installs
variable {pages : Word → Option Word} {m m' : Mem} {size i : ℕ} {x : Word} {e f : Phdr}

lemma Phdr.Loadable.copied (h : e.Loadable) : e.Copied := by
  rw [Phdr.Copied,show e.type = 1 from h]
  decide

lemma Phdr.Copied.type_ne (h : e.Copied) : e.type ≠ 0 := fun h0 => h (by rw [h0]; rfl)

lemma Phdr.Loadable.extent_eq (h : e.Loadable) : e.extent = e.memsz.toNat := if_pos h

/-- A header that is copied to a byte, and no header after it is. -/
lemma exists_writer (h : ¬ ∀ f ∈ phdrs pages m, f.Copied → ¬ f.Covers pages x) :
    ∃ before f after i, phdrs pages m = before++f::after ∧ f.Copied ∧ i < f.filesz.toNat ∧
      f.place pages i = some x ∧ ∀ g ∈ after, g.Copied → ¬ g.Covers pages x := by
  have hex : ∃ f ∈ phdrs pages m, f.Copied ∧ f.Covers pages x := by
    by_contra hno
    exact h fun f hf hc hcov => hno ⟨f,hf,hc,hcov⟩
  obtain ⟨before,f,after,hl,⟨hc,i,hi,hx⟩,hafter⟩ := exists_last hex
  exact ⟨before,f,after,i,hl,hc,hi,hx,fun g hg hgc hcov => hafter g hg ⟨hgc,hcov⟩⟩

/-- The byte of the last header that covers it. -/
lemma writer_byte (h : Bootable pages m size) {before after : List Phdr}
    (hl : phdrs pages m = before++f::after) (hc : f.Copied) (hi : i < f.filesz.toNat)
    (hx : f.place pages i = some x) (hafter : ∀ g ∈ after, g.Copied → ¬ g.Covers pages x) :
    installed pages m (phdrs pages m) x = f.file pages m i := by
  have hf : f ∈ phdrs pages m := hl ▸ List.mem_append_right _ List.mem_cons_self
  have hle := h.filesz_le hf
  rw [hl]
  exact installed_last hc hi hx
    (fun j hj hj' => h.place f hf hc i (by omega) j (by omega) x hx hj') hafter

/-- A byte belongs to one loadable segment, and has one place in it. -/
lemma Bootable.loadable_unique (h : Bootable pages m size) (he : e ∈ phdrs pages m)
    (hf : f ∈ phdrs pages m) (hel : e.Loadable) (hfl : f.Loadable) {j : ℕ} (hi : i < e.memsz.toNat)
    (hj : j < f.memsz.toNat) (hx : e.place pages i = some x) (hx' : f.place pages j = some x) :
    e = f ∧ i = j := by
  have hef : e = f := by
    by_contra hne
    have hsymm : Std.Symm fun e f : Phdr => e.Loadable → f.Loadable →
        ∀ x, e.Occupies pages x → ¬ f.Occupies pages x :=
      ⟨fun _ _ h hf he x hx hx' => h he hf x hx' hx⟩
    exact h.loadable.forall he hf hne hel hfl x ⟨i,hi,hx⟩ ⟨j,hj,hx'⟩
  subst hef
  rw [← hel.extent_eq] at hi hj
  exact ⟨rfl,h.place e he hel.copied i hi j hj x hx hx'⟩

/-- The destinations are mapped, if the copies have found pages and the segments are installed. -/
lemma Installs.placed (hins : Installs pages m m') (hto : ∀ e ∈ phdrs pages m, e.FileMapped pages) :
    Placed pages m := by
  intro e he hc i hi
  unfold Phdr.extent at hi
  split at hi
  · obtain ⟨x,hx,-⟩ := hins.loads e he ‹_› i hi
    exact Option.isSome_iff_exists.mpr ⟨x,hx⟩
  · exact hto e he hc i hi

lemma Placed.fileMapped (hp : Placed pages m) (h : ElfImage pages m size) :
    ∀ e ∈ phdrs pages m, e.FileMapped pages :=
  fun e he hc i hi => hp e he hc i (hi.trans_le (h.filesz_le he))

section Bytes
variable (h : Bootable pages m size)
  (hm : ∀ x, ¬ StackByte pages x → m' x = installed pages m (phdrs pages m) x)
include h hm

lemma Installs.unspoiled (hins : Installs pages m m') : Unspoiled pages m := by
  refine ⟨fun e he hl i hi hi' x hx hfree => ?_,
    fun before e after hlist hc hl i hi x hx hafter => ?_⟩
  · have hoff := (h.dest e he hl.copied i (hl.extent_eq ▸ hi') x hx).2.1
    obtain ⟨y,hy,hload⟩ := hins.loads e he hl i hi'
    obtain rfl := Option.some.inj (hx.symm.trans hy)
    rw [Phdr.content,if_neg (by omega),hm _ hoff] at hload
    exact (foldl_of_not_covers hfree).symm.trans hload
  · have he : e ∈ phdrs pages m := hlist ▸ List.mem_append_right _ List.mem_cons_self
    have hoff := (h.dest e he hc i (hi.trans_le (h.filesz_le he)) x hx).2.1
    have hbyte := (hm _ hoff).trans (writer_byte h hlist hc hi hx hafter)
    refine ⟨fun f hf hfl j hj hx' => ?_,fun hfree => ?_⟩
    · obtain ⟨y,hy,hload⟩ := hins.loads f hf hfl j hj
      obtain rfl := Option.some.inj (hx'.symm.trans hy)
      rw [← hbyte]
      exact hload
    · exact hbyte.symm.trans (hins.others _ hoff hfree)

/-- Where the condition holds, the byte of the last writer is the wanted one. -/
lemma Unspoiled.writer (hun : Unspoiled pages m) (hoff : ¬ StackByte pages x)
    (hcov : ¬ ∀ f ∈ phdrs pages m, f.Copied → ¬ f.Covers pages x) : Wanted pages m x (m' x) := by
  obtain ⟨before,f,after,j,hlist,hc,hj,hx,hafter⟩ := exists_writer hcov
  have hf : f ∈ phdrs pages m := hlist ▸ List.mem_append_right _ List.mem_cons_self
  rw [hm _ hoff,writer_byte h hlist hc hj hx hafter]
  by_cases hfl : f.Loadable
  · have hj' : j < f.memsz.toNat := hj.trans_le (h.memsz f hf hfl)
    refine ⟨fun e he hel i hi hx' => ?_,fun hfree => absurd ⟨j,hj',hx⟩ (hfree f hf hfl)⟩
    obtain ⟨rfl,rfl⟩ := h.loadable_unique he hf hel hfl hi hj' hx' hx
    exact (if_pos hj).symm
  · exact hun.entries before f after hlist hc hfl j hj x hx hafter

lemma Unspoiled.installs (hun : Unspoiled pages m) (hp : Placed pages m) :
    Installs pages m m' := by
  have hkeep (x : Word) (hoff : ¬ StackByte pages x)
      (hfree : ∀ f ∈ phdrs pages m, f.Copied → ¬ f.Covers pages x) : m' x = m x :=
    (hm x hoff).trans (foldl_of_not_covers hfree)
  refine ⟨fun e he hl i hi => ?_,fun x hoff hne => ?_,fun x hoff hfree => ?_⟩
  · obtain ⟨x,hx⟩ := Option.isSome_iff_exists.mp (hp e he hl.copied i (hl.extent_eq ▸ hi))
    have hoff := (h.dest e he hl.copied i (hl.extent_eq ▸ hi) x hx).2.1
    refine ⟨x,hx,?_⟩
    by_cases hcov : ∀ f ∈ phdrs pages m, f.Copied → ¬ f.Covers pages x
    · have hi' : e.filesz.toNat ≤ i := by
        by_contra hlt
        exact hcov e he hl.copied ⟨i,by omega,hx⟩
      rw [hkeep _ hoff hcov,hun.bss e he hl i hi' hi x hx hcov,Phdr.content,if_neg (by omega)]
    · exact (hun.writer h hm hoff hcov).load e he hl i hi hx
  · by_contra hno
    exact hne (hkeep x hoff fun f hf hc hcov => hno ⟨f,hf,hc.type_ne,hcov⟩)
  · by_cases hcov : ∀ f ∈ phdrs pages m, f.Copied → ¬ f.Covers pages x
    · exact hkeep x hoff hcov
    · exact (hun.writer h hm hoff hcov).other hfree

end Bytes
end Installs

section Boot
variable {m : Mem} {size i j : ℕ} {a x : Word} {e : Phdr}

/-- Where two addresses of a range share their byte, the range goes over the image. -/
lemma bootPhys_wraps {d : ℕ} (h0 : 0 < d) (hd : d < 2^32) (hx : ¬ (0x100000 ≤ x ∧ x < 0x200000))
    (ha : bootPhys a = some x) (ha' : bootPhys (a+BitVec.ofNat 32 d) = some x) :
    (kernelBinBaseAddr-a).toNat ≤ d ∨ (kernelBinBaseAddr+0xc0000000-a).toNat ≤ d := by
  unfold kernelBinBaseAddr
  rcases bootPhys_low ha hx with ⟨hl,rfl⟩|⟨hl,hl',rfl⟩
  · rcases bootPhys_low ha' hx with ⟨hr,he⟩|⟨hr,hr',he⟩ <;> bv_omega
  · rcases bootPhys_low ha' hx with ⟨hr,he⟩|⟨hr,hr',he⟩ <;> bv_omega

lemma bootPhys_image (hi : i < 0x90000) :
    bootPhys (kernelBinBaseAddr+BitVec.ofNat 32 i) = some (BitVec.ofNat 32 (0x70000+i)) := by
  unfold bootPhys kernelBinBaseAddr
  rw [if_pos (by bv_omega)]
  exact congrArg some (by bv_omega)

lemma bootPhys_stack {k : ℕ} (hk : k ≤ 28) :
    bootPhys (loaderStackTop-BitVec.ofNat 32 k) = some (BitVec.ofNat 32 (0x900-k)) := by
  unfold bootPhys loaderStackTop
  rw [if_neg (by bv_omega),if_pos (by bv_omega)]
  exact congrArg some (by bv_omega)

/-- A destination that shares a byte with itself would not be apart from the image. -/
lemma SegmentsApart.place_lt (hs : SegmentsApart bootPhys m size) (hsize : 0 < size)
    (he : e ∈ phdrs bootPhys m) (hc : e.Copied) (hj : j < e.extent) (hlt : i < j)
    (hx : e.place bootPhys i = some x) : e.place bootPhys j ≠ some x := by
  intro hx'
  have hext : e.extent < 2^32 := by
    unfold Phdr.extent
    split <;> exact BitVec.isLt _
  have hadd : e.vaddr+BitVec.ofNat 32 j = e.vaddr+BitVec.ofNat 32 i+BitVec.ofNat 32 (j-i) := by
    bv_omega
  have hlow : ¬ (0x100000 ≤ x ∧ x < 0x200000) :=
    fun hx => (hs.dest e he hc i (hlt.trans hj) x ‹_›).2.2 (.inr hx)
  rw [Phdr.place,hadd] at hx'
  have hhit (w y : Word) (hw : (w-(e.vaddr+BitVec.ofNat 32 i)).toNat ≤ j-i)
      (hy : bootPhys w = some y) (himage : ImageByte bootPhys size y) : False := by
    have hw' : e.vaddr+BitVec.ofNat 32 (i+(w-(e.vaddr+BitVec.ofNat 32 i)).toNat) = w := by
      bv_omega
    refine (hs.dest e he hc (i+(w-(e.vaddr+BitVec.ofNat 32 i)).toNat) (by omega) y ?_).1 himage
    rw [Phdr.place,hw',hy]
  have himage : ImageByte bootPhys size (BitVec.ofNat 32 0x70000) :=
    ⟨0,hsize,bootPhys_image (by omega)⟩
  rcases bootPhys_wraps (by omega) (by omega) hlow hx hx' with hw|hw
  · exact hhit _ _ hw rfl himage
  · exact hhit _ _ hw rfl himage

/-- The pages of the loader hold its image of at most 200 sectors apart from its stack. -/
lemma ElfImage.bootable (h : ElfImage bootPhys m size) (hs : SegmentsApart bootPhys m size)
    (hsize : size ≤ 200*512) : Bootable bootPhys m size := by
  have hpos := h.header
  refine ⟨h,hs,⟨fun i hi => ?_,?_,fun k hk hk' => ?_,?_,?_⟩⟩
  · rw [bootPhys_image (by omega)]
    rfl
  · rintro x ⟨i,hi,hx⟩ ⟨k,-,hk,hx'⟩
    rw [bootPhys_image (by omega)] at hx
    rw [bootPhys_stack hk,← hx] at hx'
    have he := Option.some.inj hx'
    bv_omega
  · rw [bootPhys_stack hk']
    rfl
  · intro k l _ hk _ hl he
    rw [bootPhys_stack hk,bootPhys_stack hl] at he
    have he := Option.some.inj he
    bv_omega
  · intro e he hc i hi j hj x hx hx'
    rcases Nat.lt_trichotomy i j with hlt|rfl|hlt
    · exact absurd hx' (hs.place_lt (by omega) he hc hj hlt hx)
    · rfl
    · exact absurd hx (hs.place_lt (by omega) he hc hi hlt hx')

/-- kernel_init returns, and the memory is as the headers say, if and only if all destinations are
mapped and nothing spoils it. -/
theorem kernelInit_installs_iff {s : Protected} (h : ElfImage bootPhys m size)
    (hsize : size ≤ 200*512) (hs : SegmentsApart bootPhys m size) (hesp : s.esp = loaderStackTop)
    (hmem : s.mem = m) (back next : Word) :
    (∃ s', s.kernelInit bootPhys back next = some s' ∧ Installs bootPhys m s'.mem) ↔
      Placed bootPhys m ∧ Unspoiled bootPhys m := by
  have hboot := h.bootable hs hsize
  constructor
  · rintro ⟨s',hrun,hins⟩
    have hto := kernelInit_maps hboot hesp hmem hrun
    obtain ⟨t,ht,hm⟩ := kernelInit_runs hboot hesp hmem hto back next
    obtain rfl := Option.some.inj (ht.symm.trans hrun)
    exact ⟨hins.placed hto,hins.unspoiled hboot hm⟩
  · rintro ⟨hp,hun⟩
    obtain ⟨s',hrun,hm⟩ := kernelInit_runs hboot hesp hmem (hp.fileMapped h) back next
    exact ⟨s',hrun,hun.installs hboot hm hp⟩

end Boot

/-- An executable with one segment of eight bytes, four of them in the file. -/
def smallElf : List (BitVec 8) :=
  [0x7f,0x45,0x4c,0x46,1,1,1,0,0,0,0,0,0,0,0,0,2,0,3,0,1,0,0,0,0,0x15,0,0xc0,52,0,0,0,0,0,0,0,
    0,0,0,0,52,0,32,0,1,0,0,0,0,0,0,0,
    1,0,0,0,0,0,0,0,0,0x15,0,0xc0,0,0x15,0,0xc0,4,0,0,0,8,0,0,0,6,0,0,0,0,0x10,0,0]

def smallPhdr : Phdr := ⟨1,0,0xc0001500,4,8⟩

/-- The executable in a memory that is zero elsewhere, or not. -/
def elfOver (used : Bool) : Mem :=
  fun a => smallElf.getD (a-kernelBinBaseAddr).toNat (if used then 0xff else 0)

section Small
variable (used : Bool)

lemma elfOver_phnum : ePhnum bootPhys (elfOver used) = 1 := by cases used <;> decide +kernel

lemma elfOver_phentsize : ePhentsize bootPhys (elfOver used) = 32 := by
  cases used <;> decide +kernel

lemma elfOver_phoff : ePhoff bootPhys (elfOver used) = 52 := by cases used <;> decide +kernel

lemma elfOver_phdrs : phdrs bootPhys (elfOver used) = [smallPhdr] := by
  cases used <;> decide +kernel

lemma smallPhdr_place {i : ℕ} (hi : i < 8) :
    smallPhdr.place bootPhys i = some (BitVec.ofNat 32 (0x1500+i)) := by
  unfold Phdr.place smallPhdr bootPhys
  dsimp only
  rw [if_neg (by bv_omega),if_pos (by bv_omega)]
  exact congrArg some (by bv_omega)

lemma elfOver_elf : ElfImage bootPhys (elfOver used) 84 := by
  refine ⟨by omega,?_,?_,?_,?_,?_⟩
  · rw [elfOver_phnum]
    decide
  · rw [elfOver_phentsize]
    decide
  · rw [elfOver_phnum,elfOver_phentsize,elfOver_phoff]
    decide
  · rw [elfOver_phdrs,List.forall_mem_singleton]
    intro _
    decide
  · rw [elfOver_phdrs,List.forall_mem_singleton]
    intro _
    decide

lemma elfOver_apart : SegmentsApart bootPhys (elfOver used) 84 := by
  refine ⟨?_,?_⟩
  · rw [elfOver_phdrs,List.forall_mem_singleton]
    intro _ i hi x hx
    change i < 8 at hi
    obtain rfl := Option.some.inj ((smallPhdr_place hi).symm.trans hx)
    refine ⟨?_,?_,?_⟩
    · rintro ⟨j,hj,he⟩
      rw [bootPhys_image (by omega)] at he
      have he := Option.some.inj he
      bv_omega
    · rintro ⟨k,-,hk,he⟩
      rw [bootPhys_stack hk] at he
      have he := Option.some.inj he
      bv_omega
    · rintro (⟨j,hj,he⟩|⟨hlow,-⟩)
      · unfold bootPhys at he
        rw [if_pos (by bv_omega)] at he
        have he := Option.some.inj he
        bv_omega
      · bv_omega
  · rw [elfOver_phdrs]
    exact List.pairwise_singleton _ _

end Small

/-- The loader with its stack at the top. -/
def loaderState (m : Mem) : Protected := ⟨0,0,0,0,0,0,0,loaderStackTop,0,m⟩

/-- The zeros behind the file bytes are there before. -/
lemma elfOver_unspoiled : Unspoiled bootPhys (elfOver false) := by
  refine ⟨?_,?_⟩
  · rw [elfOver_phdrs,List.forall_mem_singleton]
    intro _ i _ hi x hx _
    change i < 8 at hi
    obtain rfl := Option.some.inj ((smallPhdr_place hi).symm.trans hx)
    have hlen : smallElf.length ≤ (BitVec.ofNat 32 (0x1500+i)-kernelBinBaseAddr).toNat := by
      change 84 ≤ _
      unfold kernelBinBaseAddr
      bv_omega
    rw [elfOver,List.getD_eq_getElem?_getD,List.getElem?_eq_none hlen]
    rfl
  · intro before e after hlist hc hl
    rw [elfOver_phdrs] at hlist
    have he : e ∈ [smallPhdr] := hlist ▸ List.mem_append_right _ List.mem_cons_self
    rw [List.mem_singleton.mp he] at hl
    exact absurd rfl hl

lemma elfOver_placed (used : Bool) : Placed bootPhys (elfOver used) := by
  unfold Placed
  rw [elfOver_phdrs,List.forall_mem_singleton]
  intro _ i hi
  rw [smallPhdr_place hi]
  rfl

theorem kernelInit_installs_zeros :
    ∃ s', (loaderState (elfOver false)).kernelInit bootPhys 0x1000 0x1100 = some s' ∧
      Installs bootPhys (elfOver false) s'.mem :=
  (kernelInit_installs_iff (elfOver_elf false) (by decide) (elfOver_apart false) rfl rfl 0x1000
    0x1100).mpr ⟨elfOver_placed false,elfOver_unspoiled⟩

/-- Where the memory was used before, the bytes of the bss are not zero. -/
theorem kernelInit_fails : ElfImage bootPhys (elfOver true) 84 ∧
    SegmentsApart bootPhys (elfOver true) 84 ∧
    (loaderState (elfOver true)).esp = loaderStackTop ∧
    ¬ ∃ s', (loaderState (elfOver true)).kernelInit bootPhys 0x1000 0x1100 = some s' ∧
      Installs bootPhys (elfOver true) s'.mem := by
  refine ⟨elfOver_elf true,elfOver_apart true,rfl,?_⟩
  rintro ⟨s',hrun,hins⟩
  have hboot := (elfOver_elf true).bootable (elfOver_apart true) (by decide)
  obtain ⟨t,ht,hm⟩ := kernelInit_runs hboot (s := loaderState (elfOver true)) rfl rfl
    ((elfOver_placed true).fileMapped (elfOver_elf true)) 0x1000 0x1100
  obtain rfl := Option.some.inj (ht.symm.trans hrun)
  have hbss := (hins.unspoiled hboot hm).bss smallPhdr
    (by rw [elfOver_phdrs]; exact List.mem_cons_self) rfl 4 (by decide) (by decide) _
    (smallPhdr_place (by decide))
  rw [elfOver_phdrs,List.forall_mem_singleton] at hbss
  refine absurd (hbss fun _ hcov => ?_) (by decide +kernel)
  obtain ⟨j,hj,hx⟩ := hcov
  change j < 4 at hj
  rw [smallPhdr_place (by omega)] at hx
  have he := Option.some.inj hx
  bv_omega

end OsKernel

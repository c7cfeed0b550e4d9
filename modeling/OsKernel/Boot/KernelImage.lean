import OsKernel.Boot.KernelInitRuns

/-! The image after kernel_init: one copy for each program header that the loader does not skip,
in their order. The loader does not look at p_memsz, so the rest of a segment keeps what the
memory held before. -/
namespace OsKernel
open X86

section Headers
variable {pages : Word → Option Word} {m m' : Mem} {size k i : ℕ} {a x : Word} {e : Phdr}

/-- The address of a program header. -/
def phdrAddr (pages : Word → Option Word) (m : Mem) (k : ℕ) : Word :=
  kernelBinBaseAddr+(ePhoff pages m+BitVec.ofNat 32 (k*(ePhentsize pages m).toNat))

/-- An address of an image of this size. -/
def InElf (size : ℕ) (a : Word) : Prop := ∃ i < size, a = kernelBinBaseAddr+BitVec.ofNat 32 i

lemma InElf.imageByte (h : InElf size a) (hx : pages a = some x) : ImageByte pages size x := by
  obtain ⟨i,hi,rfl⟩ := h
  exact ⟨i,hi,hx⟩

lemma PagesApart.maps (h : PagesApart pages m size) (ha : InElf size a) : (pages a).isSome := by
  obtain ⟨i,hi,rfl⟩ := ha
  exact h.imageMaps i hi

lemma PagesApart.stackApart (h : PagesApart pages m size) : StackApart pages :=
  ⟨h.stackMaps,h.stack⟩

lemma phdrs_length : (phdrs pages m).length = (ePhnum pages m).toNat := by
  rw [phdrs,List.length_map,List.length_range]

lemma phdrs_get (hk : k < (ePhnum pages m).toNat) :
    (phdrs pages m)[k]? = some (Phdr.read pages m (phdrAddr pages m k)) := by
  rw [phdrs,List.getElem?_map,List.getElem?_range hk]
  rfl

lemma phdrs_mem (hk : k < (ePhnum pages m).toNat) :
    Phdr.read pages m (phdrAddr pages m k) ∈ phdrs pages m :=
  List.mem_of_getElem? (phdrs_get hk)

lemma mem_phdrs (he : e ∈ phdrs pages m) :
    ∃ k < (ePhnum pages m).toNat, e = Phdr.read pages m (phdrAddr pages m k) := by
  obtain ⟨k,hk,rfl⟩ := List.mem_map.mp he
  exact ⟨k,List.mem_range.mp hk,rfl⟩

lemma dwordAt_low : (dwordAt pages m a).setWidth 8 = byteAt pages m a := by
  rw [dwordAt,BitVec.setWidth_append_eq_right]

/-- The program headers lie in the image. -/
lemma ElfImage.phdr_byte (h : ElfImage pages m size) (hk : k < (ePhnum pages m).toNat)
    (hi : i < 32) : InElf size (phdrAddr pages m k+BitVec.ofNat 32 i) := by
  have htable := h.table
  have hentry := Nat.mul_le_mul_right (ePhentsize pages m).toNat (Nat.succ_le_of_lt hk)
  rw [Nat.succ_mul] at hentry
  have hsize := h.phentsize
  refine ⟨(ePhoff pages m).toNat+k*(ePhentsize pages m).toNat+i,by omega,?_⟩
  rw [phdrAddr,BitVec.ofNat_add,BitVec.ofNat_add,BitVec.ofNat_toNat,BitVec.setWidth_eq]
  ac_rfl

/-- The bytes of a segment lie in the image. -/
lemma ElfImage.file_byte (h : ElfImage pages m size) (he : e ∈ phdrs pages m) (hc : e.Copied)
    (hi : i < e.filesz.toNat) :
    InElf size (kernelBinBaseAddr+e.offset+BitVec.ofNat 32 i) := by
  have hfile := h.file e he hc
  refine ⟨e.offset.toNat+i,by omega,?_⟩
  rw [BitVec.ofNat_add,BitVec.ofNat_toNat,BitVec.setWidth_eq,BitVec.add_assoc]

lemma ElfImage.header_byte (h : ElfImage pages m size) (hi : i < 52) :
    InElf size (kernelBinBaseAddr+BitVec.ofNat 32 i) := ⟨i,hi.trans_le h.header,rfl⟩

lemma Phdr.read_congr
    (h : ∀ i < 32, ∀ x, pages (a+BitVec.ofNat 32 i) = some x → m' x = m x) :
    Phdr.read pages m' a = Phdr.read pages m a := by
  have hfield (k : ℕ) (hk : k ≤ 28) : dwordAt pages m' (a+BitVec.ofNat 32 k) =
      dwordAt pages m (a+BitVec.ofNat 32 k) := by
    refine dwordAt_congr fun i hi => ?_
    have hadd : a+BitVec.ofNat 32 k+BitVec.ofNat 32 i = a+BitVec.ofNat 32 (k+i) := by bv_omega
    rw [hadd]
    exact h (k+i) (by omega)
  have h0 := hfield 0 (by omega)
  have h4 : dwordAt pages m' (a+4) = dwordAt pages m (a+4) := hfield 4 (by omega)
  have h8 : dwordAt pages m' (a+8) = dwordAt pages m (a+8) := hfield 8 (by omega)
  have h16 : dwordAt pages m' (a+16) = dwordAt pages m (a+16) := hfield 16 (by omega)
  have h20 : dwordAt pages m' (a+20) = dwordAt pages m (a+20) := hfield 20 (by omega)
  rw [BitVec.add_zero] at h0
  rw [Phdr.read,h0,h4,h8,h16,h20]
  rfl

end Headers

section Installed
variable {pages : Word → Option Word} {m m₀ m₁ : Mem} {size i : ℕ} {x : Word} {e : Phdr}
  {l : List Phdr}

/-- What the loader does for a header. -/
def installOne (pages : Word → Option Word) (m₀ m : Mem) (e : Phdr) : Mem :=
  if e.Copied then copyBytes pages (e.file pages m₀) e.vaddr e.filesz.toNat m else m

def installed (pages : Word → Option Word) (m₀ : Mem) (l : List Phdr) : Mem :=
  l.foldl (installOne pages m₀) m₀

lemma installOne_of_not_covers (h : e.Copied → ¬ e.Covers pages x) :
    installOne pages m₀ m e x = m x := by
  unfold installOne
  split
  · rename_i hc
    exact copyBytes_of_ne fun i hi hx => h hc ⟨i,hi,hx⟩
  · rfl

lemma foldl_of_not_covers (h : ∀ e ∈ l, e.Copied → ¬ e.Covers pages x) :
    l.foldl (installOne pages m₀) m x = m x := by
  induction l generalizing m with
  | nil => rfl
  | cons e l ih =>
    rw [List.foldl_cons,ih fun f hf => h f (List.mem_cons_of_mem _ hf)]
    exact installOne_of_not_covers (h e List.mem_cons_self)

/-- The last header that covers a byte decides about it. -/
lemma installed_last {before after : List Phdr} (hc : e.Copied) (hi : i < e.filesz.toNat)
    (hx : e.place pages i = some x)
    (hplace : ∀ j < e.filesz.toNat, e.place pages j = some x → i = j)
    (hafter : ∀ f ∈ after, f.Copied → ¬ f.Covers pages x) :
    installed pages m₀ (before++e::after) x = e.file pages m₀ i := by
  rw [installed,List.foldl_append,List.foldl_cons,foldl_of_not_covers hafter,installOne,if_pos hc]
  exact copyBytes_of_eq hi hx hplace

/-- A list with an element of a kind has a last one. -/
lemma exists_last {α : Type*} {P : α → Prop} {l : List α} (h : ∃ e ∈ l, P e) :
    ∃ before e after, l = before++e::after ∧ P e ∧ ∀ f ∈ after, ¬ P f := by
  classical
  induction l with
  | nil =>
    obtain ⟨e,he,-⟩ := h
    cases he
  | cons e l ih =>
    by_cases hl : ∃ f ∈ l, P f
    · obtain ⟨before,f,after,rfl,hf⟩ := ih hl
      exact ⟨e::before,f,after,rfl,hf⟩
    · obtain ⟨f,hf,hP⟩ := h
      rcases List.mem_cons.mp hf with rfl|hf
      · exact ⟨[],f,l,rfl,hP,fun g hg hPg => hl ⟨g,hg,hPg⟩⟩
      · exact absurd ⟨f,hf,hP⟩ hl

end Installed

/-- The destination of the copy is mapped, if the header is copied. -/
def Phdr.FileMapped (pages : Word → Option Word) (e : Phdr) : Prop :=
  e.Copied → ∀ i < e.filesz.toNat, (e.place pages i).isSome

section Loop
variable {pages : Word → Option Word} {m : Mem} {size i k : ℕ} {x back next : Word} {e : Phdr}
  {s s' : Protected}

lemma ElfImage.filesz_le (h : ElfImage pages m size) (he : e ∈ phdrs pages m) :
    e.filesz.toNat ≤ e.extent := by
  unfold Phdr.extent
  split
  · rename_i hl
    exact h.memsz e he hl
  · exact le_rfl

/-- The image is not overwritten while the headers are read. -/
lemma installed_image (h : Bootable pages m size) (hx : ImageByte pages size x) (k : ℕ) :
    installed pages m ((phdrs pages m).take k) x = m x := by
  refine foldl_of_not_covers fun e he hc hcov => ?_
  obtain ⟨i,hi,hp⟩ := hcov
  have hmem := List.mem_of_mem_take he
  exact (h.dest e hmem hc i (hi.trans_le (h.filesz_le hmem)) x hp).1 hx

/-- The state before the round of a header. -/
structure AtPhdr (pages : Word → Option Word) (m : Mem) (back : Word) (k : ℕ) (s : Protected) :
    Prop where
  stack : OnStack pages s [back] (installed pages m ((phdrs pages m).take k))
  ebx : s.ebx = phdrAddr pages m k
  edx : s.edx = BitVec.ofNat 32 (ePhentsize pages m).toNat
  ecx : s.ecx = BitVec.ofNat 32 ((ePhnum pages m).toNat-k)

/-- The instruction loop goes on as long as there is another header. -/
lemma AtPhdr.ecx_ne (hat : AtPhdr pages m back k s) (hk : k < (ePhnum pages m).toNat) :
    s.ecx ≠ 0 := by
  have hnum := (ePhnum pages m).isLt
  rw [hat.ecx]
  bv_omega

section Round
variable (hat : AtPhdr pages m back k s) (h : Bootable pages m size)
  (hk : k < (ePhnum pages m).toNat)
include hat h hk

lemma AtPhdr.header : Phdr.read pages m (phdrAddr pages m k) =
    Phdr.read pages (installed pages m ((phdrs pages m).take k)) s.ebx := by
  rw [hat.ebx]
  exact (Phdr.read_congr fun i hi x hx =>
    installed_image h ((h.phdr_byte hk hi).imageByte hx) k).symm

lemma AtPhdr.header_maps : ∀ i < 32, (pages (s.ebx+BitVec.ofNat 32 i)).isSome := by
  rw [hat.ebx]
  exact fun i hi => h.toPagesApart.maps (h.phdr_byte hk hi)

lemma AtPhdr.header_off : ∀ i < 32, ∀ x, pages (s.ebx+BitVec.ofNat 32 i) = some x →
    ¬ StackByte pages x := by
  rw [hat.ebx]
  exact fun i hi x hx => h.image x ((h.phdr_byte hk hi).imageByte hx)

lemma AtPhdr.type : readByte pages s.mem s.ebx =
    some ((Phdr.read pages m (phdrAddr pages m k)).type.setWidth 8) := by
  have hmaps := hat.header_maps h hk 0 (by omega)
  have hoff := hat.header_off h hk 0 (by omega)
  rw [BitVec.add_zero] at hmaps hoff
  rw [readByte_eq hmaps,hat.header h hk]
  refine congrArg some (Eq.trans ?_ dwordAt_low.symm)
  exact byteAt_congr fun x hx => hat.stack.off x (hoff x hx)

/-- A round goes to the next header, if the destination of its copy is mapped. -/
lemma AtPhdr.round (next : Word)
    (hto : (Phdr.read pages m (phdrAddr pages m k)).FileMapped pages) :
    ∃ s', s.segmentRound pages next = some s' ∧ AtPhdr pages m back (k+1) s' := by
  have hmem := phdrs_mem hk
  have htake : (phdrs pages m).take (k+1) =
      (phdrs pages m).take k++[Phdr.read pages m (phdrAddr pages m k)] := by
    rw [List.take_add_one,phdrs_get hk]
    rfl
  have htype := hat.type h hk
  have hheader := hat.header h hk
  have hinstall : ∃ s', (if (Phdr.read pages m (phdrAddr pages m k)).type.setWidth 8 = ptNull then
        some s else s.copySegment pages next) = some s' ∧ SameRegs s s' ∧
      OnStack pages s' [back] (installed pages m ((phdrs pages m).take (k+1))) := by
    rw [htake,installed,List.foldl_append,List.foldl_cons,List.foldl_nil,installOne]
    generalize Phdr.read pages m (phdrAddr pages m k) = e at hheader hmem hto ⊢
    by_cases hc : e.Copied
    · rw [if_neg hc,if_pos hc]
      have hfile (i : ℕ) (hi : i < e.filesz.toNat) := h.file_byte hmem hc hi
      have hdest (i : ℕ) (hi : i < e.filesz.toNat) :=
        h.dest e hmem hc i (hi.trans_le (h.filesz_le hmem))
      obtain ⟨s',hrun,hregs,hstack⟩ := copySegment_runs hat.stack h.stackApart hheader
        (hat.header_maps h hk) (hat.header_off h hk) next
        (fun i hi => h.toPagesApart.maps (hfile i hi)) (hto hc)
        (fun i hi x hx => h.image x ((hfile i hi).imageByte hx))
        (fun i hi x hx => (hdest i hi x hx).2.1) fun i hi j hj he => by
          obtain ⟨x,hx⟩ := Option.isSome_iff_exists.mp (hto hc j hj)
          exact (hdest j hj x hx).1 ((hfile i hi).imageByte (he.trans hx))
      have hsame : ∀ i < e.filesz.toNat,
          e.file pages (installed pages m ((phdrs pages m).take k)) i = e.file pages m i :=
        fun i hi => byteAt_congr fun x hx => installed_image h ((hfile i hi).imageByte hx) k
      rw [copyBytes_congr hsame] at hstack
      exact ⟨s',hrun,hregs,hstack⟩
    · rw [if_pos (not_not.mp hc),if_neg hc]
      exact ⟨s,rfl,⟨rfl,rfl,rfl⟩,hat.stack⟩
  obtain ⟨s',hrun,hregs,hstack⟩ := hinstall
  refine ⟨_,bind_some_of htype (bind_some_of hrun rfl),hstack.of_eq rfl rfl,?_,
    hregs.edx.trans hat.edx,?_⟩
  · change s'.ebx+s'.edx = _
    rw [hregs.ebx,hregs.edx,hat.ebx,hat.edx,phdrAddr,phdrAddr,Nat.succ_mul,BitVec.ofNat_add]
    ac_rfl
  · change s'.ecx-1 = _
    rw [hregs.ecx,hat.ecx]
    bv_omega

/-- If a round returns, the destination of its copy is mapped. -/
lemma AtPhdr.round_maps (hrun : s.segmentRound pages next = some s') :
    (Phdr.read pages m (phdrAddr pages m k)).FileMapped pages := by
  intro hc
  obtain ⟨b,hb,hrest⟩ := Option.bind_eq_some_iff.mp hrun
  obtain rfl := Option.some.inj ((hat.type h hk).symm.trans hb)
  obtain ⟨u,hu,-⟩ := Option.bind_eq_some_iff.mp hrest
  rw [if_neg hc] at hu
  exact copySegment_maps hat.stack h.stackApart (hat.header h hk) (hat.header_maps h hk)
    (hat.header_off h hk) hu

end Round

/-- The loop of kernel_init reaches the end of the header table, if the destinations are mapped. -/
lemma AtPhdr.each (hat : AtPhdr pages m back k s) (h : Bootable pages m size)
    (hk : k < (ePhnum pages m).toNat) (next : Word)
    (hto : ∀ e ∈ phdrs pages m, e.FileMapped pages) (rounds : ℕ)
    (hrounds : (ePhnum pages m).toNat-k ≤ rounds) :
    ∃ s', s.eachSegment pages next rounds = some s' ∧
      AtPhdr pages m back (ePhnum pages m).toNat s' := by
  induction rounds generalizing k s with
  | zero => omega
  | succ rounds ih =>
    obtain ⟨s₁,hround,hat₁⟩ := hat.round h hk next (hto _ (phdrs_mem hk))
    rw [Protected.eachSegment,hround,Option.bind_eq_bind,Option.bind_some]
    by_cases hlast : k+1 = (ePhnum pages m).toNat
    · rw [if_neg (by rw [hat₁.ecx,hlast,Nat.sub_self]; exact not_not.mpr rfl)]
      exact ⟨s₁,rfl,hlast ▸ hat₁⟩
    · rw [if_pos (hat₁.ecx_ne (by omega))]
      exact ih hat₁ (by omega) (by omega)

/-- If the loop ends, all destinations are mapped. -/
lemma AtPhdr.each_maps (hat : AtPhdr pages m back k s) (h : Bootable pages m size)
    (hk : k < (ePhnum pages m).toNat) {rounds : ℕ}
    (hrun : s.eachSegment pages next rounds = some s') :
    ∀ j, k ≤ j → j < (ePhnum pages m).toNat →
      (Phdr.read pages m (phdrAddr pages m j)).FileMapped pages := by
  induction rounds generalizing k s with
  | zero => cases hrun
  | succ rounds ih =>
    obtain ⟨u,hu,hrest⟩ := Option.bind_eq_some_iff.mp hrun
    have hfirst := hat.round_maps h hk hu
    obtain ⟨s₁,hround,hat₁⟩ := hat.round h hk next hfirst
    obtain rfl := Option.some.inj (hround.symm.trans hu)
    intro j hkj hj
    by_cases hjk : j = k
    · exact hjk ▸ hfirst
    · rw [if_pos (hat₁.ecx_ne (by omega))] at hrest
      exact ih hat₁ (by omega) hrest j (by omega) hj

lemma withLow16_zero (w : BitVec 16) : withLow16 0 w = BitVec.ofNat 32 w.toNat := by
  apply BitVec.eq_of_toNat_eq
  have hw := w.isLt
  have hmod : w.toNat%2^32 = w.toNat := Nat.mod_eq_of_lt (by omega)
  rw [BitVec.toNat_ofNat,hmod]
  refine (BitVec.toNat_append _ w).trans ?_
  simp

/-- The header of the image gives the first program header. -/
lemma startSegments_at (h : Bootable pages m size) (hst : OnStack pages s [back] m) :
    ∃ s', s.startSegments pages = some s' ∧ AtPhdr pages m back 0 s' := by
  have hmaps (i : ℕ) (hi : i < 52) := h.toPagesApart.maps (h.header_byte hi)
  have hoff (i : ℕ) (hi : i < 52) (x : Word)
      (hx : pages (kernelBinBaseAddr+BitVec.ofNat 32 i) = some x) : s.mem x = m x :=
    hst.off x (h.image x ((h.header_byte hi).imageByte hx))
  have hword (i : ℕ) (hi : i+1 < 52) (a : Word) (ha : a = kernelBinBaseAddr+BitVec.ofNat 32 i) :
      readWord pages s.mem a = some (wordAt pages m a) := by
    have hnext : a+1 = kernelBinBaseAddr+BitVec.ofNat 32 (i+1) := by
      rw [ha]
      bv_omega
    have hlow : byteAt pages s.mem a = byteAt pages m a := byteAt_congr (ha ▸ hoff i (by omega))
    have hhigh : byteAt pages s.mem (a+1) = byteAt pages m (a+1) :=
      byteAt_congr (hnext ▸ hoff (i+1) hi)
    rw [readWord_eq (ha ▸ hmaps i (by omega)) (hnext ▸ hmaps (i+1) hi),wordAt,wordAt,hlow,hhigh]
  have hentsize := hword 42 (by omega) (kernelBinBaseAddr+42) rfl
  have hnum := hword 44 (by omega) (kernelBinBaseAddr+44) rfl
  have hadd (i : ℕ) : kernelBinBaseAddr+28+BitVec.ofNat 32 i =
      kernelBinBaseAddr+BitVec.ofNat 32 (28+i) := by
    bv_omega
  have hphoff : readDword pages s.mem (kernelBinBaseAddr+28) = some (ePhoff pages m) := by
    rw [readDword_eq fun i hi => hadd i ▸ hmaps (28+i) (by omega),
      dwordAt_congr fun i hi => hadd i ▸ hoff (28+i) (by omega)]
    rfl
  refine ⟨_,bind_some_of hentsize (bind_some_of hphoff (bind_some_of hnum rfl)),
    hst.of_eq rfl rfl,?_,withLow16_zero _,withLow16_zero _⟩
  change ePhoff pages m+kernelBinBaseAddr = _
  rw [phdrAddr,Nat.zero_mul,BitVec.add_zero,BitVec.add_comm]

section Init
variable (h : Bootable pages m size) (hesp : s.esp = loaderStackTop) (hmem : s.mem = m)
include h hesp hmem

/-- The call and the header, up to the first round. -/
lemma kernelInit_starts (back : Word) : ∃ s₁ s₂, s.push pages back = some s₁ ∧
    s₁.startSegments pages = some s₂ ∧ AtPhdr pages m back 0 s₂ := by
  have h₀ : OnStack pages s [] m :=
    ⟨hesp.trans (BitVec.sub_zero _).symm,trivial,fun x _ => congrFun hmem x⟩
  obtain ⟨mem₁,hpush,h₁⟩ := h₀.push h.stackApart (by simp) back
  obtain ⟨s₂,hstart,hat⟩ := startSegments_at h h₁
  exact ⟨_,s₂,hpush,hstart,hat⟩

/-- If the destinations are mapped, kernel_init returns, and off its stack every header is copied in
turn. -/
theorem kernelInit_runs (hto : ∀ e ∈ phdrs pages m, e.FileMapped pages) (back next : Word) :
    ∃ s', s.kernelInit pages back next = some s' ∧
      ∀ x, ¬ StackByte pages x → s'.mem x = installed pages m (phdrs pages m) x := by
  have hnum := (ePhnum pages m).isLt
  obtain ⟨s₁,s₂,hpush,hstart,hat⟩ := kernelInit_starts h hesp hmem back
  obtain ⟨s₃,hrun,hlast⟩ := hat.each h h.phnum next hto (2^32) (by omega)
  have hstack := hlast.stack
  rw [List.take_of_length_le (phdrs_length).le] at hstack
  exact ⟨{ s₃ with eip := back, esp := s₃.esp+4 },bind_some_of hpush (bind_some_of hstart
    (bind_some_of hrun (bind_some_of (hstack.top h.stackApart (by simp)) (if_pos rfl)))),
    hstack.off⟩

/-- If kernel_init returns, the destinations are mapped. -/
theorem kernelInit_maps {back : Word} (hrun : s.kernelInit pages back next = some s') :
    ∀ e ∈ phdrs pages m, e.FileMapped pages := by
  obtain ⟨s₁,s₂,hpush,hstart,hat⟩ := kernelInit_starts h hesp hmem back
  obtain ⟨u,hu,hrest⟩ := Option.bind_eq_some_iff.mp hrun
  obtain rfl := Option.some.inj (hpush.symm.trans hu)
  obtain ⟨v,hv,hrest⟩ := Option.bind_eq_some_iff.mp hrest
  obtain rfl := Option.some.inj (hstart.symm.trans hv)
  obtain ⟨w,hw,-⟩ := Option.bind_eq_some_iff.mp hrest
  intro e he
  obtain ⟨k,hk,rfl⟩ := mem_phdrs he
  exact hat.each_maps h h.phnum hw k (Nat.zero_le k) hk

end Init
end Loop
end OsKernel

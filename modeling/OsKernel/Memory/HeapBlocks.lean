import OsKernel.Memory.HeapEdits

/-! The small branch of sys_malloc and sys_free on the data that the running thread sees: a block
is taken from a list of free blocks, or comes back to it. -/
namespace OsKernel
open Paging ByteMemory Exec KernelM IntrusiveList

/-- What sys_malloc does with a free list that is not empty, up to the release of the lock. -/
def popBlock (desc : ℕ) : KernelM ℕ := do
  let b ← listPop (freeListField desc)
  let blockSize ← loadWord (blockSizeField desc)
  memset b 0 blockSize
  let a := block2arena b
  let cnt ← loadWord (cntField a)
  storeWord (cntField a) ((cnt+2^32-1) % 2^32)
  return b

/-- What sys_free does with a block, up to the test whether its arena is in use. -/
def pushBlock (a b : ℕ) : KernelM Bool := do
  let desc ← loadWord (descField a)
  listAppend (freeListField desc) b
  let cnt ← loadWord (cntField a)
  storeWord (cntField a) ((cnt+1) % 2^32)
  let cnt ← loadWord (cntField a)
  let desc ← loadWord (descField a)
  let blocksPerArena ← loadWord (blocksPerArenaField desc)
  return decide (cnt = blocksPerArena)

theorem takeBlock_eq (pf : PoolFlags) (desc : ℕ) : takeBlock pf desc = (do
    let b ← popBlock desc
    lockRelease pf
    return b) := by
  simp only [takeBlock,popBlock,bind_assoc,pure_bind]

theorem freeBlock_eq (pf : PoolFlags) (a b : ℕ) : freeBlock pf a b = (do
    let full ← pushBlock a b
    if full then do
      removeBlocks a (2^32) 0
      mfreePage pf a 1
    else return ()) := by
  simp only [freeBlock,pushBlock,bind_assoc,pure_bind,decide_eq_true_eq]

section Descriptors
variable {m : Machine} {τ : ℕ → Option ℕ} {V V' : ByteMemory} {descs : ℕ} {H : Heap} {c : Fin 7}
  {p q i x size : ℕ} {k : Arena}

/-- Sizes and headers, which are in no list. -/
def Heap.Fixed (H : Heap) (descs q : ℕ) : Prop :=
  (∃ c : Fin 7, descs+24*c.val ≤ q ∧ q < descs+24*c.val+8) ∨
    ∃ p k, H.arena p = some k ∧ 4096*p ≤ q ∧ q < 4096*p+12

theorem Heap.Fixed.meta (h : H.Fixed descs q) : H.Meta descs q :=
  h.elim .inl fun h => .inr (.inl h)

/-- The descriptors, with the sizes that block_desc_init gives them. -/
structure DescsIn (τ : ℕ → Option ℕ) (V : ByteMemory) (descs : ℕ) : Prop where
  words : WordsIn τ Set.univ descs 168
  sizes : ∀ c : Fin 7, load32 V (descs+24*c.val) = classSize c ∧
    load32 V (descs+24*c.val+4) = perArena c

theorem HeapIn.descsIn (h : HeapIn τ V descs H) : DescsIn τ V descs := ⟨h.desc,h.sizes⟩

theorem DescsIn.congr (h : DescsIn τ V descs) (hV : ∀ q, H.Fixed descs q → V' q = V q) :
    DescsIn τ V' descs := by
  refine ⟨h.words,fun c => ?_⟩
  rw [load32_congr fun q h₁ h₂ => hV q (.inl ⟨c,h₁,by omega⟩),
    load32_congr fun q h₁ h₂ => hV q (.inl ⟨c,by omega,by omega⟩)]
  exact h.sizes c

namespace DescsIn
variable (h : DescsIn τ V descs)
include h

theorem desc_words (c : Fin 7) : WordsIn τ Set.univ (descs+24*c.val) 24 :=
  h.words.sub (by omega) (by omega)

theorem descAt_eq (c : Fin 7) : descAt descs c.val = descs+24*c.val :=
  h.words.field_eq (by omega) (by omega)

theorem freeListField_eq (c : Fin 7) : freeListField (descs+24*c.val) = freeListAt descs c :=
  (h.desc_words c).field_eq (by decide) rfl

theorem loadSize (hw : Window (m.cr3/pageSize) m.mem τ Set.univ) (c : Fin 7) :
    Acts m τ Set.univ (loadWord (blockSizeField (descs+24*c.val))) V (classSize c) V := by
  have hword := (h.desc_words c).word (by decide)
  rw [← (h.sizes c).1]
  exact .loadWord hw hword.page hword.aligned

theorem loadPerArena (hw : Window (m.cr3/pageSize) m.mem τ Set.univ) (c : Fin 7) :
    Acts m τ Set.univ (loadWord (blocksPerArenaField (descs+24*c.val))) V (perArena c) V := by
  have hword := h.desc_words c 4 (by decide) rfl
  rw [← (h.sizes c).2,blocksPerArenaField,(h.desc_words c).field_eq (by decide) rfl]
  exact .loadWord hw hword.page hword.aligned

end DescsIn

/-- The search stops at the first class whose blocks are large enough. -/
theorem DescsIn.findDesc (h : DescsIn τ V descs) (hw : Window (m.cr3/pageSize) m.mem τ Set.univ)
    (hs : size ≤ 1024) : ∃ c : Fin 7, size ≤ classSize c ∧ (∀ d, d < c → classSize d < size) ∧
      Acts m τ Set.univ (findDesc descs size descCnt 0) V c.val V := by
  have hloop : ∀ left descIdx, 0 < left → descIdx+left = 7 →
      (∀ d : Fin 7, d.val < descIdx → classSize d < size) →
      ∃ c : Fin 7, size ≤ classSize c ∧ (∀ d, d < c → classSize d < size) ∧
        Acts m τ Set.univ (OsKernel.findDesc descs size left descIdx) V c.val V := by
    intro left
    induction left with
    | zero => intro descIdx hpos; omega
    | succ left ih =>
      intro descIdx _ hsum hbefore
      have hload := h.loadSize hw ⟨descIdx,by omega⟩
      have hdesc := h.descAt_eq ⟨descIdx,by omega⟩
      dsimp only at hload hdesc
      by_cases hle : size ≤ classSize ⟨descIdx,by omega⟩
      · refine ⟨⟨descIdx,by omega⟩,hle,hbefore,?_⟩
        rw [OsKernel.findDesc,hdesc]
        refine .bind hload ?_
        rw [if_pos hle]
        exact .pure _
      · have hleft : 0 < left := by
          by_contra hzero
          obtain rfl : descIdx = 6 := by omega
          exact hle hs
        obtain ⟨c,hc,hfirst,hacts⟩ := ih (descIdx+1) hleft (by omega) fun d hd => by
          by_cases he : d.val = descIdx
          · have hd' : d = ⟨descIdx,by omega⟩ := Fin.ext he
            rw [hd']
            omega
          · exact hbefore d (by omega)
        refine ⟨c,hc,hfirst,?_⟩
        rw [OsKernel.findDesc,hdesc]
        refine .bind hload ?_
        rw [if_neg hle]
        exact hacts
  exact hloop descCnt 0 (by decide) rfl fun d hd => absurd hd (Nat.not_lt_zero _)

theorem HeapIn.header_word (h : HeapIn τ V descs H) (hp : H.arena p = some k) {j : ℕ}
    (hj : j < 12) (h4 : j % 4 = 0) : WordIn τ Set.univ (4096*p+j) :=
  H.header_words h.shape h.mapped hp j hj h4

theorem HeapIn.cntField_eq (h : HeapIn τ V descs H) (hp : H.arena p = some k) :
    cntField (4096*p) = 4096*p+4 :=
  (H.header_words h.shape h.mapped hp).field_eq (by decide) rfl

theorem HeapIn.loadCnt (h : HeapIn τ V descs H) (hw : Window (m.cr3/pageSize) m.mem τ Set.univ)
    (hp : H.arena p = some k) {U : ByteMemory} :
    Acts m τ Set.univ (loadWord (cntField (4096*p))) U (load32 U (4096*p+4)) U := by
  have hword := h.header_word hp (j := 4) (by decide) rfl
  rw [h.cntField_eq hp]
  exact .loadWord hw hword.page hword.aligned

theorem HeapIn.storeCnt (h : HeapIn τ V descs H) (hw : Window (m.cr3/pageSize) m.mem τ Set.univ)
    (hp : H.arena p = some k) {U : ByteMemory} (n : ℕ) :
    Acts m τ Set.univ (storeWord (cntField (4096*p)) n) U () (store32 U (4096*p+4) n) := by
  rw [h.cntField_eq hp]
  exact .storeWord hw (h.header_word hp (by decide) rfl)

theorem HeapIn.loadDesc (h : HeapIn τ V descs H) (hw : Window (m.cr3/pageSize) m.mem τ Set.univ)
    (hp : H.arena p = some k) {U : ByteMemory} :
    Acts m τ Set.univ (loadWord (descField (4096*p))) U (load32 U (4096*p)) U := by
  have hword := h.header_word hp (j := 0) (by decide) rfl
  exact .loadWord hw hword.page hword.aligned

/-- The lists and the count of one arena have changed. -/
theorem HeapIn.recount {H' : Heap} (h : HeapIn τ V descs H) (hshape : H'.Shape descs)
    (harena : H'.arena = H.arena) (hlists : ListsIn τ Set.univ V' (freeListAt descs) H'.free)
    (hp : H.arena p = some (.small c)) (hcnt : load32 V' (4096*p+4) = H'.freeCount p c)
    (hothers : ∀ q d, q ≠ p → H'.freeCount q d = H.freeCount q d)
    (hV : ∀ q, H.Fixed descs q → q < 4096*p+4 ∨ 4096*p+8 ≤ q → V' q = V q) :
    HeapIn τ V' descs H' := by
  have hpos := h.shape.pos p _ hp
  have haway := h.shape.away_bytes hp
  have hword {q : ℕ} {k : Arena} {j : ℕ} (hq : H.arena q = some k) (hj : j+4 ≤ 12)
      (hne : q ≠ p ∨ j ≠ 4) (h4 : j % 4 = 0) : load32 V' (4096*q+j) = load32 V (4096*q+j) :=
    load32_congr fun r h₁ h₂ => hV r (.inr ⟨q,k,hq,by omega,by omega⟩) (by omega)
  refine ⟨hshape,h.desc,h.nonnull,?_,fun c => ?_,hlists,fun q d hq => ?_,fun q n hq => ?_⟩
  · unfold Heap.Covers
    rw [harena]
    exact h.mapped
  · rw [load32_congr fun q h₁ h₂ => hV q (.inl ⟨c,h₁,by omega⟩) (by omega),
      load32_congr fun q h₁ h₂ => hV q (.inl ⟨c,by omega,by omega⟩) (by omega)]
    exact h.sizes c
  · rw [harena] at hq
    have h₀ := hword (j := 0) hq (by decide) (.inr (by decide)) rfl
    rw [Nat.add_zero] at h₀
    refine ⟨h₀.trans (h.small q d hq).1,?_⟩
    by_cases hqp : q = p
    · subst hqp
      obtain rfl := Arena.small.inj (Option.some.inj (hp.symm.trans hq))
      exact hcnt
    · rw [hword (j := 4) hq (by decide) (.inl hqp) rfl,hothers q d hqp]
      exact (h.small q d hq).2
  · rw [harena] at hq
    have hqp : q ≠ p := by
      rintro rfl
      cases hp.symm.trans hq
    have h₀ := hword (j := 0) hq (by decide) (.inl hqp) rfl
    rw [Nat.add_zero] at h₀
    rw [h₀,hword (j := 4) hq (by decide) (.inl hqp) rfl,
      hword (j := 8) hq (by decide) (.inl hqp) rfl]
    exact h.large q n hq

/-- A block is taken from a list, filled with zeros, and counted. -/
theorem HeapIn.popBlock (h : HeapIn τ V descs H) (hw : Window (m.cr3/pageSize) m.mem τ Set.univ)
    {l : List ℕ} (hl : H.free c = x::l) (hs : size ≤ classSize c) :
    ∃ V', Acts m τ Set.univ (popBlock (descs+24*c.val)) V x V' ∧
      HeapIn τ V' descs (H.take c l x size) ∧
      (∀ q, x ≤ q → q < x+classSize c → V' q = 0) ∧
      ∀ q, ¬ H.Meta descs q → q < x ∨ x+classSize c ≤ q → V' q = V q := by
  have hnd : (H.free c).Nodup := h.lists.lists.nodup_list c
  have hx : x ∈ H.free c := hl ▸ List.mem_cons_self
  obtain ⟨hlive,p,i,hp,hi,hxi⟩ := (h.shape.free c x).mp hx
  have hpage : x/4096 = p := hxi ▸ blockAt_page hi
  have hshape := h.shape.take hl hnd hs
  have hroom : H.Room x (classSize c) := ⟨p,_,hp,i,hi,hxi,rfl⟩
  have hroom' : (H.take c l x size).Room x (classSize c) := hroom
  have hnotfree : ∀ d, x ∉ (H.take c l x size).free d := by
    intro d hd
    have hnone := ((hshape.free d x).mp hd).1
    simp [Heap.take] at hnone
  obtain ⟨V₁,hpop,hlists,hoff⟩ := h.lists.pop hw hl
  have hoff' : ∀ q, H.Fixed descs q → V₁ q = V q := fun q hq => hoff q (hshape.offNodes hq)
  -- the count before and after
  have hcount := H.freeCount_take hi (hxi ▸ hlive) size
  have hle := H.freeCount_le p c
  have hmax := (perArena_bounds c).2
  rw [← hxi] at hcount
  generalize hV₂ : fill V₁ x (classSize c) 0 = V₂
  have hfix₂ : ∀ q, H.Fixed descs q → V₂ q = V q := by
    intro q hq
    rw [← hV₂,fill_of_not_mem ?_,hoff' q hq]
    by_contra hc
    have hmeta : (H.take c l x size).Fixed descs q := hq
    exact hshape.room_not_meta (q := q) hroom' hnotfree (by omega) (by omega) hmeta.meta
  have hcnt₂ : load32 V₂ (4096*p+4) = H.freeCount p c := by
    rw [load32_congr fun q h₁ h₂ => hfix₂ q (.inr ⟨p,_,hp,by omega,by omega⟩)]
    exact (h.small p c hp).2
  have hnew : (H.take c l x size).freeCount p c = H.freeCount p c-1 := by
    change Heap.freeCount { H with live := Function.update H.live x (some size) } p c = _
    omega
  refine ⟨store32 V₂ (4096*p+4) ((H.freeCount p c+2^32-1) % 2^32),?_,?_,?_,?_⟩
  · have hblock : block2arena x = 4096*p := by
      unfold block2arena pageSize
      omega
    have hx0 : x ≠ 0 := by
      have hb := blockAt_bounds (p := p) hi
      omega
    have hset : Acts m τ Set.univ (memset x 0 (classSize c)) V₁ () V₂ := by
      rw [← hV₂]
      refine .memset hw hx0 fun j hj => ⟨?_,trivial⟩
      obtain ⟨q,k,hq,hroom⟩ := hroom
      have hb := hroom.bounds
      exact (h.mapped _ ⟨q,k,hq,by omega,by omega⟩).1
    rw [OsKernel.popBlock,h.descsIn.freeListField_eq]
    refine .bind hpop (.bind ((h.descsIn.congr hoff').loadSize hw c) (.bind hset ?_))
    dsimp only
    rw [hblock,← hcnt₂]
    exact .bind (h.loadCnt hw hp) (.bind (h.storeCnt hw hp _) (.pure x))
  · refine h.recount hshape rfl (hlists.congr (fun d a ha => hlists.words ha)
      fun d a ha q h₁ h₂ => ?_)
      hp ?_ (fun q d hq => H.freeCount_update (hpage ▸ Ne.symm hq)) fun q hq hne => ?_
    · have hmeta : (H.take c l x size).Meta descs q := .inr (.inr ⟨d,a,ha,h₁,h₂⟩)
      rw [store32_of_not_mem,← hV₂,fill_of_not_mem]
      · by_contra hc
        exact hshape.room_not_meta hroom' hnotfree (by omega) (by omega) hmeta
      · by_contra hc
        have hno := hshape.offNodes (d := d) (q := q) (.inr ⟨p,_,hp,by omega,by omega⟩) a ha
        omega
    · rw [load32_store32_self (Nat.mod_lt _ (by decide)),hnew]
      omega
    · rw [store32_of_not_mem (by omega),hfix₂ q hq]
  · intro q h₁ h₂
    have hne := h.shape.room_header hroom hp
    rw [store32_of_not_mem (by omega),← hV₂,fill_of_mem h₁ h₂]
  · intro q hq hne
    have hh : q < 4096*p+4 ∨ 4096*p+8 ≤ q := by
      by_contra hc
      exact hq (.inr (.inl ⟨p,_,hp,by omega,by omega⟩))
    rw [store32_of_not_mem (by omega),← hV₂,fill_of_not_mem hne]
    refine hoff q fun a ha => ?_
    by_contra hc
    refine hq (.inr (.inr ⟨c,a,?_,by omega,by omega⟩))
    rw [nodesAt,spine_update_self] at ha
    rw [nodesAt,spine,hl]
    simp only [List.mem_cons,List.mem_append] at ha ⊢
    tauto

/-- A block comes back to its list, and is counted. -/
theorem HeapIn.pushBlock (h : HeapIn τ V descs H) (hw : Window (m.cr3/pageSize) m.mem τ Set.univ)
    (hp : H.arena p = some (.small c)) {i : ℕ} (hi : i < perArena c) (hx : blockAt p c i = x)
    (hlive : H.live x ≠ none) :
    ∃ V', Acts m τ Set.univ (pushBlock (4096*p) x) V
        (decide ((H.give c x).freeCount p c = perArena c)) V' ∧
      HeapIn τ V' descs (H.give c x) ∧ ∀ q, ¬ (H.give c x).Meta descs q → V' q = V q := by
  have hshape := hx ▸ h.shape.give hp hi
  have hroom : H.Room x (classSize c) := ⟨p,_,hp,i,hi,hx.symm,rfl⟩
  have hs := classSize_bounds c
  have hpage : x/4096 = p := hx ▸ blockAt_page hi
  have hnotfree : ∀ d, x ∉ H.free d := fun d hd => hlive ((h.shape.free d x).mp hd).1
  have hnode : NewNode τ Set.univ (freeListAt descs) H.free x := by
    refine ⟨fun j hj h4 => Heap.room_words h.mapped hroom j (by omega) h4,fun d a ha => ?_⟩
    by_contra hc
    exact h.shape.room_not_meta (q := max a x) hroom hnotfree (by omega) (by omega)
      (.inr (.inr ⟨d,a,ha,by omega,by omega⟩))
  obtain ⟨V₁,happend,hlists,hoff⟩ := h.lists.append hw hnode c
  have hnodes : ∀ a, a ∈ x::nodesAt (freeListAt descs) H.free c →
      a ∈ nodesAt (freeListAt descs) (H.give c x).free c := by
    intro a ha
    change a ∈ nodesAt _ (Function.update H.free c (H.free c++[x])) c
    rw [nodesAt,spine_update_self]
    simp only [spine,List.mem_cons,List.mem_append] at ha ⊢
    tauto
  have hoff' : ∀ q, H.Fixed descs q → V₁ q = V q := fun q hq =>
    hoff q fun a ha => hshape.offNodes (d := c) hq a (hnodes a ha)
  have hcount := H.freeCount_give hi (hx ▸ hlive)
  have hle := (H.give c x).freeCount_le p c
  have hmax := (perArena_bounds c).2
  rw [hx] at hcount
  replace hcount : (H.give c x).freeCount p c = H.freeCount p c+1 := hcount
  have hdesc₁ : load32 V₁ (4096*p) = descs+24*c.val := by
    rw [load32_congr fun q h₁ h₂ => hoff' q (.inr ⟨p,_,hp,h₁,by omega⟩)]
    exact (h.small p c hp).1
  have hcnt₁ : load32 V₁ (4096*p+4) = H.freeCount p c := by
    rw [load32_congr fun q h₁ h₂ => hoff' q (.inr ⟨p,_,hp,by omega,by omega⟩)]
    exact (h.small p c hp).2
  generalize hV₂ : store32 V₁ (4096*p+4) ((H.freeCount p c+1) % 2^32) = V₂
  have hcnt₂ : load32 V₂ (4096*p+4) = (H.give c x).freeCount p c := by
    rw [← hV₂,load32_store32_self (Nat.mod_lt _ (by decide))]
    omega
  have hdesc₂ : load32 V₂ (4096*p) = descs+24*c.val := by
    rw [← hV₂,load32_store32_of_disjoint (by omega),hdesc₁]
  have hV : ∀ q, H.Fixed descs q → q < 4096*p+4 ∨ 4096*p+8 ≤ q → V₂ q = V q := by
    intro q hq hne
    rw [← hV₂,store32_of_not_mem (by omega),hoff' q hq]
  have hheap : HeapIn τ V₂ descs (H.give c x) := by
    refine h.recount hshape rfl (hlists.congr (fun d a ha => hlists.words ha)
      fun d a ha q h₁ h₂ => ?_) hp hcnt₂ (fun q d hq => H.freeCount_update (hpage ▸ Ne.symm hq)) hV
    rw [← hV₂,store32_of_not_mem]
    by_contra hc
    have hno := hshape.offNodes (d := d) (q := q) (.inr ⟨p,_,hp,by omega,by omega⟩) a ha
    omega
  refine ⟨V₂,?_,hheap,fun q hq => ?_⟩
  · have hload := h.loadDesc hw hp (U := V)
    rw [(h.small p c hp).1] at hload
    have hload₂ := h.loadDesc hw hp (U := V₂)
    rw [hdesc₂] at hload₂
    have hcnt := h.loadCnt hw hp (U := V₂)
    rw [hcnt₂] at hcnt
    have hcnt' := h.loadCnt hw hp (U := V₁)
    rw [hcnt₁] at hcnt'
    have hstore : Acts m τ Set.univ (storeWord (cntField (4096*p)) ((H.freeCount p c+1) % 2^32))
        V₁ () V₂ := by
      rw [← hV₂]
      exact h.storeCnt hw hp _
    rw [OsKernel.pushBlock]
    refine .bind hload ?_
    rw [h.descsIn.freeListField_eq]
    exact .bind happend (.bind hcnt' (.bind hstore (.bind hcnt (.bind hload₂
      (.bind (hheap.descsIn.loadPerArena hw c) (.pure _))))))
  · have hh : q < 4096*p+4 ∨ 4096*p+8 ≤ q := by
      by_contra hc
      exact hq (.inr (.inl ⟨p,_,hp,by omega,by omega⟩))
    rw [← hV₂,store32_of_not_mem (by omega)]
    refine hoff q fun a ha => ?_
    by_contra hc
    exact hq (.inr (.inr ⟨c,a,hnodes a ha,by omega,by omega⟩))

/-- The header tells the two kinds of arenas apart. -/
theorem HeapIn.isLarge_small (h : HeapIn τ V descs H)
    (hw : Window (m.cr3/pageSize) m.mem τ Set.univ) (hp : H.arena p = some (.small c)) :
    Acts m τ Set.univ (isLarge (4096*p)) V false V := by
  have hne : load32 V (4096*p) ≠ 0 := by
    have hnn := h.nonnull
    rw [(h.small p c hp).1]
    omega
  refine .bind (h.loadDesc hw hp) ?_
  rw [if_neg hne]
  exact .pure _

theorem HeapIn.isLarge_large (h : HeapIn τ V descs H)
    (hw : Window (m.cr3/pageSize) m.mem τ Set.univ) {n : ℕ} (hp : H.arena p = some (.large n)) :
    Acts m τ Set.univ (isLarge (4096*p)) V true V := by
  obtain ⟨hdesc,-,hlarge⟩ := h.large p n hp
  have hword := h.header_word hp (j := 8) (by decide) rfl
  have hfield : largeField (4096*p) = 4096*p+8 :=
    (H.header_words h.shape h.mapped hp).field_eq (by decide) rfl
  refine .bind (h.loadDesc hw hp) ?_
  rw [hdesc,if_pos rfl,hfield]
  refine .bind (.loadWord hw hword.page hword.aligned) ?_
  rw [hlarge]
  exact .pure _

/-- A large arena can be taken out of the heap without a change of the memory. -/
theorem HeapIn.dropLarge (h : HeapIn τ V descs H) {n : ℕ} (hp : H.arena p = some (.large n)) :
    HeapIn τ V descs (H.dropLarge p) := by
  have hback {q : ℕ} {l : Arena} (hq : (H.dropLarge p).arena q = some l) :
      q ≠ p ∧ H.arena q = some l := by
    have hne : q ≠ p := by
      rintro rfl
      simp [Heap.dropLarge] at hq
    exact ⟨hne,(Function.update_of_ne hne _ _).symm.trans hq⟩
  refine ⟨h.shape.dropLarge hp,h.desc,h.nonnull,?_,h.sizes,h.lists,fun q c hq => ?_,
    fun q n hq => h.large q n (hback hq).2⟩
  · rintro v ⟨q,l,hq,h₁,h₂⟩
    exact h.mapped v ⟨q,l,(hback hq).2,h₁,h₂⟩
  · have hcount : (H.dropLarge p).freeCount q c = H.freeCount q c :=
      Heap.freeCount_update (by have := (hback hq).1; omega)
    rw [hcount]
    exact h.small q c (hback hq).2

end Descriptors
end OsKernel

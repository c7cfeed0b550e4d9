import OsKernel.Memory.HeapBlocks

/-! Pages become arenas and stop being arenas: the loops of sys_malloc and sys_free over the
blocks of an arena, and the header of a large allocation. -/
namespace OsKernel
open Paging ByteMemory Exec KernelM IntrusiveList

/-- What sys_malloc does with the pages of a large allocation, up to the release of the lock. -/
def largeHeader (a pgCnt : ℕ) : KernelM Unit := do
  memset a 0 (pgCnt*pageSize)
  storeWord (descField a) 0
  storeWord (cntField a) pgCnt
  storeWord (largeField a) 1

theorem mallocLarge_eq (pf : PoolFlags) (size : ℕ) : mallocLarge pf size = (do
    let a ← mallocPage pf (divRoundUp (size+arenaSize) pageSize)
    if a ≠ 0 then do
      largeHeader a (divRoundUp (size+arenaSize) pageSize)
      lockRelease pf
      return field a arenaSize
    else do
      lockRelease pf
      return 0) := by
  simp only [mallocLarge,largeHeader,bind_assoc]

section Pages
variable {m : Machine} {τ : ℕ → Option ℕ} {V V' : ByteMemory} {descs : ℕ} {H : Heap} {c : Fin 7}
  {p q i n x size : ℕ} {k : Arena}

/-- New pages hold nothing that the allocator relies on. -/
theorem Heap.Shape.vacant_not_meta (h : H.Shape descs) (hv : H.Vacant descs p n)
    (h₁ : p ≤ q/4096) (h₂ : q/4096 < p+n) : ¬ H.Meta descs q := by
  have haway := hv.away
  rintro (⟨c,hc₁,hc₂⟩|⟨r,k,hr,hr₁,hr₂⟩|⟨c,a,ha,ha₁,ha₂⟩)
  · omega
  · have hcov := h.covers_first hr
    rw [show r = q/4096 by omega] at hcov
    exact hv.uncovered _ h₁ h₂ hcov
  · rcases h.node_cases ha with hc|⟨-,⟨r,k,hr,hroom⟩⟩
    · omega
    · have hb := hroom.bounds
      have hs := classSize_bounds c
      exact hv.uncovered _ h₁ h₂ ⟨r,k,hr,by omega,by omega⟩

theorem Heap.Shape.vacant_nodes (h : H.Shape descs) (hv : H.Vacant descs p n) {a : ℕ}
    (ha : a ∈ nodesAt (freeListAt descs) H.free c) : a+8 ≤ 4096*p ∨ 4096*(p+n) ≤ a := by
  have hpos := hv.pos
  by_contra hc
  exact h.vacant_not_meta (q := max a (4096*p)) hv (by omega) (by omega)
    (.inr (.inr ⟨c,a,ha,by omega,by omega⟩))

/-- The address of a block, by the header of its arena. -/
theorem DescsIn.arena2block (h : DescsIn τ V descs)
    (hw : Window (m.cr3/pageSize) m.mem τ Set.univ) (hword : WordIn τ Set.univ (4096*p))
    (hdesc : load32 V (4096*p) = descs+24*c.val) (hp : p < 2^20) (hi : i < perArena c) :
    Acts m τ Set.univ (arena2block (4096*p) i) V (blockAt p c i) V := by
  have hb := blockAt_bounds (p := p) hi
  have hs := classSize_bounds c
  have hfield : field (4096*p) (arenaSize+i*classSize c) = blockAt p c i := by
    unfold blockAt at hb ⊢
    unfold arenaSize
    rw [field_eq (by omega)]
    omega
  refine .bind (.loadWord hw hword.page hword.aligned) ?_
  change Acts m τ Set.univ (loadWord (blockSizeField (load32 V (4096*p))) >>= _) V _ V
  rw [hdesc,← hfield]
  exact .bind (h.loadSize hw c) (.pure _)

/-- The lists while the blocks of a page are put on them. -/
theorem Heap.addSmall_free (H : Heap) (p : ℕ) (c : Fin 7) : (H.addSmall p c).free =
    Function.update H.free c (H.free c++(List.range (perArena c)).map (blockAt p c)) := rfl

/-- The loop of sys_malloc over the blocks of a new arena: every block is new to the list. -/
theorem HeapIn.makeBlocks (hshape : (H.addSmall p c).Shape descs)
    (hw : Window (m.cr3/pageSize) m.mem τ Set.univ) (hpage : WordsIn τ Set.univ (4096*p) 4096)
    (hbase : ∀ d, ∀ a ∈ nodesAt (freeListAt descs) H.free d, a+8 ≤ 4096*p ∨ 4096*p+4096 ≤ a)
    {left fuel : ℕ} (hsum : i+left = perArena c) (hfuel : left < fuel) (hd : DescsIn τ V descs)
    (hdesc : load32 V (4096*p) = descs+24*c.val)
    (hl : ListsIn τ Set.univ V (freeListAt descs)
      (Function.update H.free c (H.free c++(List.range i).map (blockAt p c)))) :
    ∃ V', Acts m τ Set.univ (makeBlocks (descs+24*c.val) (4096*p) fuel i) V () V' ∧
      ListsIn τ Set.univ V' (freeListAt descs) (H.addSmall p c).free ∧
      ∀ q, OffNodes q (nodesAt (freeListAt descs) (H.addSmall p c).free c) → V' q = V q := by
  have hpz := (hpage.word (by decide)).lt
  have hp20 : p < 2^20 := by omega
  induction left generalizing i fuel V with
  | zero =>
    obtain ⟨fuel,rfl⟩ := Nat.exists_eq_succ_of_ne_zero (Nat.ne_of_gt hfuel)
    refine ⟨V,.bind (hd.loadPerArena hw c) ?_,?_,fun _ _ => rfl⟩
    · rw [if_neg (by omega)]
      exact .pure ()
    · rw [Nat.add_zero] at hsum
      rwa [H.addSmall_free,← hsum]
  | succ left ih =>
    obtain ⟨fuel,rfl⟩ := Nat.exists_eq_succ_of_ne_zero (Nat.ne_of_gt (Nat.zero_lt_of_lt hfuel))
    have hi : i < perArena c := by omega
    have hs := classSize_bounds c
    have hb := blockAt_bounds (p := p) hi
    -- the block is apart from the nodes that the lists have so far
    have hnode : NewNode τ Set.univ (freeListAt descs)
        (Function.update H.free c (H.free c++(List.range i).map (blockAt p c)))
        (blockAt p c i) := by
      refine ⟨?_,fun d a ha => ?_⟩
      · have hsub := hpage.sub (k := blockAt p c i-4096*p) (l := 8)
          (by have := blockAt_mod p c i; omega) (by omega)
        rwa [show 4096*p+(blockAt p c i-4096*p) = blockAt p c i by omega] at hsub
      · by_cases hd' : d = c
        · subst hd'
          have ha' : a ∈ nodesAt (freeListAt descs) H.free d ∨
              ∃ j, j < i ∧ blockAt p d j = a := by
            rw [nodesAt,spine_update_self] at ha
            simp only [spine,List.mem_cons,List.mem_append,List.mem_map,List.mem_range,
              List.not_mem_nil,or_false] at ha ⊢
            tauto
          rcases ha' with ha|⟨j,hj,rfl⟩
          · have := hbase d a ha
            omega
          · have := blockAt_apart (p := p) (c := d) (Nat.ne_of_lt hj)
            omega
        · rw [nodesAt,spine_update_of_ne hd'] at ha
          have := hbase d a ha
          omega
    obtain ⟨V₁,happend,hlists,hoff⟩ := hl.append hw hnode c
    rw [Function.update_idem,Function.update_self,List.append_assoc] at hlists
    have hsucc : (List.range i).map (blockAt p c)++[blockAt p c i] =
        (List.range (i+1)).map (blockAt p c) := by
      rw [List.range_succ,List.map_append]
      rfl
    rw [hsucc] at hlists
    have hoff' : ∀ q, OffNodes q (nodesAt (freeListAt descs) (H.addSmall p c).free c) →
        V₁ q = V q := by
      intro q hq
      refine hoff q fun a ha => hq a ?_
      have hmem : ∀ j, j ≤ i → blockAt p c j ∈ (List.range (perArena c)).map (blockAt p c) :=
        fun j hj => List.mem_map.mpr ⟨j,List.mem_range.mpr (by omega),rfl⟩
      rw [nodesAt,spine_update_self] at ha
      rw [H.addSmall_free,nodesAt,spine_update_self]
      simp only [List.mem_cons,List.mem_append,List.not_mem_nil,or_false] at ha ⊢
      rcases ha with rfl|rfl|(ha|ha)|rfl
      · exact .inr (.inl (.inr (hmem i le_rfl)))
      · exact .inl rfl
      · exact .inr (.inl (.inl ha))
      · obtain ⟨j,hj,rfl⟩ := List.mem_map.mp ha
        exact .inr (.inl (.inr (hmem j (List.mem_range.mp hj).le)))
      · exact .inr (.inr rfl)
    have hfix : ∀ q, (H.addSmall p c).Fixed descs q → V₁ q = V q :=
      fun q hq => hoff' q (hshape.offNodes hq)
    have hnew : (H.addSmall p c).arena p = some (.small c) := Function.update_self _ _ _
    have hdesc₁ : load32 V₁ (4096*p) = descs+24*c.val := by
      rw [load32_congr fun q h₁ h₂ => hfix q (.inr ⟨p,_,hnew,h₁,by omega⟩),hdesc]
    obtain ⟨V₂,hrest,hlists₂,hoff₂⟩ := ih (i := i+1) (by omega) (show left < fuel by omega)
      (hd.congr hfix) hdesc₁ hlists
    refine ⟨V₂,?_,hlists₂,fun q hq => (hoff₂ q hq).trans (hoff' q hq)⟩
    have hword := hpage.word (by decide)
    have hload : Acts m τ Set.univ (loadWord (descField (4096*p))) V (descs+24*c.val) V := by
      rw [← hdesc]
      exact .loadWord hw hword.page hword.aligned
    have hnotfound := hnode.not_mem c
    refine .bind (hd.loadPerArena hw c) ?_
    rw [if_pos hi]
    refine .bind (hd.arena2block hw hword hdesc hp20 hi) (.bind hload ?_)
    rw [hd.freeListField_eq]
    refine .bind (hl.elemFind hw c _) (.bind (.kassert ?_) (.bind hload ?_))
    · rw [decide_eq_true_eq]
      exact fun hmem => hnotfound (mem_spine_of_mem hmem)
    · rw [hd.freeListField_eq]
      exact .bind happend hrest

/-- An arena with all blocks free is made from a page. -/
theorem HeapIn.makeArena (h : HeapIn τ V descs H) (hw : Window (m.cr3/pageSize) m.mem τ Set.univ)
    (hv : H.Vacant descs p 1) (hp : (τ p).isSome) (hlt : p < 2^20) (hp0 : p ≠ 0) (c : Fin 7) :
    ∃ V', Acts m τ Set.univ (makeArena (descs+24*c.val) (4096*p)) V () V' ∧
      HeapIn τ V' descs (H.addSmall p c) ∧
      ∀ q, ¬ H.Meta descs q → q/4096 ≠ p → V' q = V q := by
  have hshape := h.shape.addSmall hv c
  have hpage : WordsIn τ Set.univ (4096*p) 4096 := fun j hj h4 =>
    ⟨by rwa [show (4096*p+j)/4096 = p by omega],trivial,by omega,by omega⟩
  have hnew : (H.addSmall p c).arena p = some (.small c) := Function.update_self _ _ _
  generalize hV₁ : fill V (4096*p) pageSize 0 = V₁
  generalize hV₂ : store32 (store32 (store32 V₁ (4096*p) (descs+24*c.val)) (4096*p+8) 0)
    (4096*p+4) (perArena c) = V₂
  have hout : ∀ q, q/4096 ≠ p → V₂ q = V q := by
    intro q hq
    rw [← hV₂,← hV₁,store32_of_not_mem (by omega),store32_of_not_mem (by omega),
      store32_of_not_mem (by omega),fill_of_not_mem (by unfold pageSize; omega)]
  have hmeta : ∀ q, H.Meta descs q → V₂ q = V q := fun q hq =>
    hout q fun he => h.shape.vacant_not_meta (q := q) hv (by omega) (by omega) hq
  have hheap := h.congr h.desc h.mapped hmeta
  have hdlt := (h.descsIn.desc_words c).word (by decide)
  have hbounds := perArena_bounds c
  have hdesc₂ : load32 V₂ (4096*p) = descs+24*c.val := by
    rw [← hV₂,load32_store32_of_disjoint (by omega),load32_store32_of_disjoint (by omega),
      load32_store32_self hdlt.lt]
  have hcnt₂ : load32 V₂ (4096*p+4) = perArena c := by
    rw [← hV₂,load32_store32_self (by omega)]
  have hbase : ∀ d, ∀ a ∈ nodesAt (freeListAt descs) H.free d, a+8 ≤ 4096*p ∨ 4096*p+4096 ≤ a :=
    fun d a ha => h.shape.vacant_nodes hv ha
  obtain ⟨V',hloop,hlists,hoff⟩ := HeapIn.makeBlocks (i := 0) hshape hw hpage hbase
    (Nat.zero_add _) (show perArena c < 2^32 by omega) hheap.descsIn hdesc₂
    (by simpa using hheap.lists)
  have hfix : ∀ q, (H.addSmall p c).Fixed descs q → V' q = V₂ q := fun q hq =>
    hoff q (hshape.offNodes hq)
  have hfix' : ∀ q, H.Fixed descs q → (H.addSmall p c).Fixed descs q := by
    rintro q (hq|⟨r,k,hr,hr₁,hr₂⟩)
    · exact .inl hq
    · refine .inr ⟨r,k,?_,hr₁,hr₂⟩
      have hne : r ≠ p := by
        rintro rfl
        rw [hv.arena_eq_none h.shape] at hr
        contradiction
      exact (Function.update_of_ne hne _ _).trans hr
  have hold : ∀ {r k}, (H.addSmall p c).arena r = some k → r ≠ p → H.arena r = some k :=
    fun hr hne => (Function.update_of_ne hne _ _).symm.trans hr
  have hword : ∀ {r k} {j : ℕ}, (H.addSmall p c).arena r = some k → j+4 ≤ 12 →
      load32 V' (4096*r+j) = load32 V₂ (4096*r+j) := fun hr hj =>
    load32_congr fun q h₁ h₂ => hfix q (.inr ⟨_,_,hr,by omega,by omega⟩)
  refine ⟨V',?_,⟨hshape,h.desc,h.nonnull,?_,fun d => ?_,hlists,fun r d hr => ?_,fun r n hr => ?_⟩,
    fun q hq hqp => ?_⟩
  · have hload : Acts m τ Set.univ (loadWord (blocksPerArenaField (descs+24*c.val)))
        (store32 (store32 V₁ (4096*p) (descs+24*c.val)) (4096*p+8) 0) (perArena c)
        (store32 (store32 V₁ (4096*p) (descs+24*c.val)) (4096*p+8) 0) := by
      refine (h.descsIn.congr (H := H) fun q hq => ?_).loadPerArena hw c
      have hne : q/4096 ≠ p := fun he =>
        h.shape.vacant_not_meta (q := q) hv (by omega) (by omega) hq.meta
      rw [← hV₁,store32_of_not_mem (by omega),store32_of_not_mem (by omega),
        fill_of_not_mem (by unfold pageSize; omega)]
    have hcntField : cntField (4096*p) = 4096*p+4 := hpage.field_eq (by decide) rfl
    have hlargeField : largeField (4096*p) = 4096*p+8 := hpage.field_eq (by decide) rfl
    have hset : Acts m τ Set.univ (memset (4096*p) 0 pageSize) V () V₁ := by
      rw [← hV₁]
      refine .memset hw (by omega) fun j hj => ⟨?_,trivial⟩
      unfold pageSize at hj
      rwa [show (4096*p+j)/4096 = p by omega]
    rw [OsKernel.makeArena,hcntField,hlargeField]
    refine .bind hset (.bind (.storeWord hw (hpage.word (by decide)))
      (.bind (.storeWord hw (hpage 8 (by decide) rfl)) (.bind hload
        (.bind (.storeWord hw (hpage 4 (by decide) rfl)) ?_))))
    rw [hV₂]
    exact hloop
  · rintro v ⟨r,k,hr,h₁,h₂⟩
    by_cases hrp : r = p
    · subst hrp
      obtain rfl := Option.some.inj (hnew.symm.trans hr)
      obtain rfl : v = r := by
        change v < r+1 at h₂
        omega
      exact ⟨hp,hlt⟩
    · exact h.mapped v ⟨r,k,hold hr hrp,h₁,h₂⟩
  · rw [load32_congr fun q h₁ h₂ => hfix q (.inl ⟨d,h₁,by omega⟩),
      load32_congr fun q h₁ h₂ => hfix q (.inl ⟨d,by omega,by omega⟩)]
    exact hheap.sizes d
  · have h₀ := hword (j := 0) hr (by decide)
    rw [Nat.add_zero] at h₀
    rw [h₀,hword hr (by decide)]
    by_cases hrp : r = p
    · subst hrp
      obtain rfl := Arena.small.inj (Option.some.inj (hnew.symm.trans hr))
      refine ⟨hdesc₂,hcnt₂.trans (Eq.symm (Heap.freeCount_eq_perArena fun j hj => ?_))⟩
      have hpg := blockAt_page (p := r) hj
      exact h.shape.vacant_live hv (by omega) (by omega)
    · exact hheap.small r d (hold hr hrp)
  · have hrp : r ≠ p := by
      rintro rfl
      cases hnew.symm.trans hr
    have h₀ := hword (j := 0) hr (by decide)
    rw [Nat.add_zero] at h₀
    rw [h₀,hword hr (by decide),hword hr (by decide)]
    exact hheap.large r n (hold hr hrp)
  · rw [hoff q fun a ha => ?_,hout q hqp]
    by_contra hc
    rw [H.addSmall_free,nodesAt,spine_update_self] at ha
    have ha' : a ∈ nodesAt (freeListAt descs) H.free c ∨
        ∃ j, j < perArena c ∧ blockAt p c j = a := by
      simp only [spine,List.mem_cons,List.mem_append,List.mem_map,List.mem_range,List.not_mem_nil,
        or_false] at ha ⊢
      tauto
    rcases ha' with ha|⟨j,hj,rfl⟩
    · exact hq (.inr (.inr ⟨c,a,ha,by omega,by omega⟩))
    · have hb := blockAt_bounds (p := p) hj
      have hs := classSize_bounds c
      omega

/-- The list without the first i blocks of an arena. -/
def Heap.freeWithout (H : Heap) (p : ℕ) (c : Fin 7) (i : ℕ) : Fin 7 → List ℕ :=
  Function.update H.free c
    ((H.free c).filter fun x => decide (x ∉ (List.range i).map (blockAt p c)))

theorem Heap.freeWithout_zero (H : Heap) (p : ℕ) (c : Fin 7) : H.freeWithout p c 0 = H.free := by
  simp [freeWithout]

theorem Heap.freeWithout_succ (hnd : (H.free c).Nodup) : Function.update (H.freeWithout p c i) c
    ((H.freeWithout p c i c).erase (blockAt p c i)) = H.freeWithout p c (i+1) := by
  unfold freeWithout
  rw [Function.update_idem,Function.update_self,(hnd.filter _).erase_eq_filter,List.filter_filter]
  congr 1
  refine List.filter_congr fun x _ => Bool.eq_iff_iff.mpr ?_
  simp only [Bool.and_eq_true,bne_iff_ne,decide_eq_true_eq,List.range_succ,List.map_append,
    List.map_cons,List.map_nil,List.mem_append,List.mem_singleton,not_or]
  exact and_comm

theorem Heap.Shape.freeWithout_all (h : H.Shape descs) (hp : H.arena p = some (.small c)) :
    H.freeWithout p c (perArena c) = (H.dropSmall p c).free := by
  unfold Heap.freeWithout
  change _ = Function.update H.free c _
  congr 1
  refine List.filter_congr fun x hx => ?_
  obtain ⟨-,r,j,hr,hj,rfl⟩ := (h.free c x).mp hx
  rw [decide_eq_decide,not_iff_not,blockAt_page hj,List.mem_map]
  constructor
  · rintro ⟨k,hk,he⟩
    have hpage := blockAt_page (p := p) (List.mem_range.mp hk)
    rw [he,blockAt_page hj] at hpage
    exact hpage
  · rintro rfl
    exact ⟨j,List.mem_range.mpr hj,rfl⟩

theorem Heap.mem_freeWithout {d : Fin 7} (hx : x ∈ H.freeWithout p c i d) : x ∈ H.free d := by
  by_cases hd : d = c
  · subst hd
    rw [Heap.freeWithout,Function.update_self] at hx
    exact (List.mem_filter.mp hx).1
  · rwa [Heap.freeWithout,Function.update_of_ne hd] at hx

theorem Heap.nodes_freeWithout {d : Fin 7} {a : ℕ}
    (ha : a ∈ nodesAt (freeListAt descs) (H.freeWithout p c i) d) :
    a ∈ nodesAt (freeListAt descs) H.free d := by
  rcases mem_spine.mp ha with rfl|ha|rfl
  · exact head_mem_spine d
  · exact mem_spine_of_mem (Heap.mem_freeWithout ha)
  · exact tail_mem_spine d

/-- The loop of sys_free over the blocks of an arena that is no longer in use: every block is on
the list. -/
theorem HeapIn.removeLoop (h : HeapIn τ V descs H)
    (hw : Window (m.cr3/pageSize) m.mem τ Set.univ) (hp : H.arena p = some (.small c))
    (hfree : ∀ i, i < perArena c → H.live (blockAt p c i) = none) {left fuel : ℕ} {U : ByteMemory}
    (hsum : i+left = perArena c) (hfuel : left < fuel)
    (hl : ListsIn τ Set.univ U (freeListAt descs) (H.freeWithout p c i))
    (hU : ∀ q, H.Fixed descs q → U q = V q) :
    ∃ V', Acts m τ Set.univ (removeBlocks (4096*p) fuel i) U () V' ∧
      ListsIn τ Set.univ V' (freeListAt descs) (H.dropSmall p c).free ∧
      ∀ q, OffNodes q (nodesAt (freeListAt descs) H.free c) → V' q = U q := by
  have hword := h.header_word hp (j := 0) (by decide) rfl
  have hlt := (h.mapped p (h.shape.covers_first hp)).2
  induction left generalizing i fuel U with
  | zero =>
    obtain ⟨fuel,rfl⟩ := Nat.exists_eq_succ_of_ne_zero (Nat.ne_of_gt hfuel)
    have hd := h.descsIn.congr hU
    have hload : Acts m τ Set.univ (loadWord (descField (4096*p))) U (descs+24*c.val) U := by
      have hread := h.loadDesc hw hp (U := U)
      rwa [load32_congr fun q h₁ h₂ => hU q (.inr ⟨p,_,hp,h₁,by omega⟩),(h.small p c hp).1] at hread
    refine ⟨U,.bind hload (.bind (hd.loadPerArena hw c) ?_),?_,fun _ _ => rfl⟩
    · rw [if_neg (by omega)]
      exact .pure ()
    · rw [Nat.add_zero] at hsum
      rwa [← h.shape.freeWithout_all hp,← hsum]
  | succ left ih =>
    obtain ⟨fuel,rfl⟩ := Nat.exists_eq_succ_of_ne_zero (Nat.ne_of_gt (Nat.zero_lt_of_lt hfuel))
    have hi : i < perArena c := by omega
    have hd := h.descsIn.congr hU
    have hdesc : load32 U (4096*p) = descs+24*c.val := by
      rw [load32_congr fun q h₁ h₂ => hU q (.inr ⟨p,_,hp,h₁,by omega⟩),(h.small p c hp).1]
    have hload : Acts m τ Set.univ (loadWord (descField (4096*p))) U (descs+24*c.val) U := by
      rw [← hdesc]
      exact h.loadDesc hw hp
    have hmem : blockAt p c i ∈ H.freeWithout p c i c := by
      rw [Heap.freeWithout,Function.update_self,List.mem_filter]
      refine ⟨(h.shape.free c _).mpr ⟨hfree i hi,p,i,hp,hi,rfl⟩,?_⟩
      rw [decide_eq_true_eq,List.mem_map]
      rintro ⟨j,hj,he⟩
      have hij := blockAt_inj he
      have hj := List.mem_range.mp hj
      omega
    obtain ⟨V₁,hremove,hlists,hoff⟩ := hl.remove hw hmem
    rw [Heap.freeWithout_succ (h.lists.lists.nodup_list c)] at hlists hoff
    have hoff' : ∀ q, OffNodes q (nodesAt (freeListAt descs) H.free c) → V₁ q = U q :=
      fun q hq => hoff q fun a ha => hq a (Heap.nodes_freeWithout ha)
    obtain ⟨V',hrest,hlists',hoffs⟩ := ih (i := i+1) (by omega) (show left < fuel by omega) hlists
      fun q hq => (hoff' q (h.shape.offNodes hq)).trans (hU q hq)
    refine ⟨V',?_,hlists',fun q hq => (hoffs q hq).trans (hoff' q hq)⟩
    refine .bind hload (.bind (hd.loadPerArena hw c) ?_)
    rw [if_pos hi]
    refine .bind (hd.arena2block hw hword hdesc hlt hi) (.bind hload ?_)
    rw [hd.freeListField_eq]
    refine .bind (hl.elemFind hw c _) (.bind (.kassert (decide_eq_true hmem)) ?_)
    exact .bind hremove hrest

/-- An arena without a block in use is taken out of the heap. -/
theorem HeapIn.removeBlocks (h : HeapIn τ V descs H)
    (hw : Window (m.cr3/pageSize) m.mem τ Set.univ) (hp : H.arena p = some (.small c))
    (hfree : ∀ i, i < perArena c → H.live (blockAt p c i) = none) :
    ∃ V', Acts m τ Set.univ (removeBlocks (4096*p) (2^32) 0) V () V' ∧
      HeapIn τ V' descs (H.dropSmall p c) ∧ ∀ q, ¬ H.Meta descs q → V' q = V q := by
  have hmax := (perArena_bounds c).2
  obtain ⟨V',hacts,hlists,hoff⟩ := h.removeLoop hw hp hfree (i := 0)
    (Nat.zero_add _) (show perArena c < 2^32 by omega)
    (by rw [H.freeWithout_zero]; exact h.lists) fun _ _ => rfl
  have hback {q : ℕ} {l : Arena} (hq : (H.dropSmall p c).arena q = some l) :
      q ≠ p ∧ H.arena q = some l := by
    have hne : q ≠ p := by
      rintro rfl
      simp [Heap.dropSmall] at hq
    exact ⟨hne,(Function.update_of_ne hne _ _).symm.trans hq⟩
  have hfix : ∀ q, H.Fixed descs q → V' q = V q := fun q hq => hoff q (h.shape.offNodes hq)
  have hword : ∀ {r k} {j : ℕ}, H.arena r = some k → j+4 ≤ 12 →
      load32 V' (4096*r+j) = load32 V (4096*r+j) := fun hr hj =>
    load32_congr fun q h₁ h₂ => hfix q (.inr ⟨_,_,hr,by omega,by omega⟩)
  refine ⟨V',hacts,⟨h.shape.dropSmall hp hfree,h.desc,h.nonnull,?_,(h.descsIn.congr hfix).sizes,
    hlists,fun r d hr => ?_,fun r n hr => ?_⟩,fun q hq => hoff q fun a ha => ?_⟩
  · rintro v ⟨r,k,hr,h₁,h₂⟩
    exact h.mapped v ⟨r,k,(hback hr).2,h₁,h₂⟩
  · have h₀ := hword (j := 0) (hback hr).2 (by decide)
    rw [Nat.add_zero] at h₀
    rw [h₀,hword (hback hr).2 (by decide)]
    exact h.small r d (hback hr).2
  · have h₀ := hword (j := 0) (hback hr).2 (by decide)
    rw [Nat.add_zero] at h₀
    rw [h₀,hword (hback hr).2 (by decide),hword (hback hr).2 (by decide)]
    exact h.large r n (hback hr).2
  · by_contra hc
    exact hq (.inr (.inr ⟨c,a,ha,by omega,by omega⟩))

/-- New pages become a large allocation. -/
theorem HeapIn.largeHeader (h : HeapIn τ V descs H)
    (hw : Window (m.cr3/pageSize) m.mem τ Set.univ) (hv : H.Vacant descs p n)
    (hp : ∀ v, p ≤ v → v < p+n → (τ v).isSome ∧ v < 2^20) (hp0 : p ≠ 0)
    (hs : size+12 ≤ 4096*n) :
    ∃ V', Acts m τ Set.univ (largeHeader (4096*p) n) V () V' ∧
      HeapIn τ V' descs (H.addLarge p n size) ∧
      (∀ q, 4096*p+12 ≤ q → q < 4096*(p+n) → V' q = 0) ∧
      ∀ q, q/4096 < p ∨ p+n ≤ q/4096 → V' q = V q := by
  have hpos := hv.pos
  have hshape := h.shape.addLarge hv hs
  have hend := (hp (p+n-1) (by omega) (by omega)).2
  have hword : WordsIn τ Set.univ (4096*p) 12 := fun j hj h4 =>
    ⟨by rw [show (4096*p+j)/4096 = p by omega]; exact (hp p le_rfl (by omega)).1,trivial,
      by omega,by omega⟩
  have hnew : (H.addLarge p n size).arena p = some (.large n) := Function.update_self _ _ _
  have hold : ∀ {r k}, (H.addLarge p n size).arena r = some k → r ≠ p → H.arena r = some k :=
    fun hr hne => (Function.update_of_ne hne _ _).symm.trans hr
  generalize hV' : store32 (store32 (store32 (fill V (4096*p) (n*pageSize) 0) (4096*p) 0)
    (4096*p+4) n) (4096*p+8) 1 = V'
  have hout : ∀ q, q/4096 < p ∨ p+n ≤ q/4096 → V' q = V q := by
    intro q hq
    rw [← hV',store32_of_not_mem (by omega),store32_of_not_mem (by omega),
      store32_of_not_mem (by omega),fill_of_not_mem (by unfold pageSize; omega)]
  have hheap := h.congr h.desc h.mapped fun q hq => hout q (by
    by_contra hc
    exact h.shape.vacant_not_meta (q := q) hv (by omega) (by omega) hq)
  refine ⟨V',?_,⟨hshape,h.desc,h.nonnull,?_,hheap.sizes,hheap.lists,fun r d hr => ?_,
    fun r k hr => ?_⟩,fun q h₁ h₂ => ?_,hout⟩
  · have hcntField : cntField (4096*p) = 4096*p+4 := hword.field_eq (by decide) rfl
    have hlargeField : largeField (4096*p) = 4096*p+8 := hword.field_eq (by decide) rfl
    rw [OsKernel.largeHeader,hcntField,hlargeField,← hV']
    refine .bind (.memset hw (by omega) fun j hj => ⟨?_,trivial⟩)
      (.bind (.storeWord hw (hword.word (by decide)))
        (.bind (.storeWord hw (hword 4 (by decide) rfl))
        (.storeWord hw (hword 8 (by decide) rfl))))
    unfold pageSize at hj
    exact (hp _ (by omega) (by omega)).1
  · rintro v ⟨r,k,hr,h₁,h₂⟩
    by_cases hrp : r = p
    · subst hrp
      obtain rfl := Option.some.inj (hnew.symm.trans hr)
      exact hp v h₁ h₂
    · exact h.mapped v ⟨r,k,hold hr hrp,h₁,h₂⟩
  · have hrp : r ≠ p := by
      rintro rfl
      cases hnew.symm.trans hr
    have hcount : (H.addLarge p n size).freeCount r d = H.freeCount r d :=
      Heap.freeCount_update (by omega)
    rw [hcount]
    exact hheap.small r d (hold hr hrp)
  · by_cases hrp : r = p
    · subst hrp
      obtain rfl := Arena.large.inj (Option.some.inj (hnew.symm.trans hr))
      rw [← hV',load32_store32_of_disjoint (by omega),load32_store32_of_disjoint (by omega),
        load32_store32_self (by decide),load32_store32_of_disjoint (by omega),
        load32_store32_self (by omega),load32_store32_self (by decide)]
      exact ⟨rfl,rfl,rfl⟩
    · exact hheap.large r k (hold hr hrp)
  · rw [← hV',store32_of_not_mem (by omega),store32_of_not_mem (by omega),
      store32_of_not_mem (by omega),fill_of_mem (by omega) (by unfold pageSize; omega)]

end Pages
end OsKernel

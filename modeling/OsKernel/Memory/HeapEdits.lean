import OsKernel.Memory.HeapArenas

/-! What the allocator does to the abstract heap: a free block is taken or given back, and arenas
come and go. Each edit keeps the shape of the heap. -/
namespace OsKernel
open Paging ByteMemory IntrusiveList

namespace Heap
variable (H : Heap)

/-- The first free block x of a class is handed out. -/
def take (c : Fin 7) (l : List ℕ) (x size : ℕ) : Heap :=
  { H with free := Function.update H.free c l, live := Function.update H.live x (some size) }

/-- The block x comes back. -/
def give (c : Fin 7) (x : ℕ) : Heap :=
  { H with
    free := Function.update H.free c (H.free c++[x])
    live := Function.update H.live x none }

/-- Page p becomes an arena with free blocks. -/
def addSmall (p : ℕ) (c : Fin 7) : Heap :=
  { H with
    arena := Function.update H.arena p (some (.small c))
    free := Function.update H.free c (H.free c++(List.range (perArena c)).map (blockAt p c)) }

def dropSmall (p : ℕ) (c : Fin 7) : Heap :=
  { H with
    arena := Function.update H.arena p none
    free := Function.update H.free c ((H.free c).filter fun x => x/4096 ≠ p) }

/-- The n pages from p on are handed out. -/
def addLarge (p n size : ℕ) : Heap :=
  { H with
    arena := Function.update H.arena p (some (.large n))
    live := Function.update H.live (4096*p+12) (some size) }

def dropLarge (p : ℕ) : Heap :=
  { H with
    arena := Function.update H.arena p none
    live := Function.update H.live (4096*p+12) none }

/-- New pages for an arena. -/
structure Vacant (descs p n : ℕ) : Prop where
  pos : 0 < n
  uncovered : ∀ v, p ≤ v → v < p+n → ¬ H.Covers v
  away : descs+168 ≤ 4096*p ∨ 4096*(p+n) ≤ descs

variable {H} {descs : ℕ} {c d : Fin 7} {l : List ℕ} {p q n x y i size e : ℕ} {k : Arena}

/-- The page tells the arena of a block. -/
theorem block_arena (hp : H.arena p = some (.small c)) (hi : i < perArena c)
    (hq : H.arena q = some k) (hpq : blockAt p c i/4096 = q) : p = q ∧ k = .small c := by
  rw [blockAt_page hi] at hpq
  subst hpq
  exact ⟨rfl,Option.some.inj (hq.symm.trans hp)⟩

theorem freeCount_congr {H' : Heap} (h : ∀ i, i < perArena c →
    (H'.live (blockAt p c i) = none ↔ H.live (blockAt p c i) = none)) :
    H'.freeCount p c = H.freeCount p c :=
  congrArg Finset.card (Finset.filter_congr fun i hi => h i (Finset.mem_range.mp hi))

/-- One pointer is looked at by one arena at most. -/
theorem freeCount_update {o : Option ℕ} (hx : x/4096 ≠ p) :
    ({ H with live := Function.update H.live x o } : Heap).freeCount p c = H.freeCount p c := by
  refine freeCount_congr fun i hi => ?_
  have hne : blockAt p c i ≠ x := by
    rintro rfl
    exact hx (blockAt_page hi)
  dsimp only
  rw [Function.update_of_ne hne]

theorem freeCount_take (hi : i < perArena c) (hx : H.live (blockAt p c i) = none) (size : ℕ) :
    ({ H with live := Function.update H.live (blockAt p c i) (some size) } : Heap).freeCount p c+1 =
      H.freeCount p c := by
  have hmem : i ∈ (Finset.range (perArena c)).filter fun i => H.live (blockAt p c i) = none :=
    Finset.mem_filter.mpr ⟨Finset.mem_range.mpr hi,hx⟩
  have herase : ((Finset.range (perArena c)).filter fun j =>
      Function.update H.live (blockAt p c i) (some size) (blockAt p c j) = none) =
      ((Finset.range (perArena c)).filter fun i => H.live (blockAt p c i) = none).erase i := by
    ext j
    simp only [Finset.mem_filter,Finset.mem_erase]
    by_cases hj : j = i
    · subst hj
      simp
    · have hne : blockAt p c j ≠ blockAt p c i := fun he => hj (blockAt_inj he)
      rw [Function.update_of_ne hne]
      tauto
  rw [freeCount,freeCount,herase]
  exact Finset.card_erase_add_one hmem

theorem freeCount_give (hi : i < perArena c) (hx : H.live (blockAt p c i) ≠ none) :
    ({ H with live := Function.update H.live (blockAt p c i) none } : Heap).freeCount p c =
      H.freeCount p c+1 := by
  obtain ⟨size,hsize⟩ := Option.ne_none_iff_exists'.mp hx
  rw [← freeCount_take (H := { H with live := Function.update H.live (blockAt p c i) none }) hi
    (Function.update_self _ _ _) size]
  refine congrArg (·+1) (freeCount_congr fun j hj => ?_)
  dsimp only
  rw [Function.update_idem,← hsize,Function.update_eq_self]

theorem freeCount_eq_perArena (h : ∀ i, i < perArena c → H.live (blockAt p c i) = none) :
    H.freeCount p c = perArena c := by
  rw [freeCount,Finset.filter_true_of_mem fun i hi => h i (Finset.mem_range.mp hi),
    Finset.card_range]

theorem live_eq_none_of_freeCount (h : H.freeCount p c = perArena c) (hi : i < perArena c) :
    H.live (blockAt p c i) = none := by
  have hcard : ((Finset.range (perArena c)).filter fun i => H.live (blockAt p c i) = none).card =
      (Finset.range (perArena c)).card := h.trans (Finset.card_range _).symm
  exact Finset.filter_card_eq hcard i (Finset.mem_range.mpr hi)

theorem freeCount_le (H : Heap) (p : ℕ) (c : Fin 7) : H.freeCount p c ≤ perArena c :=
  (Finset.card_filter_le _ _).trans_eq (Finset.card_range _)

theorem Vacant.arena (hv : H.Vacant descs p n) (hq : H.arena q = some k) (hk : 0 < k.pages) :
    p+n ≤ q ∨ q+k.pages ≤ p := by
  have hpos := hv.pos
  by_contra hc
  exact hv.uncovered (max p q) (by omega) (by omega) ⟨q,k,hq,by omega,by omega⟩

theorem Vacant.arena_eq_none (hv : H.Vacant descs p n) (h : H.Shape descs) : H.arena p = none := by
  by_contra hne
  obtain ⟨k,hk⟩ := Option.ne_none_iff_exists'.mp hne
  exact hv.uncovered p le_rfl (Nat.lt_add_of_pos_right hv.pos) (h.covers_first hk)

namespace Shape

theorem room_covers (h : H.Shape descs) (hx : H.Room x e) : H.Covers (x/4096) := by
  obtain ⟨q,k,hq,hroom⟩ := hx
  have hb := hroom.bounds
  have he : 0 < e := by
    cases k with
    | small c =>
      obtain ⟨i,-,-,rfl⟩ := hroom
      have hs := classSize_bounds c
      omega
    | large m =>
      have hpos : 0 < m := h.pos q _ hq
      have hlen := hroom.2
      omega
  exact ⟨q,k,hq,by omega,by omega⟩

theorem vacant_live (h : H.Shape descs) (hv : H.Vacant descs p n) (hx : p ≤ x/4096)
    (hx' : x/4096 < p+n) : H.live x = none := by
  by_contra hne
  obtain ⟨size,hsize⟩ := Option.ne_none_iff_exists'.mp hne
  obtain ⟨e,hroom,-⟩ := h.live x size hsize
  exact hv.uncovered _ hx hx' (h.room_covers hroom)

theorem take (h : H.Shape descs) (hl : H.free c = x::l) (hnd : (H.free c).Nodup)
    (hs : size ≤ classSize c) : (H.take c l x size).Shape descs := by
  have hx : x ∈ H.free c := hl ▸ List.mem_cons_self
  obtain ⟨-,p,i,hp,hi,hxi⟩ := (h.free c x).mp hx
  rw [hl,List.nodup_cons] at hnd
  have hlive (y : ℕ) : (H.take c l x size).live y = none ↔ y ≠ x ∧ H.live y = none := by
    by_cases hy : y = x
    · simp [Heap.take,hy]
    · simp [Heap.take,hy]
  refine ⟨h.apart,h.pos,h.away,fun d y => ?_,fun y s hy => ?_,fun q n hq => ?_⟩
  · rw [hlive,and_assoc]
    change _ ↔ y ≠ x ∧ H.live y = none ∧ ∃ p i, H.arena p = some (.small d) ∧ _
    rw [← h.free]
    by_cases hd : d = c
    · subst hd
      rw [hl,List.mem_cons]
      change y ∈ Function.update H.free d l d ↔ _
      rw [Function.update_self]
      constructor
      · exact fun hy => ⟨fun he => hnd.1 (he ▸ hy),.inr hy⟩
      · exact fun hy => hy.2.resolve_left hy.1
    · change y ∈ Function.update H.free c l d ↔ _
      rw [Function.update_of_ne hd]
      refine ⟨fun hy => ⟨?_,hy⟩,And.right⟩
      rintro rfl
      obtain ⟨-,q,j,hq,hj,hxj⟩ := (h.free d y).mp hy
      have he := (block_arena hp hi hq (by rw [← hxi,hxj,blockAt_page hj])).2
      exact hd (Arena.small.inj he)
  · by_cases hy' : y = x
    · subst hy'
      obtain rfl : size = s := by simpa [Heap.take] using hy
      exact ⟨classSize c,⟨p,_,hp,i,hi,hxi,rfl⟩,hs⟩
    · exact h.live y s (by simpa [Heap.take,hy'] using hy)
  · rw [Option.isSome_iff_ne_none,Ne,hlive,not_and]
    exact fun _ => Option.isSome_iff_ne_none.mp (h.large q n hq)

theorem give (h : H.Shape descs) (hp : H.arena p = some (.small c)) (hi : i < perArena c) :
    (H.give c (blockAt p c i)).Shape descs := by
  generalize hx : blockAt p c i = x
  have hlive (y : ℕ) : (H.give c x).live y = none ↔ y = x ∨ H.live y = none := by
    by_cases hy : y = x
    · simp [Heap.give,hy]
    · simp [Heap.give,hy]
  refine ⟨h.apart,h.pos,h.away,fun d y => ?_,fun y s hy => ?_,fun q n hq => ?_⟩
  · rw [hlive]
    change y ∈ Function.update H.free c (H.free c++[x]) d ↔
      _ ∧ ∃ p i, H.arena p = some (.small d) ∧ _
    by_cases hd : d = c
    · subst hd
      rw [Function.update_self,List.mem_append,List.mem_singleton,h.free]
      constructor
      · rintro (hy|rfl)
        · exact ⟨.inr hy.1,hy.2⟩
        · exact ⟨.inl rfl,p,i,hp,hi,hx.symm⟩
      · rintro ⟨rfl|hy,hroom⟩
        · exact .inr rfl
        · exact .inl ⟨hy,hroom⟩
    · rw [Function.update_of_ne hd,h.free]
      refine ⟨fun hy => ⟨.inr hy.1,hy.2⟩,fun ⟨hy,hroom⟩ => ⟨hy.resolve_left ?_,hroom⟩⟩
      rintro rfl
      obtain ⟨q,j,hq,hj,hxj⟩ := hroom
      have he := (block_arena hp hi hq (by rw [hx,hxj,blockAt_page hj])).2
      exact hd (Arena.small.inj he)
  · have hy' : y ≠ x := by
      rintro rfl
      simp [Heap.give] at hy
    exact h.live y s (by simpa [Heap.give,hy'] using hy)
  · rw [Option.isSome_iff_ne_none,Ne,hlive,not_or]
    refine ⟨fun he => ?_,Option.isSome_iff_ne_none.mp (h.large q n hq)⟩
    have he' := (block_arena hp hi hq (by rw [hx,← he]; omega)).2
    contradiction

/-- The arenas with a new one among them. -/
theorem arenas_add (h : H.Shape descs) (hv : H.Vacant descs p n) (hk : k.pages = n) :
    (∀ q l r o, Function.update H.arena p (some k) q = some l →
      Function.update H.arena p (some k) r = some o → q ≠ r →
        q+l.pages ≤ r ∨ r+o.pages ≤ q) ∧
    (∀ q l, Function.update H.arena p (some k) q = some l → 0 < l.pages) ∧
    ∀ q l, Function.update H.arena p (some k) q = some l →
      descs+168 ≤ 4096*q ∨ 4096*(q+l.pages) ≤ descs := by
  subst hk
  have hcases : ∀ q l, Function.update H.arena p (some k) q = some l →
      q = p ∧ l = k ∨ q ≠ p ∧ H.arena q = some l := by
    intro q l hq
    by_cases hqp : q = p
    · subst hqp
      rw [Function.update_self] at hq
      exact .inl ⟨rfl,(Option.some.inj hq).symm⟩
    · rw [Function.update_of_ne hqp] at hq
      exact .inr ⟨hqp,hq⟩
  refine ⟨fun q l r o hq hr hne => ?_,fun q l hq => ?_,fun q l hq => ?_⟩
  · rcases hcases q l hq with ⟨rfl,rfl⟩|⟨-,hq'⟩ <;>
      rcases hcases r o hr with ⟨rfl,rfl⟩|⟨-,hr'⟩
    · exact absurd rfl hne
    · exact hv.arena hr' (h.pos r o hr')
    · exact (hv.arena hq' (h.pos q l hq')).symm
    · exact h.apart q l r o hq' hr' hne
  · rcases hcases q l hq with ⟨rfl,rfl⟩|⟨-,hq⟩
    · exact hv.pos
    · exact h.pos q l hq
  · rcases hcases q l hq with ⟨rfl,rfl⟩|⟨-,hq⟩
    · exact hv.away
    · exact h.away q l hq

/-- The arenas without one of them. -/
theorem arenas_drop (h : H.Shape descs) (p : ℕ) :
    (∀ q l r o, Function.update H.arena p none q = some l →
      Function.update H.arena p none r = some o → q ≠ r → q+l.pages ≤ r ∨ r+o.pages ≤ q) ∧
    (∀ q l, Function.update H.arena p none q = some l → 0 < l.pages) ∧
    ∀ q l, Function.update H.arena p none q = some l →
      descs+168 ≤ 4096*q ∨ 4096*(q+l.pages) ≤ descs := by
  have hold {q l} (hq : Function.update H.arena p none q = some l) : H.arena q = some l := by
    rw [Function.update_apply] at hq
    split at hq
    · contradiction
    · exact hq
  exact ⟨fun q l r o hq hr => h.apart q l r o (hold hq) (hold hr),fun q l hq => h.pos q l (hold hq),
    fun q l hq => h.away q l (hold hq)⟩

theorem addSmall (h : H.Shape descs) (hv : H.Vacant descs p 1) (c : Fin 7) :
    (H.addSmall p c).Shape descs := by
  obtain ⟨hapart,hpos,haway⟩ := h.arenas_add hv (k := .small c) rfl
  have hnone := hv.arena_eq_none h
  have harena {q l} (hq : H.arena q = some l) : (H.addSmall p c).arena q = some l := by
    have hne : q ≠ p := by
      rintro rfl
      rw [hnone] at hq
      contradiction
    exact (Function.update_of_ne hne _ _).trans hq
  have hnew : (H.addSmall p c).arena p = some (.small c) := Function.update_self _ _ _
  have hback {q l} (hq : (H.addSmall p c).arena q = some l) (hne : q ≠ p) : H.arena q = some l :=
    (Function.update_of_ne hne _ _).symm.trans hq
  refine ⟨hapart,hpos,haway,fun d y => ?_,fun y s hy => ?_,fun q n hq => ?_⟩
  · change y ∈ Function.update H.free c _ d ↔ H.live y = none ∧ _
    have hin : y ∈ H.free d → H.live y = none ∧ ∃ p' i, (H.addSmall p c).arena p' =
        some (.small d) ∧ i < perArena d ∧ y = blockAt p' d i := by
      intro hy
      obtain ⟨hlive,q,i,hq,hi⟩ := (h.free d y).mp hy
      exact ⟨hlive,q,i,harena hq,hi⟩
    by_cases hd : d = c
    · subst hd
      rw [Function.update_self,List.mem_append,List.mem_map]
      constructor
      · rintro (hy|⟨i,hi,rfl⟩)
        · exact hin hy
        · have hi := List.mem_range.mp hi
          have hpage := blockAt_page (p := p) hi
          exact ⟨h.vacant_live hv (by omega) (by omega),p,i,hnew,hi,rfl⟩
      · rintro ⟨hlive,q,i,hq,hi,rfl⟩
        by_cases hqp : q = p
        · exact .inr ⟨i,List.mem_range.mpr hi,by rw [hqp]⟩
        · exact .inl ((h.free d _).mpr ⟨hlive,q,i,hback hq hqp,hi,rfl⟩)
    · rw [Function.update_of_ne hd]
      refine ⟨hin,fun ⟨hlive,q,i,hq,hi⟩ => (h.free d y).mpr ⟨hlive,q,i,hback hq ?_,hi⟩⟩
      rintro rfl
      exact hd (Arena.small.inj (Option.some.inj (hq.symm.trans hnew)))
  · obtain ⟨e,⟨q,l,hq,hroom⟩,hle⟩ := h.live y s hy
    exact ⟨e,⟨q,l,harena hq,hroom⟩,hle⟩
  · refine h.large q n (hback hq ?_)
    rintro rfl
    cases hq.symm.trans hnew

theorem addLarge {size : ℕ} (h : H.Shape descs) (hv : H.Vacant descs p n)
    (hs : size+12 ≤ 4096*n) : (H.addLarge p n size).Shape descs := by
  obtain ⟨hapart,hpos,haway⟩ := h.arenas_add hv (k := .large n) rfl
  have hnone := hv.arena_eq_none h
  have hvpos := hv.pos
  have harena {q l} (hq : H.arena q = some l) : (H.addLarge p n size).arena q = some l := by
    have hne : q ≠ p := by
      rintro rfl
      rw [hnone] at hq
      contradiction
    exact (Function.update_of_ne hne _ _).trans hq
  have hnew : (H.addLarge p n size).arena p = some (.large n) := Function.update_self _ _ _
  have hback {q l} (hq : (H.addLarge p n size).arena q = some l) (hne : q ≠ p) :
      H.arena q = some l :=
    (Function.update_of_ne hne _ _).symm.trans hq
  have hlive : H.live (4096*p+12) = none := h.vacant_live hv (by omega) (by omega)
  refine ⟨hapart,hpos,haway,fun d y => ?_,fun y s hy => ?_,fun q m hq => ?_⟩
  · change y ∈ H.free d ↔ _
    rw [h.free]
    constructor
    · rintro ⟨hl,q,i,hq,hi,rfl⟩
      have hne : blockAt q d i ≠ 4096*p+12 := by
        intro he
        have hpage := blockAt_page (p := q) hi
        obtain rfl : q = p := by omega
        rw [hnone] at hq
        contradiction
      exact ⟨(Function.update_of_ne hne _ _).trans hl,q,i,harena hq,hi,rfl⟩
    · rintro ⟨hl,q,i,hq,hi⟩
      have hqp : q ≠ p := by
        rintro rfl
        cases hq.symm.trans hnew
      refine ⟨?_,q,i,hback hq hqp,hi⟩
      by_cases hy : y = 4096*p+12
      · rw [hy,hlive]
      · exact (Function.update_of_ne hy _ _).symm.trans hl
  · by_cases hy' : y = 4096*p+12
    · subst hy'
      have he : Function.update H.live (4096*p+12) (some size) (4096*p+12) = some s := hy
      rw [Function.update_self] at he
      obtain rfl := Option.some.inj he
      exact ⟨4096*n-12,⟨p,_,hnew,rfl,by omega⟩,by omega⟩
    · have he : H.live y = some s := (Function.update_of_ne hy' _ _).symm.trans hy
      obtain ⟨e,⟨q,l,hq,hroom⟩,hle⟩ := h.live y s he
      exact ⟨e,⟨q,l,harena hq,hroom⟩,hle⟩
  · change (Function.update H.live (4096*p+12) (some size) (4096*q+12)).isSome
    by_cases hqp : q = p
    · rw [hqp,Function.update_self]
      rfl
    · rw [Function.update_of_ne (by omega)]
      exact h.large q m (hback hq hqp)

theorem dropSmall (h : H.Shape descs) (hp : H.arena p = some (.small c))
    (hfree : ∀ i, i < perArena c → H.live (blockAt p c i) = none) :
    (H.dropSmall p c).Shape descs := by
  obtain ⟨hapart,hpos,haway⟩ := h.arenas_drop p
  have harena {q l} (hq : H.arena q = some l) (hne : q ≠ p) :
      (H.dropSmall p c).arena q = some l := (Function.update_of_ne hne _ _).trans hq
  have hback {q l} (hq : (H.dropSmall p c).arena q = some l) : q ≠ p ∧ H.arena q = some l := by
    have hne : q ≠ p := by
      rintro rfl
      simp [Heap.dropSmall] at hq
    exact ⟨hne,(Function.update_of_ne hne _ _).symm.trans hq⟩
  refine ⟨hapart,hpos,haway,fun d y => ?_,fun y s hy => ?_,fun q n hq => ?_⟩
  · change y ∈ Function.update H.free c _ d ↔ H.live y = none ∧ _
    by_cases hd : d = c
    · subst hd
      rw [Function.update_self,List.mem_filter,h.free]
      simp only [decide_eq_true_eq]
      constructor
      · rintro ⟨⟨hl,q,i,hq,hi,rfl⟩,hne⟩
        rw [blockAt_page hi] at hne
        exact ⟨hl,q,i,harena hq hne,hi,rfl⟩
      · rintro ⟨hl,q,i,hq,hi,rfl⟩
        rw [blockAt_page hi]
        exact ⟨⟨hl,q,i,(hback hq).2,hi,rfl⟩,(hback hq).1⟩
    · rw [Function.update_of_ne hd,h.free]
      constructor
      · rintro ⟨hl,q,i,hq,hi⟩
        refine ⟨hl,q,i,harena hq ?_,hi⟩
        rintro rfl
        exact hd (Arena.small.inj (Option.some.inj (hq.symm.trans hp)))
      · rintro ⟨hl,q,i,hq,hi⟩
        exact ⟨hl,q,i,(hback hq).2,hi⟩
  · obtain ⟨e,⟨q,l,hq,hroom⟩,hle⟩ := h.live y s hy
    refine ⟨e,⟨q,l,harena hq ?_,hroom⟩,hle⟩
    rintro rfl
    obtain rfl := Option.some.inj (hp.symm.trans hq)
    obtain ⟨i,hi,rfl,-⟩ := hroom
    have hl : H.live (blockAt q c i) = some s := hy
    rw [hfree i hi] at hl
    contradiction
  · exact h.large q n (hback hq).2

theorem dropLarge (h : H.Shape descs) (hp : H.arena p = some (.large n)) :
    (H.dropLarge p).Shape descs := by
  obtain ⟨hapart,hpos,haway⟩ := h.arenas_drop p
  have harena {q l} (hq : H.arena q = some l) (hne : q ≠ p) : (H.dropLarge p).arena q = some l :=
    (Function.update_of_ne hne _ _).trans hq
  have hback {q l} (hq : (H.dropLarge p).arena q = some l) : q ≠ p ∧ H.arena q = some l := by
    have hne : q ≠ p := by
      rintro rfl
      simp [Heap.dropLarge] at hq
    exact ⟨hne,(Function.update_of_ne hne _ _).symm.trans hq⟩
  refine ⟨hapart,hpos,haway,fun d y => ?_,fun y s hy => ?_,fun q m hq => ?_⟩
  · change y ∈ H.free d ↔ Function.update H.live (4096*p+12) none y = none ∧ _
    rw [h.free]
    constructor
    · rintro ⟨hl,q,i,hq,hi,rfl⟩
      have hqp : q ≠ p := by
        rintro rfl
        cases hq.symm.trans hp
      have hne : blockAt q d i ≠ 4096*p+12 := by
        intro he
        have hpage := blockAt_page (p := q) hi
        omega
      exact ⟨(Function.update_of_ne hne _ _).trans hl,q,i,harena hq hqp,hi,rfl⟩
    · rintro ⟨hl,q,i,hq,hi,rfl⟩
      have hne : blockAt q d i ≠ 4096*p+12 := by
        intro he
        have hpage := blockAt_page (p := q) hi
        have hqp := (hback hq).1
        omega
      exact ⟨(Function.update_of_ne hne _ _).symm.trans hl,q,i,(hback hq).2,hi,rfl⟩
  · have hne : y ≠ 4096*p+12 := by
      rintro rfl
      simp [Heap.dropLarge] at hy
    have he : H.live y = some s := (Function.update_of_ne hne _ _).symm.trans hy
    obtain ⟨e,⟨q,l,hq,hroom⟩,hle⟩ := h.live y s he
    refine ⟨e,⟨q,l,harena hq ?_,hroom⟩,hle⟩
    rintro rfl
    obtain rfl := Option.some.inj (hp.symm.trans hq)
    exact hne hroom.1
  · change (Function.update H.live (4096*p+12) none (4096*q+12)).isSome
    rw [Function.update_of_ne (by have := (hback hq).1; omega)]
    exact h.large q m (hback hq).2

end Shape
/-! The pages that the arenas cover. -/

theorem covers_add {H' : Heap} {v : ℕ} (h : H'.arena = Function.update H.arena p (some k))
    (hnone : H.arena p = none) : H'.Covers v ↔ H.Covers v ∨ p ≤ v ∧ v < p+k.pages := by
  unfold Covers
  rw [h]
  constructor
  · rintro ⟨q,l,hq,h₁,h₂⟩
    by_cases hqp : q = p
    · subst hqp
      rw [Function.update_self] at hq
      obtain rfl := Option.some.inj hq
      exact .inr ⟨h₁,h₂⟩
    · rw [Function.update_of_ne hqp] at hq
      exact .inl ⟨q,l,hq,h₁,h₂⟩
  · rintro (⟨q,l,hq,h₁,h₂⟩|⟨h₁,h₂⟩)
    · have hqp : q ≠ p := by
        rintro rfl
        rw [hnone] at hq
        contradiction
      exact ⟨q,l,(Function.update_of_ne hqp _ _).trans hq,h₁,h₂⟩
    · exact ⟨p,k,Function.update_self _ _ _,h₁,h₂⟩

theorem covers_drop {H' : Heap} {v : ℕ} (h : H'.arena = Function.update H.arena p none)
    (hs : H.Shape descs) (hp : H.arena p = some k) :
    H'.Covers v ↔ H.Covers v ∧ ¬ (p ≤ v ∧ v < p+k.pages) := by
  unfold Covers
  rw [h]
  constructor
  · rintro ⟨q,l,hq,h₁,h₂⟩
    have hqp : q ≠ p := by
      rintro rfl
      simp at hq
    rw [Function.update_of_ne hqp] at hq
    have hapart := hs.apart q l p k hq hp hqp
    exact ⟨⟨q,l,hq,h₁,h₂⟩,by omega⟩
  · rintro ⟨⟨q,l,hq,h₁,h₂⟩,hout⟩
    have hqp : q ≠ p := by
      rintro rfl
      obtain rfl := Option.some.inj (hp.symm.trans hq)
      exact hout ⟨h₁,h₂⟩
    exact ⟨q,l,(Function.update_of_ne hqp _ _).trans hq,h₁,h₂⟩

/-- The pages of an arena that has been dropped are vacant. -/
theorem vacant_drop {H' : Heap} (h : H'.arena = Function.update H.arena p none)
    (hs : H.Shape descs) (hp : H.arena p = some k) : H'.Vacant descs p k.pages := by
  refine ⟨hs.pos p k hp,fun v h₁ h₂ hv => ?_,hs.away p k hp⟩
  exact ((covers_drop h hs hp).mp hv).2 ⟨h₁,h₂⟩

/-! Edits and arenas with all blocks free. -/

theorem take_tight (h : H.Shape descs) (hx : x ∈ H.free c)
    (ht : ∀ q d, H.arena q = some (.small d) → q ≠ x/4096 → H.freeCount q d < perArena d) :
    (H.take c l x size).Tight := by
  obtain ⟨hlive,p,i,hp,hi,rfl⟩ := (h.free c x).mp hx
  rw [blockAt_page hi] at ht
  intro q d hq
  by_cases hqp : q = p
  · subst hqp
    obtain rfl := Arena.small.inj (Option.some.inj (hp.symm.trans hq))
    have hcount := H.freeCount_take hi hlive size
    have hle := H.freeCount_le q c
    change Heap.freeCount { H with live := Function.update H.live _ (some size) } q c < _
    omega
  · change Heap.freeCount { H with live := Function.update H.live _ _ } q d < _
    rw [freeCount_update (by rw [blockAt_page hi]; exact Ne.symm hqp)]
    exact ht q d hq hqp

theorem addLarge_tight (ht : H.Tight) : (H.addLarge p n size).Tight := by
  intro q d hq
  have hqp : q ≠ p := by
    rintro rfl
    simp [Heap.addLarge] at hq
  change Heap.freeCount { H with live := Function.update H.live _ _ } q d < _
  rw [freeCount_update (by omega)]
  exact ht q d ((Function.update_of_ne hqp _ _).symm.trans hq)

theorem dropLarge_tight (ht : H.Tight) : (H.dropLarge p).Tight := by
  intro q d hq
  have hqp : q ≠ p := by
    rintro rfl
    simp [Heap.dropLarge] at hq
  change Heap.freeCount { H with live := Function.update H.live _ _ } q d < _
  rw [freeCount_update (by omega)]
  exact ht q d ((Function.update_of_ne hqp _ _).symm.trans hq)

/-- Only the arena of the block can have become free. -/
theorem give_freeCount (ht : H.Tight) (hq : H.arena q = some (.small d)) (hqp : q ≠ x/4096) :
    (H.give c x).freeCount q d < perArena d := by
  change Heap.freeCount { H with live := Function.update H.live _ _ } q d < _
  rw [freeCount_update (Ne.symm hqp)]
  exact ht q d hq

theorem give_tight (ht : H.Tight) (hp : H.arena p = some (.small c)) (hx : x/4096 = p)
    (hne : (H.give c x).freeCount p c ≠ perArena c) : (H.give c x).Tight := by
  intro q d hq
  by_cases hqp : q = p
  · subst hqp
    obtain rfl := Arena.small.inj (Option.some.inj (hp.symm.trans hq))
    exact lt_of_le_of_ne (freeCount_le _ _ _) hne
  · exact give_freeCount ht hq (hx ▸ hqp)

theorem dropSmall_tight (ht : ∀ q d, H.arena q = some (.small d) → q ≠ p →
    H.freeCount q d < perArena d) : (H.dropSmall p c).Tight := by
  intro q d hq
  have hqp : q ≠ p := by
    rintro rfl
    simp [Heap.dropSmall] at hq
  exact ht q d ((Function.update_of_ne hqp _ _).symm.trans hq) hqp

end Heap
end OsKernel

import OsKernel.Memory.HeapLists

/-! Arenas and blocks: an abstract heap says which pages are arenas of which kind, which blocks
are free, and which pointers are in use with which size. HeapIn connects it with the memory. -/
namespace OsKernel
open Paging ByteMemory IntrusiveList

/-- The size of the blocks of a class. -/
def classSize (c : Fin 7) : ℕ := 16*2^c.val

def perArena (c : Fin 7) : ℕ := (pageSize-arenaSize)/classSize c

/-- Block i of the arena in page p. -/
def blockAt (p : ℕ) (c : Fin 7) (i : ℕ) : ℕ := 4096*p+12+i*classSize c

section Blocks
variable {c : Fin 7} {p q i j : ℕ}

theorem classSize_bounds (c : Fin 7) : 16 ≤ classSize c ∧ classSize c ≤ 1024 := by
  unfold classSize
  fin_cases c <;> decide

theorem perArena_bounds (c : Fin 7) : 0 < perArena c ∧ perArena c < 2^8 := by
  unfold perArena classSize pageSize arenaSize
  fin_cases c <;> decide

theorem classSize_mod (c : Fin 7) : classSize c % 4 = 0 := by
  unfold classSize
  fin_cases c <;> decide

theorem blockAt_mod (p : ℕ) (c : Fin 7) (i : ℕ) : blockAt p c i % 4 = 0 := by
  have h : i*classSize c % 4 = 0 := by rw [Nat.mul_mod,classSize_mod,Nat.mul_zero,Nat.zero_mod]
  unfold blockAt
  omega

/-- A block lies in its page, behind the header. -/
theorem blockAt_bounds (hi : i < perArena c) :
    4096*p+12 ≤ blockAt p c i ∧ blockAt p c i+classSize c ≤ 4096*p+4096 := by
  have h₁ : (i+1)*classSize c ≤ perArena c*classSize c := Nat.mul_le_mul_right _ hi
  have h₂ : perArena c*classSize c ≤ pageSize-arenaSize := Nat.div_mul_le_self _ _
  rw [Nat.succ_mul] at h₁
  unfold pageSize arenaSize at h₂
  unfold blockAt
  omega

theorem blockAt_page (hi : i < perArena c) : blockAt p c i/4096 = p := by
  have h := blockAt_bounds (p := p) hi
  have hs := classSize_bounds c
  omega

/-- Two blocks of an arena do not overlap. -/
theorem blockAt_apart (h : i ≠ j) :
    blockAt p c i+classSize c ≤ blockAt p c j ∨ blockAt p c j+classSize c ≤ blockAt p c i := by
  have hle {i j : ℕ} (hij : i < j) : (i+1)*classSize c ≤ j*classSize c :=
    Nat.mul_le_mul_right _ hij
  unfold blockAt
  rcases lt_or_gt_of_ne h with hlt|hlt
  · have := hle hlt
    rw [Nat.succ_mul] at this
    omega
  · have := hle hlt
    rw [Nat.succ_mul] at this
    omega

theorem blockAt_inj (h : blockAt p c i = blockAt p c j) : i = j := by
  by_contra hne
  have hs := classSize_bounds c
  have := blockAt_apart (p := p) (c := c) hne
  omega

end Blocks

/-- What a page of the heap is the first page of. -/
inductive Arena
  | small (c : Fin 7)
  | large (pgCnt : ℕ)

def Arena.pages : Arena → ℕ
  | .small _ => 1
  | .large pgCnt => pgCnt

/-- The arena that starts with page p has a place for an allocation at x with e bytes: a block, or
all its pages behind the header. -/
def Arena.HasRoom (p x e : ℕ) : Arena → Prop
  | .small c => ∃ i, i < perArena c ∧ x = blockAt p c i ∧ e = classSize c
  | .large pgCnt => x = 4096*p+12 ∧ e+12 = 4096*pgCnt

structure Heap where
  /-- the arenas, by their first pages -/
  arena : ℕ → Option Arena
  /-- the lists of free blocks -/
  free : Fin 7 → List ℕ
  /-- the requested sizes of the pointers in use -/
  live : ℕ → Option ℕ

/-- The address of the list of a class. -/
def freeListAt (descs : ℕ) (c : Fin 7) : ℕ := descs+24*c.val+8

namespace Heap

/-- The number of free blocks of an arena. -/
def freeCount (H : Heap) (p : ℕ) (c : Fin 7) : ℕ :=
  ((Finset.range (perArena c)).filter fun i => H.live (blockAt p c i) = none).card

/-- The page belongs to an arena. -/
def Covers (H : Heap) (v : ℕ) : Prop := ∃ p k, H.arena p = some k ∧ p ≤ v ∧ v < p+k.pages

def Room (H : Heap) (x e : ℕ) : Prop := ∃ p k, H.arena p = some k ∧ k.HasRoom p x e

/-- The arenas do not overlap each other or the descriptors, the free lists have exactly the free
blocks, and every pointer in use has its block or its pages. -/
structure Shape (H : Heap) (descs : ℕ) : Prop where
  apart : ∀ p k q l, H.arena p = some k → H.arena q = some l → p ≠ q →
    p+k.pages ≤ q ∨ q+l.pages ≤ p
  pos : ∀ p k, H.arena p = some k → 0 < k.pages
  away : ∀ p k, H.arena p = some k → descs+168 ≤ 4096*p ∨ 4096*(p+k.pages) ≤ descs
  free : ∀ c x, x ∈ H.free c ↔ H.live x = none ∧ ∃ p i, H.arena p = some (.small c) ∧
    i < perArena c ∧ x = blockAt p c i
  live : ∀ x size, H.live x = some size → ∃ e, H.Room x e ∧ size ≤ e
  large : ∀ p n, H.arena p = some (.large n) → (H.live (4096*p+12)).isSome

/-- The bytes that the allocator relies on: sizes, headers and nodes. -/
def Meta (H : Heap) (descs q : ℕ) : Prop :=
  (∃ c : Fin 7, descs+24*c.val ≤ q ∧ q < descs+24*c.val+8) ∨
    (∃ p k, H.arena p = some k ∧ 4096*p ≤ q ∧ q < 4096*p+12) ∨
    ∃ c, ∃ a ∈ nodesAt (freeListAt descs) H.free c, a ≤ q ∧ q < a+8

/-- No arena has all its blocks free. -/
def Tight (H : Heap) : Prop := ∀ p c, H.arena p = some (.small c) → H.freeCount p c < perArena c

end Heap

/-- The memory that the window shows holds the heap, with its descriptors at descs. -/
structure HeapIn (τ : ℕ → Option ℕ) (V : ByteMemory) (descs : ℕ) (H : Heap) : Prop where
  shape : H.Shape descs
  desc : WordsIn τ Set.univ descs 168
  nonnull : descs ≠ 0
  mapped : ∀ v, H.Covers v → (τ v).isSome ∧ v < 2^20
  sizes : ∀ c : Fin 7, load32 V (descs+24*c.val) = classSize c ∧
    load32 V (descs+24*c.val+4) = perArena c
  lists : ListsIn τ Set.univ V (freeListAt descs) H.free
  small : ∀ p c, H.arena p = some (.small c) → load32 V (4096*p) = descs+24*c.val ∧
    load32 V (4096*p+4) = H.freeCount p c
  large : ∀ p n, H.arena p = some (.large n) → load32 V (4096*p) = 0 ∧
    load32 V (4096*p+4) = n ∧ load32 V (4096*p+8) = 1

section Regions
variable {τ : ℕ → Option ℕ} {V : ByteMemory} {descs : ℕ} {H : Heap} {c d : Fin 7}
  {p q i j a x y e f n size : ℕ} {k l : Arena}

namespace Heap.Shape

theorem covers_first (h : H.Shape descs) (hp : H.arena p = some k) : H.Covers p :=
  ⟨p,k,hp,le_rfl,Nat.lt_add_of_pos_right (h.pos p k hp)⟩

/-- The nodes of a list are its sentinels and free blocks of its class. -/
theorem node_cases (h : H.Shape descs) (ha : a ∈ nodesAt (freeListAt descs) H.free c) :
    (descs+24*c.val+8 ≤ a ∧ a+8 ≤ descs+24*c.val+24) ∨
      H.live a = none ∧ H.Room a (classSize c) := by
  rcases mem_spine.mp ha with rfl|ha|rfl
  · exact .inl ⟨le_rfl,by unfold freeListAt; omega⟩
  · obtain ⟨hlive,p,i,hp,hi,rfl⟩ := (h.free c a).mp ha
    exact .inr ⟨hlive,p,.small c,hp,i,hi,rfl,rfl⟩
  · exact .inl ⟨by unfold freeListAt; omega,by unfold freeListAt; omega⟩

/-- The addresses of different arenas. -/
theorem apart_bytes (h : H.Shape descs) (hp : H.arena p = some k) (hq : H.arena q = some l)
    (hne : p ≠ q) : 4096*p+4096*k.pages ≤ 4096*q ∨ 4096*q+4096*l.pages ≤ 4096*p := by
  have := h.apart p k q l hp hq hne
  omega

theorem away_bytes (h : H.Shape descs) (hp : H.arena p = some k) :
    descs+168 ≤ 4096*p ∨ 4096*p+4096*k.pages ≤ descs := by
  have := h.away p k hp
  omega

end Heap.Shape

/-- A room lies in its arena behind the header. -/
theorem Arena.HasRoom.bounds (h : k.HasRoom p x e) :
    4096*p+12 ≤ x ∧ x+e ≤ 4096*p+4096*k.pages := by
  cases k with
  | small c =>
    obtain ⟨i,hi,rfl,rfl⟩ := h
    exact blockAt_bounds hi
  | large n =>
    obtain ⟨rfl,he⟩ := h
    exact ⟨le_rfl,by simp only [pages]; omega⟩

namespace Heap.Shape

/-- Two rooms do not overlap. -/
theorem room_apart (h : H.Shape descs) (hx : H.Room x e) (hy : H.Room y f) (hne : x ≠ y) :
    x+e ≤ y ∨ y+f ≤ x := by
  obtain ⟨p,k,hp,hx⟩ := hx
  obtain ⟨q,l,hq,hy⟩ := hy
  by_cases hpq : p = q
  · subst hpq
    obtain rfl := Option.some.inj (hp.symm.trans hq)
    cases k with
    | small c =>
      obtain ⟨i,hi,rfl,rfl⟩ := hx
      obtain ⟨j,hj,rfl,rfl⟩ := hy
      exact blockAt_apart fun hij => hne (congrArg _ hij)
    | large n => exact absurd (hx.1.trans hy.1.symm) hne
  · have := h.apart_bytes hp hq hpq
    have := hx.bounds
    have := hy.bounds
    omega

/-- A room holds no header. -/
theorem room_header (h : H.Shape descs) (hx : H.Room x e) (hp : H.arena p = some k) :
    x+e ≤ 4096*p ∨ 4096*p+12 ≤ x := by
  obtain ⟨q,l,hq,hx⟩ := hx
  have hb := hx.bounds
  by_cases hqp : q = p
  · subst hqp
    exact .inr hb.1
  · have := h.apart_bytes hp hq (Ne.symm hqp)
    have := h.pos p k hp
    omega

theorem room_descs (h : H.Shape descs) (hx : H.Room x e) : x+e ≤ descs ∨ descs+168 ≤ x := by
  obtain ⟨q,l,hq,hx⟩ := hx
  have := hx.bounds
  have := h.away_bytes hq
  omega

/-- A room that is no free block holds nothing that the allocator relies on. -/
theorem room_not_meta (h : H.Shape descs) (hx : H.Room x e) (hfree : ∀ c, x ∉ H.free c)
    (h₁ : x ≤ q) (h₂ : q < x+e) : ¬ H.Meta descs q := by
  rintro (⟨c,hc₁,hc₂⟩|⟨p,k,hp,hp₁,hp₂⟩|⟨c,a,ha,ha₁,ha₂⟩)
  · have := h.room_descs hx
    omega
  · have := h.room_header hx hp
    omega
  · rcases h.node_cases ha with hc|⟨hlive,ha'⟩
    · have := h.room_descs hx
      omega
    · have hxa : x ≠ a := by
        rintro rfl
        rcases mem_spine.mp ha with he|hm|he
        · have := h.room_descs ha'
          have := classSize_bounds c
          unfold freeListAt at he
          omega
        · exact hfree c hm
        · have := h.room_descs ha'
          have := classSize_bounds c
          unfold freeListAt at he
          omega
      have := h.room_apart hx ha' hxa
      have := classSize_bounds c
      omega

theorem live_not_meta (h : H.Shape descs) (hx : H.live x = some size) (h₁ : x ≤ q)
    (h₂ : q < x+size) : ¬ H.Meta descs q := by
  obtain ⟨e,hroom,hle⟩ := h.live x size hx
  refine h.room_not_meta hroom (fun c hc => ?_) h₁ (by omega)
  rw [((h.free c x).mp hc).1] at hx
  contradiction

/-- Sizes and headers are in no node. -/
theorem offNodes (h : H.Shape descs)
    (hq : (∃ c : Fin 7, descs+24*c.val ≤ q ∧ q < descs+24*c.val+8) ∨
      ∃ p k, H.arena p = some k ∧ 4096*p ≤ q ∧ q < 4096*p+12) :
    OffNodes q (nodesAt (freeListAt descs) H.free d) := by
  intro a ha
  have hd := classSize_bounds d
  rcases h.node_cases ha with hc|⟨-,ha⟩ <;> rcases hq with ⟨c,hc₁,hc₂⟩|⟨p,k,hp,hp₁,hp₂⟩
  · omega
  · have := h.away_bytes hp
    have := h.pos p k hp
    omega
  · have := h.room_descs ha
    omega
  · have := h.room_header ha hp
    omega

end Heap.Shape

/-- The words of a room. -/
theorem Heap.room_words (hmapped : ∀ v, H.Covers v → (τ v).isSome ∧ v < 2^20)
    (hx : H.Room x e) : WordsIn τ Set.univ x e := by
  intro j hj h4
  obtain ⟨p,k,hp,hx⟩ := hx
  have hb := hx.bounds
  have hmod : x % 4 = 0 := by
    cases k with
    | small c =>
      obtain ⟨i,-,rfl,-⟩ := hx
      exact blockAt_mod p c i
    | large n =>
      have he := hx.1
      omega
  obtain ⟨hsome,hlt⟩ := hmapped ((x+j)/4096) ⟨p,k,hp,by omega,by omega⟩
  exact ⟨hsome,trivial,by omega,by omega⟩

theorem Heap.header_words (h : H.Shape descs) (hmapped : ∀ v, H.Covers v → (τ v).isSome ∧ v < 2^20)
    (hp : H.arena p = some k) : WordsIn τ Set.univ (4096*p) 12 := by
  intro j hj h4
  have hpage : (4096*p+j)/4096 = p := by omega
  obtain ⟨hsome,hlt⟩ := hmapped p (h.covers_first hp)
  refine ⟨?_,trivial,by omega,by omega⟩
  rwa [hpage]

theorem Heap.Shape.node_words (h : H.Shape descs) (hdesc : WordsIn τ Set.univ descs 168)
    (hmapped : ∀ v, H.Covers v → (τ v).isSome ∧ v < 2^20)
    (ha : a ∈ nodesAt (freeListAt descs) H.free c) : WordsIn τ Set.univ a 8 := by
  rcases mem_spine.mp ha with rfl|hm|rfl
  · rw [freeListAt,Nat.add_assoc]
    exact hdesc.sub (by omega) (by omega)
  · obtain ⟨-,p,i,hp,hi,rfl⟩ := (h.free c a).mp hm
    have hs := classSize_bounds c
    have hw := H.room_words hmapped ⟨p,_,hp,i,hi,rfl,rfl⟩
    exact fun j hj h4 => hw j (by omega) h4
  · rw [freeListAt,Nat.add_assoc,Nat.add_assoc]
    exact hdesc.sub (by omega) (by omega)

/-- The heap is in every memory that agrees on the bytes that the allocator relies on. -/
theorem HeapIn.congr {τ' : ℕ → Option ℕ} {V' : ByteMemory} (h : HeapIn τ V descs H)
    (hdesc : WordsIn τ' Set.univ descs 168)
    (hmapped : ∀ v, H.Covers v → (τ' v).isSome ∧ v < 2^20)
    (hV : ∀ q, H.Meta descs q → V' q = V q) : HeapIn τ' V' descs H := by
  have hload {b : ℕ} (hb : ∀ q, b ≤ q → q < b+4 → H.Meta descs q) : load32 V' b = load32 V b :=
    load32_congr fun q h₁ h₂ => hV q (hb q h₁ h₂)
  have hheader {p k} (hp : H.arena p = some k) {j : ℕ} (hj : j+4 ≤ 12) :
      load32 V' (4096*p+j) = load32 V (4096*p+j) :=
    hload fun q h₁ h₂ => .inr (.inl ⟨p,k,hp,by omega,by omega⟩)
  refine ⟨h.shape,hdesc,h.nonnull,hmapped,fun c => ?_,?_,
    fun p c hp => ?_,fun p n hp => ?_⟩
  · rw [hload fun q h₁ h₂ => .inl ⟨c,by omega,by omega⟩,
      hload fun q h₁ h₂ => .inl ⟨c,by omega,by omega⟩]
    exact h.sizes c
  · exact h.lists.congr (fun c a ha => h.shape.node_words hdesc hmapped ha)
      fun c a ha q h₁ h₂ => hV q (.inr (.inr ⟨c,a,ha,h₁,h₂⟩))
  · rw [← Nat.add_zero (4096*p),hheader hp (by decide),Nat.add_zero,hheader hp (by decide)]
    exact h.small p c hp
  · rw [← Nat.add_zero (4096*p),hheader hp (by decide),Nat.add_zero,hheader hp (by decide),
      hheader hp (by decide)]
    exact h.large p n hp

end Regions
end OsKernel

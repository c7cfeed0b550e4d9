import OsKernel.Library.LinkStore
import OsKernel.Memory.HeapAccess

/-! The lists of free blocks in the memory that a window shows: the functions of list.c edit and
read the sequences that the nodes represent, and write to nodes only. -/
namespace OsKernel
open Paging ByteMemory Exec KernelM IntrusiveList

/-- The pointers in the nodes. -/
def nodeLinks (V : ByteMemory) : Links ℕ := ⟨fun a => load32 V (a+4),fun a => load32 V a⟩

/-- Nodes whose eight bytes can be written and do not overlap. -/
structure NodeSet (τ : ℕ → Option ℕ) (W : Set ℕ) (N : ℕ → Prop) : Prop where
  words : ∀ a, N a → WordsIn τ W a 8
  apart : ∀ a b, N a → N b → a ≠ b → a+8 ≤ b ∨ b+8 ≤ a

/-- The address is in no node of the list. -/
def OffNodes (q : ℕ) (l : List ℕ) : Prop := ∀ a ∈ l, q < a ∨ a+8 ≤ q

/-- The memory as a store of the pointers in it. -/
def heapStore : LinkStore ByteMemory ℕ where
  links := nodeLinks
  setNext V a w := store32 V (a+4) w
  setPrev V a w := store32 V a w

section Nodes
variable {m : Machine} {τ : ℕ → Option ℕ} {W : Set ℕ} {V : ByteMemory} {N : ℕ → Prop}
  {a before elem : ℕ}

theorem WordsIn.lt (h : WordsIn τ W a 8) : a < 2^32 := (h.word (by decide)).lt

theorem WordsIn.next_eq (h : WordsIn τ W a 8) : nextField a = a+4 :=
  h.field_eq (by decide) rfl

/-- Writes of addresses to nodes that do not overlap. -/
theorem heapStore_faithful (hN : NodeSet τ W N) : heapStore.Faithful N (· < 2^32) := by
  refine ⟨fun a ha => (hN.words a ha).lt,fun V a v ha hv b hb => ?_,fun V a v ha hv b hb => ?_⟩
  · by_cases hab : b = a
    · subst hab
      exact ⟨(load32_store32_self hv).trans (Function.update_self b v (nodeLinks V).next).symm,
        load32_store32_of_disjoint (.inl le_rfl)⟩
    · have hapart := hN.apart a b ha hb (Ne.symm hab)
      have hkeep : ((nodeLinks V).setNext a v).next b = (nodeLinks V).next b :=
        Function.update_of_ne hab _ _
      exact ⟨(load32_store32_of_disjoint (by omega)).trans hkeep.symm,
        load32_store32_of_disjoint (by omega)⟩
  · by_cases hab : b = a
    · subst hab
      exact ⟨load32_store32_of_disjoint (.inr le_rfl),
        (load32_store32_self hv).trans (Function.update_self b v (nodeLinks V).prev).symm⟩
    · have hapart := hN.apart a b ha hb (Ne.symm hab)
      have hkeep : ((nodeLinks V).setPrev a v).prev b = (nodeLinks V).prev b :=
        Function.update_of_ne hab _ _
      exact ⟨load32_store32_of_disjoint (by omega),
        (load32_store32_of_disjoint (by omega)).trans hkeep.symm⟩

theorem Acts.listInsertBefore (h : Window (m.cr3/pageSize) m.mem τ W) (hb : WordsIn τ W before 8)
    (he : WordsIn τ W elem 8) (hp : WordsIn τ W (load32 V before) 8) :
    Acts m τ W (listInsertBefore before elem) V () (heapStore.insertBefore V before elem) := by
  have hb₀ := hb.word (by decide)
  have he₀ := he.word (by decide)
  simp only [OsKernel.listInsertBefore,prevField,he.next_eq]
  refine .bind (.loadWord h hb₀.page hb₀.aligned) ?_
  rw [hp.next_eq]
  exact .bind (.storeWord h (hp 4 (by decide) rfl))
    (.bind (.storeWord h (he 4 (by decide) rfl)) (.bind (.loadWord h hb₀.page hb₀.aligned)
      (.bind (.storeWord h he₀) (.storeWord h hb₀))))

theorem Acts.listRemove (h : Window (m.cr3/pageSize) m.mem τ W) (he : WordsIn τ W elem 8)
    (hp : WordsIn τ W (load32 V elem) 8)
    (hn : WordsIn τ W (load32 (store32 V (load32 V elem+4) (load32 V (elem+4))) (elem+4)) 8) :
    Acts m τ W (listRemove elem) V () (heapStore.remove V elem) := by
  have he₀ := he.word (by decide)
  have he₄ := he 4 (by decide) rfl
  simp only [OsKernel.listRemove,prevField,he.next_eq]
  refine .bind (.loadWord h he₄.page he₄.aligned) (.bind (.loadWord h he₀.page he₀.aligned) ?_)
  rw [hp.next_eq]
  exact .bind (.storeWord h (hp 4 (by decide) rfl)) (.bind (.loadWord h he₀.page he₀.aligned)
    (.bind (.loadWord h he₄.page he₄.aligned) (.storeWord h (hn.word (by decide)))))

theorem insertBefore_of_off {q : ℕ} (hq : OffNodes q [before,elem,load32 V before]) :
    heapStore.insertBefore V before elem q = V q := by
  have hb := hq before (by simp)
  have he := hq elem (by simp)
  have hp := hq (load32 V before) (by simp)
  change store32 (store32 (store32 (store32 V (load32 V before+4) elem) (elem+4) before) elem _)
    before elem q = V q
  rw [store32_of_not_mem (by omega),store32_of_not_mem (by omega),store32_of_not_mem (by omega),
    store32_of_not_mem (by omega)]

theorem remove_of_off {q : ℕ} (hread : load32 (store32 V (load32 V elem+4)
    (load32 V (elem+4))) (elem+4) = load32 V (elem+4))
    (hq : OffNodes q [load32 V elem,load32 V (elem+4)]) : heapStore.remove V elem q = V q := by
  have hp := hq (load32 V elem) (by simp)
  have hn := hq (load32 V (elem+4)) (by simp)
  change store32 (store32 V (load32 V elem+4) (load32 V (elem+4))) (load32 (store32 V
    (load32 V elem+4) (load32 V (elem+4))) (elem+4)) _ q = V q
  rw [hread,store32_of_not_mem (by omega),store32_of_not_mem (by omega)]

end Nodes

section Lists
variable {ι : Type*} {m : Machine} {τ τ' : ℕ → Option ℕ} {W : Set ℕ} {V V' : ByteMemory}
  {plist : ι → ℕ} {free : ι → List ℕ} {i : ι} {x q : ℕ}

/-- The nodes of a list, with the sentinels in its struct. -/
abbrev nodesAt (plist : ι → ℕ) (free : ι → List ℕ) (i : ι) : List ℕ :=
  spine plist (fun i => plist i+8) free i

/-- The memory stores the sequences of the lists. -/
structure ListsIn (τ : ℕ → Option ℕ) (W : Set ℕ) (V : ByteMemory) (plist : ι → ℕ)
    (free : ι → List ℕ) : Prop where
  lists : Represents (nodeLinks V) plist (fun i => plist i+8) free
  nodes : NodeSet τ W fun a => ∃ i, a ∈ nodesAt plist free i

/-- A node apart from those of the lists. -/
structure NewNode (τ : ℕ → Option ℕ) (W : Set ℕ) (plist : ι → ℕ) (free : ι → List ℕ) (x : ℕ) :
    Prop where
  words : WordsIn τ W x 8
  apart : ∀ i, ∀ a ∈ nodesAt plist free i, a+8 ≤ x ∨ x+8 ≤ a

theorem NewNode.not_mem (hx : NewNode τ W plist free x) (i : ι) : x ∉ nodesAt plist free i :=
  fun h => by
    have := hx.apart i x h
    omega

/-- The lists depend on the bytes of their nodes. -/
theorem ListsIn.congr (h : ListsIn τ W V plist free)
    (hwords : ∀ i, ∀ a ∈ nodesAt plist free i, WordsIn τ' W a 8)
    (hV : ∀ i, ∀ a ∈ nodesAt plist free i, ∀ q, a ≤ q → q < a+8 → V' q = V q) :
    ListsIn τ' W V' plist free := by
  refine ⟨h.lists.congr fun i a ha => ⟨?_,?_⟩,⟨?_,h.nodes.apart⟩⟩
  · exact load32_congr fun q h₁ h₂ => hV i a ha q (by omega) (by omega)
  · exact load32_congr fun q h₁ h₂ => hV i a ha q h₁ (by omega)
  · rintro a ⟨i,ha⟩
    exact hwords i a ha

theorem ListsIn.words (h : ListsIn τ W V plist free) {a : ℕ} (ha : a ∈ nodesAt plist free i) :
    WordsIn τ W a 8 := h.nodes.words a ⟨i,ha⟩

theorem ListsIn.tail_eq (h : ListsIn τ W V plist free) (i : ι) : tailElem (plist i) = plist i+8 :=
  field_eq (h.words (tail_mem_spine i)).lt

theorem ListsIn.nodes_with (h : ListsIn τ W V plist free) (hx : NewNode τ W plist free x) :
    NodeSet τ W (LinkStore.NodesWith plist (fun i => plist i+8) free x) := by
  refine ⟨?_,?_⟩
  · rintro a (rfl|⟨i,ha⟩)
    · exact hx.words
    · exact h.words ha
  · rintro a b (rfl|⟨i,ha⟩) (rfl|⟨j,hb⟩) hab
    · exact absurd rfl hab
    · exact (hx.apart j b hb).symm
    · exact hx.apart i a ha
    · exact h.nodes.apart a b ⟨i,ha⟩ ⟨j,hb⟩ hab

variable [DecidableEq ι]

/-- list_append, whatever is between the sentinels. -/
theorem ListsIn.append (h : ListsIn τ W V plist free) (hw : Window (m.cr3/pageSize) m.mem τ W)
    (hx : NewNode τ W plist free x) (i : ι) :
    ∃ V', Acts m τ W (listAppend (plist i) x) V () V' ∧
      ListsIn τ W V' plist (Function.update free i (free i++[x])) ∧
      ∀ q, OffNodes q (x::nodesAt plist free i) → V' q = V q := by
  obtain ⟨as,p,hs,hxs⟩ := spine_concat plist (fun i => plist i+8) free i x
  have hprev : load32 V (plist i+8) = p := (h.lists.split hs).2.1.2
  have hp : p ∈ nodesAt plist free i := by simp [hs]
  have ht : plist i+8 ∈ nodesAt plist free i := tail_mem_spine i
  have hN := h.nodes_with hx
  have hnodes (j a) (ha : a ∈ nodesAt plist (Function.update free i (free i++[x])) j) :
      LinkStore.NodesWith plist (fun i => plist i+8) free x a :=
    (mem_spine_insert hs hxs ha).imp_right fun hm => ⟨j,hm⟩
  refine ⟨heapStore.insertBefore V (plist i+8) x,?_,⟨?_,?_,?_⟩,fun q hq => ?_⟩
  · rw [listAppend,h.tail_eq]
    exact .listInsertBefore hw (h.words ht) hx.words (hprev ▸ h.words hp)
  · exact LinkStore.represents_insert h.lists (heapStore_faithful hN) hs hxs hx.not_mem
  · rintro a ⟨j,ha⟩
    exact hN.words a (hnodes j a ha)
  · rintro a b ⟨j,ha⟩ ⟨k,hb⟩ hab
    exact hN.apart a b (hnodes j a ha) (hnodes k b hb) hab
  · refine insertBefore_of_off fun a ha => hq a ?_
    rw [hprev] at ha
    simp only [List.mem_cons,List.not_mem_nil,or_false] at ha
    rcases ha with rfl|rfl|rfl
    · exact List.mem_cons_of_mem _ ht
    · exact List.mem_cons_self
    · exact List.mem_cons_of_mem _ hp

/-- list_remove of a member. -/
theorem ListsIn.remove (h : ListsIn τ W V plist free) (hw : Window (m.cr3/pageSize) m.mem τ W)
    (hx : x ∈ free i) :
    ∃ V', Acts m τ W (listRemove x) V () V' ∧
      ListsIn τ W V' plist (Function.update free i ((free i).erase x)) ∧
      ∀ q, OffNodes q (nodesAt plist (Function.update free i ((free i).erase x)) i) →
        V' q = V q := by
  obtain ⟨as,p,b,bs,hs,hxs⟩ := h.lists.around hx
  obtain ⟨hprev,hnext,hne⟩ := LinkStore.links_of_mem (S := heapStore) (s := V) h.lists hs
  have hprev' : load32 V x = p := hprev
  have hnext' : load32 V (x+4) = b := hnext
  have hpn : p ∈ nodesAt plist free i := by simp [hs]
  have hbn : b ∈ nodesAt plist free i := by simp [hs]
  have hxn : x ∈ nodesAt plist free i := mem_spine_of_mem hx
  have hS := heapStore_faithful h.nodes
  have hread : load32 (store32 V (load32 V x+4) (load32 V (x+4))) (x+4) = load32 V (x+4) :=
    LinkStore.remove_next hS ⟨i,hxn⟩ ⟨i,hprev.symm ▸ hpn⟩ ⟨i,hnext.symm ▸ hbn⟩ (hprev.symm ▸ hne)
  have hnodes (j a) (ha : a ∈ nodesAt plist (Function.update free i ((free i).erase x)) j) :
      ∃ i, a ∈ nodesAt plist free i := ⟨j,mem_spine_remove hs hxs ha⟩
  refine ⟨heapStore.remove V x,?_,⟨?_,?_,?_⟩,fun q hq => ?_⟩
  · refine .listRemove hw (h.words hxn) (hprev' ▸ h.words hpn) ?_
    rw [hread,hnext']
    exact h.words hbn
  · exact LinkStore.represents_remove h.lists hS hs hxs
  · rintro a ⟨j,ha⟩
    exact h.nodes.words a (hnodes j a ha)
  · rintro a b ⟨j,ha⟩ ⟨k,hb⟩ hab
    exact h.nodes.apart a b (hnodes j a ha) (hnodes k b hb) hab
  · refine remove_of_off hread fun a ha => hq a ?_
    rw [nodesAt,spine_update_self,hxs]
    rw [hprev',hnext'] at ha
    simp only [List.mem_append,List.mem_cons,List.not_mem_nil,or_false] at ha ⊢
    tauto

end Lists

section Walks
variable {ι : Type*} {m : Machine} {τ : ℕ → Option ℕ} {W : Set ℕ} {V : ByteMemory}
  {plist : ι → ℕ} {free : ι → List ℕ} {i : ι} {x : ℕ}

theorem Acts.loadNext (hw : Window (m.cr3/pageSize) m.mem τ W) {a : ℕ} (ha : WordsIn τ W a 8) :
    Acts m τ W (KernelM.loadWord (nextField a)) V (load32 V (a+4)) V := by
  have ha₄ := ha 4 (by decide) rfl
  rw [ha.next_eq]
  exact .loadWord hw ha₄.page ha₄.aligned

theorem ListsIn.listEmpty (h : ListsIn τ W V plist free) (hw : Window (m.cr3/pageSize) m.mem τ W)
    (i : ι) : Acts m τ W (listEmpty (plist i)) V (decide (free i = [])) V := by
  have hiff : load32 V (plist i+4) = plist i+8 ↔ free i = [] := h.lists.isEmpty_iff i
  refine .bind (.loadNext hw (h.words (head_mem_spine i))) ?_
  rw [h.tail_eq]
  simp only [hiff]
  exact .pure _

/-- The nodes of a list are different addresses. -/
theorem ListsIn.length_lt (h : ListsIn τ W V plist free) (i : ι) : (free i).length < 2^32 := by
  have hnd : (plist i::free i).Nodup :=
    List.nodup_cons.mpr ⟨h.lists.head_not_mem i,h.lists.nodup_list i⟩
  have hsub : plist i::free i ⊆ List.range (2^32) := by
    intro a ha
    refine List.mem_range.mpr (h.words (i := i) ?_).lt
    rcases List.mem_cons.mp ha with rfl|ha
    · exact head_mem_spine i
    · exact mem_spine_of_mem ha
  have hlen := (hnd.subperm hsub).length_le
  rw [List.length_cons,List.length_range] at hlen
  omega

/-- The loop of elem_find reaches the tail or the node. -/
theorem ListsIn.elemFind (h : ListsIn τ W V plist free) (hw : Window (m.cr3/pageSize) m.mem τ W)
    (i : ι) (x : ℕ) : Acts m τ W (elemFind (plist i) x) V (decide (x ∈ free i)) V := by
  refine .bind (.loadNext hw (h.words (head_mem_spine i))) ?_
  refine h.lists.walk i (motive := fun l p => (∀ a ∈ l, WordsIn τ W a 8) → ∀ fuel,
    l.length < fuel → Acts m τ W (elemFindLoop (plist i) x fuel p) V (decide (x ∈ l)) V)
    ?_ ?_ (fun a ha => h.words (mem_spine_of_mem ha)) (2^32) (h.length_lt i)
  · intro _ fuel hf
    obtain ⟨fuel,rfl⟩ := Nat.exists_eq_succ_of_ne_zero (Nat.ne_of_gt hf)
    rw [elemFindLoop,h.tail_eq,if_pos rfl]
    exact .pure _
  · intro y l hy ih hwords fuel hf
    obtain ⟨fuel,rfl⟩ := Nat.exists_eq_succ_of_ne_zero (Nat.ne_of_gt (Nat.zero_lt_of_lt hf))
    rw [elemFindLoop,h.tail_eq,if_neg hy]
    by_cases hxy : y = x
    · subst hxy
      rw [if_pos rfl,decide_eq_true List.mem_cons_self]
      exact .pure _
    · rw [if_neg hxy]
      have hmem : decide (x ∈ y::l) = decide (x ∈ l) := by simp [Ne.symm hxy]
      rw [hmem]
      refine .bind (.loadNext hw (hwords y List.mem_cons_self)) ?_
      exact ih (fun a ha => hwords a (List.mem_cons_of_mem _ ha)) fuel (Nat.lt_of_succ_lt_succ hf)

/-- list_pop of a list with a first node. -/
theorem ListsIn.pop [DecidableEq ι] (h : ListsIn τ W V plist free)
    (hw : Window (m.cr3/pageSize) m.mem τ W) {l : List ℕ} (hl : free i = x::l) :
    ∃ V', Acts m τ W (listPop (plist i)) V x V' ∧
      ListsIn τ W V' plist (Function.update free i l) ∧
      ∀ q, OffNodes q (nodesAt plist (Function.update free i l) i) → V' q = V q := by
  have hnext : load32 V (plist i+4) = x := (h.lists.next_head i).trans (by simp [hl])
  have hxt : x ≠ plist i+8 := fun he => h.lists.tail_not_mem i (by simp [hl,← he])
  obtain ⟨V',hacts,hlists,hoff⟩ := h.remove hw (i := i) (x := x) (by simp [hl])
  rw [hl,List.erase_cons_head] at hlists hoff
  have hload : Acts m τ W (KernelM.loadWord (nextField (plist i))) V x V :=
    hnext ▸ .loadNext hw (h.words (head_mem_spine i))
  refine ⟨V',.bind hload ?_,hlists,hoff⟩
  rw [h.tail_eq]
  exact .bind (.kassert hxt) (.bind hload (.bind hload (.bind hacts (.pure x))))

end Walks
end OsKernel

import OsKernel.Lib.KernelList
import OsKernel.Library.LinkStore

/-! The functions of list.c on well-formed lists. The bytes of the nodes are a store of links, in
which each assignment to a pointer is one write. -/
namespace OsKernel
open X86 IntrusiveList

lemma NodesApart.symm {a b : Word} (h : NodesApart a b) : NodesApart b a := fun x hb ha => h x ha hb

lemma not_nodesApart_self (a : Word) : ¬ NodesApart a a := by
  have ha : Span a 8 a := by
    rw [Span,BitVec.sub_self]
    decide
  exact fun h => h a ha ha

lemma nodesApart_of_sub {a b : Word} (hab : 8 ≤ (b-a).toNat) (hba : 8 ≤ (a-b).toNat) :
    NodesApart a b := by
  intro x ha hb
  simp only [Span] at ha hb
  bv_omega

lemma nodesApart_header (list : Word) : NodesApart (plistHead list) (plistTail list) :=
  nodesApart_of_sub (by simp only [plistHead,plistTail]; bv_omega)
    (by simp only [plistHead,plistTail]; bv_omega)

section Fields
variable {m : Mem} {a b v x p q : Word}

/-- A pointer is one half of its node. -/
lemma span_field (hp : p = a ∨ p = a+4) (h : Span p 4 x) : Span a 8 x := by
  simp only [Span] at h ⊢
  rcases hp with rfl|rfl <;> bv_omega

lemma NodesApart.load_store (h : NodesApart a b) (hp : p = a ∨ p = a+4) (hq : q = b ∨ q = b+4) :
    load (store m p v) q = load m q :=
  load_store_apart fun x hb ha => h x (span_field hp ha) (span_field hq hb)

lemma load_store_next (m : Mem) (a v : Word) : load (store m (a+4) v) a = load m a := by
  refine load_store_apart fun x hb ha => ?_
  simp only [Span] at ha hb
  bv_omega

lemma load_store_prev (m : Mem) (a v : Word) : load (store m a v) (a+4) = load m (a+4) := by
  refine load_store_apart fun x hb ha => ?_
  simp only [Span] at ha hb
  bv_omega

end Fields

/-- The memory as a store of the pointers in it. -/
def nodeStore : LinkStore Mem Word where
  links := linksOf
  setNext m a w := store m (a+4) w
  setPrev m a w := store m a w

/-- The nodes do not overlap. -/
def Apart8 (N : Word → Prop) : Prop := ∀ a b, N a → N b → a ≠ b → NodesApart a b

/-- Writes to nodes that do not overlap. -/
lemma nodeStore_faithful {N : Word → Prop} (hN : Apart8 N) :
    nodeStore.Faithful N fun _ => True := by
  refine ⟨fun _ _ => trivial,fun m a v ha _ b hb => ?_,fun m a v ha _ b hb => ?_⟩
  · by_cases hab : b = a
    · subst hab
      exact ⟨(load_store_same _ _ _).trans (Function.update_self b v (linksOf m).next).symm,
        load_store_next _ _ _⟩
    · have hapart := hN a b ha hb (Ne.symm hab)
      have hkeep : ((linksOf m).setNext a v).next b = (linksOf m).next b :=
        Function.update_of_ne hab _ _
      exact ⟨(hapart.load_store (.inr rfl) (.inr rfl)).trans hkeep.symm,
        hapart.load_store (.inr rfl) (.inl rfl)⟩
  · by_cases hab : b = a
    · subst hab
      exact ⟨load_store_prev _ _ _,
        (load_store_same _ _ _).trans (Function.update_self b v (linksOf m).prev).symm⟩
    · have hapart := hN a b ha hb (Ne.symm hab)
      have hkeep : ((linksOf m).setPrev a v).prev b = (linksOf m).prev b :=
        Function.update_of_ne hab _ _
      exact ⟨hapart.load_store (.inl rfl) (.inr rfl),
        (hapart.load_store (.inl rfl) (.inl rfl)).trans hkeep.symm⟩

section Functions
variable (s : ListState) (plist before elem pelem : Word)

lemma listInit_mem : (s.listInit plist).mem =
    nodeStore.initList s.mem (plistHead plist) (plistTail plist) 0 := rfl

lemma listInsertBefore_mem : (s.listInsertBefore before elem).mem =
    nodeStore.insertBefore s.mem before elem := rfl

lemma listRemove_mem : (s.listRemove pelem).mem = nodeStore.remove s.mem pelem := rfl

end Functions

section Editing
variable {ι : Type*} {s : ListState} {plist : ι → Word} {ls : ι → List Word}
  {i j : ι} {x a b p : Word} {as bs xs : List Word}

lemma FreeNode.not_mem (hx : FreeNode plist ls x) (i : ι) : x ∉ nodesOf plist ls i :=
  fun h => not_nodesApart_self x (hx i x h)

/-- The nodes of all lists, and one more. -/
abbrev NodesWith (plist : ι → Word) (ls : ι → List Word) : Word → Word → Prop :=
  LinkStore.NodesWith (fun i => plistHead (plist i)) (fun i => plistTail (plist i)) ls

lemma ListsAt.apart8 (h : ListsAt s plist ls) : Apart8 fun a => ∃ i, a ∈ nodesOf plist ls i := by
  rintro a b ⟨i,ha⟩ ⟨j,hb⟩ hab
  exact h.apart i a ha j b hb hab

lemma ListsAt.apart8_with (h : ListsAt s plist ls) (hx : FreeNode plist ls x) :
    Apart8 (NodesWith plist ls x) := by
  rintro a b (rfl|⟨i,ha⟩) (rfl|⟨j,hb⟩) hab
  · exact absurd rfl hab
  · exact (hx j b hb).symm
  · exact hx i a ha
  · exact h.apart i a ha j b hb hab

/-- Well-formed lists, from links that agree with the pointers of the nodes. -/
lemma listsAt_of_agreeOn {N : Word → Prop} {L : Links Word} (hN : Apart8 N)
    (hsame : AgreeOn N (linksOf s.mem) L) (hnodes : ∀ i, ∀ a ∈ nodesOf plist ls i, N a)
    (hrep : Represents L (fun i => plistHead (plist i)) (fun i => plistTail (plist i)) ls)
    (hhead : ∀ i, L.prev (plistHead (plist i)) = 0)
    (htail : ∀ i, L.next (plistTail (plist i)) = 0) : ListsAt s plist ls := by
  have hheads (i : ι) := hsame _ (hnodes i (plistHead (plist i)) (head_mem_spine i))
  have htails (i : ι) := hsame _ (hnodes i (plistTail (plist i)) (tail_mem_spine i))
  refine ⟨hrep.congr fun i a ha => hsame a (hnodes i a ha),fun i => ?_,fun i => ?_,?_⟩
  · exact (hheads i).2.trans (hhead i)
  · exact (htails i).1.trans (htail i)
  · exact fun i a ha j b hb hab => hN a b (hnodes i a ha) (hnodes j b hb) hab

/-- list_init adds an empty list, at a header apart from the nodes of the others. -/
theorem ListsAt.listInit {plist : Option ι → Word} {ls : Option ι → List Word}
    (h : ListsAt s (fun i => plist (some i)) fun i => ls (some i)) (hls : ls none = [])
    (hhead : FreeNode (fun i => plist (some i)) (fun i => ls (some i)) (plistHead (plist none)))
    (htail : FreeNode (fun i => plist (some i)) (fun i => ls (some i)) (plistTail (plist none))) :
    ListsAt (s.listInit (plist none)) plist ls := by
  have hnil : nodesOf plist ls none = [plistHead (plist none),plistTail (plist none)] := by
    rw [nodesOf,spine,hls,List.nil_append]
  have hheader := nodesApart_header (plist none)
  have hne : plistHead (plist none) ≠ plistTail (plist none) := fun he =>
    not_nodesApart_self _ (he ▸ hheader)
  have hnone (i : ι) (a b : Word) (ha : a ∈ nodesOf plist ls none)
      (hb : b ∈ nodesOf plist ls (some i)) : NodesApart a b := by
    rw [hnil,List.mem_pair] at ha
    rcases ha with rfl|rfl
    · exact (hhead i b hb).symm
    · exact (htail i b hb).symm
  have hN : Apart8 fun a => ∃ o, a ∈ nodesOf plist ls o := by
    rintro a b ⟨_|i,ha⟩ ⟨_|j,hb⟩ hab
    · rw [hnil,List.mem_pair] at ha hb
      rcases ha with rfl|rfl <;> rcases hb with rfl|rfl
      · exact absurd rfl hab
      · exact hheader
      · exact hheader.symm
      · exact absurd rfl hab
    · exact hnone j a b ha hb
    · exact (hnone i b a hb ha).symm
    · exact h.apart i a ha j b hb hab
  have hsame : AgreeOn (fun a => ∃ o, a ∈ nodesOf plist ls o)
      (linksOf (s.listInit (plist none)).mem)
      (initList (linksOf s.mem) (plistHead (plist none)) (plistTail (plist none)) 0) := by
    rw [listInit_mem]
    exact LinkStore.initList_agreeOn (nodeStore_faithful hN) ⟨none,head_mem_spine none⟩
      ⟨none,tail_mem_spine none⟩ trivial
  have hout (i : ι) (a : Word) (ha : a ∈ nodesOf plist ls (some i)) :
      a ≠ plistHead (plist none) ∧ a ≠ plistTail (plist none) :=
    ⟨fun e => hhead.not_mem i (e ▸ ha),fun e => htail.not_mem i (e ▸ ha)⟩
  refine listsAt_of_agreeOn hN hsame (fun o a ha => ⟨o,ha⟩)
    (Represents.initList (fun o => plistHead (plist o)) (fun o => plistTail (plist o)) h.lists hls
      hne hhead.not_mem htail.not_mem) ?_ ?_
  · rintro (_|i)
    · exact initList_prev_head hne
    · obtain ⟨hah,hat⟩ := hout i _ (head_mem_spine (some i))
      exact (initList_prev hah hat).trans (h.headPrev i)
  · rintro (_|i)
    · exact initList_next_tail
    · obtain ⟨hah,hat⟩ := hout i _ (tail_mem_spine (some i))
      exact (initList_next hah hat).trans (h.tailNext i)

/-- A node other than the end of its own list is not the end of another one. -/
lemma ListsAt.ne_of_mem (h : ListsAt s plist ls) (ha : a ∈ nodesOf plist ls i)
    (hb : b ∈ nodesOf plist ls j) (hne : i = j → a ≠ b) : a ≠ b := by
  by_cases hij : i = j
  · exact hne hij
  · rintro rfl
    exact h.lists.disjoint i j hij ha hb

variable [DecidableEq ι]

/-- list_insert_before between two neighbours of a list. -/
theorem ListsAt.insertBefore (h : ListsAt s plist ls) (hx : FreeNode plist ls x)
    (as bs : List Word) (p : Word)
    (hs : nodesOf plist ls i = as++p::b::bs)
    (hxs : plistHead (plist i)::(xs++[plistTail (plist i)]) = as++p::x::b::bs) :
    ListsAt (s.listInsertBefore b x) plist (Function.update ls i xs) := by
  have hprev : s.prev b = p := (h.lists.split hs).2.1.2
  obtain ⟨hpt,hbh⟩ := h.lists.ends hs
  have hp : p ∈ nodesOf plist ls i := by simp [hs]
  have hb : b ∈ nodesOf plist ls i := by simp [hs]
  have hN := h.apart8_with hx
  have hsame : AgreeOn (NodesWith plist ls x) (linksOf (s.listInsertBefore b x).mem)
      (IntrusiveList.insertBefore (linksOf s.mem) b x) := by
    rw [listInsertBefore_mem]
    exact LinkStore.insert_agreeOn h.lists (nodeStore_faithful hN) hs
  refine listsAt_of_agreeOn hN hsame
    (fun j a ha => (mem_spine_insert hs hxs ha).imp_right fun hm => ⟨j,hm⟩)
    (h.lists.insertBefore_spine as bs p hs hxs hx.not_mem) (fun j => ?_) fun j => ?_
  · have hh : plistHead (plist j) ∈ nodesOf plist ls j := head_mem_spine j
    have hhb : plistHead (plist j) ≠ b := h.ne_of_mem hh hb fun hj => hj ▸ hbh.symm
    have hhx : plistHead (plist j) ≠ x := fun he => hx.not_mem j (he ▸ hh)
    exact (insertBefore_prev _ _ _ _ hhb hhx).trans (h.headPrev j)
  · have ht : plistTail (plist j) ∈ nodesOf plist ls j := tail_mem_spine j
    have htp : plistTail (plist j) ≠ s.prev b :=
      hprev ▸ h.ne_of_mem ht hp fun hj => hj ▸ hpt.symm
    have htx : plistTail (plist j) ≠ x := fun he => hx.not_mem j (he ▸ ht)
    exact (insertBefore_next _ _ _ _ htp htx).trans (h.tailNext j)

theorem ListsAt.append (h : ListsAt s plist ls) (hx : FreeNode plist ls x) (i : ι) :
    ListsAt (s.listAppend (plist i) x) plist (Function.update ls i (ls i++[x])) := by
  obtain ⟨as,p,hs,hxs⟩ := spine_concat (fun i => plistHead (plist i))
    (fun i => plistTail (plist i)) ls i x
  exact h.insertBefore hx as [] p hs hxs

theorem ListsAt.insertBefore_mem (h : ListsAt s plist ls) (hx : FreeNode plist ls x)
    (hl : ls i = as++b::bs) :
    ListsAt (s.listInsertBefore b x) plist (Function.update ls i (as++x::b::bs)) := by
  obtain ⟨as',p,bs',hs,hxs⟩ := spine_before (fun i => plistHead (plist i))
    (fun i => plistTail (plist i)) hl x
  exact h.insertBefore hx as' bs' p hs hxs

theorem ListsAt.push (h : ListsAt s plist ls) (hx : FreeNode plist ls x) (i : ι) :
    ListsAt (s.listPush (plist i) x) plist (Function.update ls i (x::ls i)) := by
  have hnext : s.next (plistHead (plist i)) = (ls i++[plistTail (plist i)]).head (by simp) :=
    h.lists.next_head i
  rw [ListState.listPush,hnext]
  cases hl : ls i with
  | nil =>
    have happ := h.append hx i
    rwa [hl] at happ
  | cons b l => exact h.insertBefore_mem hx (show ls i = []++b::l from hl)

/-- list_remove of a member. -/
theorem ListsAt.remove (h : ListsAt s plist ls) (hx : x ∈ ls i) :
    ListsAt (s.listRemove x) plist (Function.update ls i ((ls i).erase x)) := by
  obtain ⟨as,p,b,bs,hs,hxs⟩ := h.lists.around hx
  obtain ⟨hprev,hnext,hne⟩ := LinkStore.links_of_mem (S := nodeStore) (s := s.mem) h.lists hs
  have hprev' : s.prev x = p := hprev
  have hnext' : s.next x = b := hnext
  have hs' : nodesOf plist ls i = (as++[p])++x::b::bs := hs.trans (by simp)
  have hpt := (h.lists.ends hs).1
  have hbh := (h.lists.ends hs').2
  have hpn : p ∈ nodesOf plist ls i := by simp [hs']
  have hbn : b ∈ nodesOf plist ls i := by simp [hs']
  have hsame : AgreeOn (fun a => ∃ i, a ∈ nodesOf plist ls i) (linksOf (s.listRemove x).mem)
      (IntrusiveList.remove (linksOf s.mem) x) := by
    rw [listRemove_mem]
    exact LinkStore.erase_agreeOn h.lists (nodeStore_faithful h.apart8) hs
  refine listsAt_of_agreeOn h.apart8 hsame (fun j a ha => ⟨j,mem_spine_remove hs hxs ha⟩)
    (h.lists.remove hx) (fun j => ?_) fun j => ?_
  · have hhb : plistHead (plist j) ≠ s.next x :=
      hnext' ▸ h.ne_of_mem (head_mem_spine j) hbn fun hj => hj ▸ hbh.symm
    exact (remove_prev _ _ _ (hprev.symm ▸ hne) hhb).trans (h.headPrev j)
  · have htp : plistTail (plist j) ≠ s.prev x :=
      hprev' ▸ h.ne_of_mem (tail_mem_spine j) hpn fun hj => hj ▸ hpt.symm
    exact (remove_next _ _ _ htp).trans (h.tailNext j)

theorem ListsAt.pop (h : ListsAt s plist ls) {l : List Word} (hl : ls i = x::l) :
    ∃ s', s.listPop (plist i) = .ok (x,s') ∧ ListsAt s' plist (Function.update ls i l) := by
  have hnext : s.next (plistHead (plist i)) = x := (h.lists.next_head i).trans (by simp [hl])
  have hxt : x ≠ plistTail (plist i) := fun he => h.lists.tail_not_mem i (by simp [hl,← he])
  have hrem := h.remove (i := i) (x := x) (by simp [hl])
  rw [hl,List.erase_cons_head] at hrem
  refine ⟨s.listRemove x,?_,hrem⟩
  rw [ListState.listPop,hnext,assert_of hxt]
  rfl

end Editing

section Queries
variable {ι : Type*} {s : ListState} {plist : ι → Word} {ls : ι → List Word} {i : ι} {rounds : ℕ}

theorem ListsAt.listEmpty (h : ListsAt s plist ls) (i : ι) :
    s.listEmpty (plist i) = true ↔ ls i = [] :=
  decide_eq_true_iff.trans (h.lists.isEmpty_iff i)

/-- The nodes of a list are different addresses. -/
lemma ListsAt.length_lt (h : ListsAt s plist ls) (i : ι) : (ls i).length < 2^32 := by
  have hnd : ((plistHead (plist i)::ls i).map BitVec.toNat).Nodup := by
    refine List.Nodup.map (fun _ _ => BitVec.eq_of_toNat_eq) (List.nodup_cons.mpr ⟨?_,?_⟩)
    · exact h.lists.head_not_mem i
    · exact h.lists.nodup_list i
  have hsub : (plistHead (plist i)::ls i).map BitVec.toNat ⊆ List.range (2^32) := by
    intro n hn
    obtain ⟨a,-,rfl⟩ := List.mem_map.mp hn
    exact List.mem_range.mpr a.isLt
  have hlen := (hnd.subperm hsub).length_le
  rw [List.length_map,List.length_cons,List.length_range] at hlen
  omega

theorem ListsAt.listLen (h : ListsAt s plist ls) (hr : (ls i).length < rounds) :
    ∃ n, s.listLen (plist i) rounds = some n ∧ n.toNat = (ls i).length := by
  have hloop : ∀ ret rounds, (ls i).length < rounds →
      s.listLenLoop (plist i) (s.next (plistHead (plist i))) ret rounds =
        some (ret+BitVec.ofNat 32 (ls i).length) := by
    refine h.lists.walk i (motive := fun l p => ∀ ret rounds, l.length < rounds →
      s.listLenLoop (plist i) p ret rounds = some (ret+BitVec.ofNat 32 l.length)) ?_ ?_
    · intro ret rounds hr
      obtain ⟨rounds,rfl⟩ := Nat.exists_eq_succ_of_ne_zero (Nat.ne_of_gt hr)
      rw [ListState.listLenLoop,if_neg (not_not.mpr rfl)]
      exact congrArg some (BitVec.add_zero ret).symm
    · intro x l hx ih ret rounds hr
      obtain ⟨rounds,rfl⟩ := Nat.exists_eq_succ_of_ne_zero (Nat.ne_of_gt (Nat.zero_lt_of_lt hr))
      rw [ListState.listLenLoop,if_pos hx,List.length_cons,Nat.add_comm,BitVec.ofNat_add,
        ← BitVec.add_assoc]
      exact ih (ret+1) rounds (Nat.lt_of_succ_lt_succ hr)
  have hz : (0 : Word)+BitVec.ofNat 32 (ls i).length = BitVec.ofNat 32 (ls i).length :=
    BitVec.zero_add _
  refine ⟨_,hloop 0 rounds hr,?_⟩
  rw [hz,BitVec.toNat_ofNat]
  exact Nat.mod_eq_of_lt (h.length_lt i)

/-- The loop of elem_find is the walk of the library. -/
lemma elemFindLoop_eq (plist x p : Word) (rounds : ℕ) :
    s.elemFindLoop plist x p rounds = find (linksOf s.mem) (plistTail plist) x rounds p := by
  induction rounds generalizing p with
  | zero => rfl
  | succ rounds ih =>
    rw [ListState.elemFindLoop,find,ite_not,ih]
    rfl

theorem ListsAt.elemFind (h : ListsAt s plist ls) (x : Word) (hr : (ls i).length < rounds) :
    s.elemFind (plist i) x rounds = some (decide (x ∈ ls i)) :=
  (elemFindLoop_eq _ _ _ _).trans (h.lists.find_eq i x hr)

theorem ListsAt.listTraversal (h : ListsAt s plist ls) (func : Word → Word → Word) (arg : Word)
    (hr : (ls i).length < rounds) : s.listTraversal (plist i) func arg rounds =
      some (((ls i).find? fun x => func x arg ≠ 0).getD 0) := by
  have hloop : s.listTraversalLoop (plist i) func arg (s.next (plistHead (plist i))) rounds =
      some (((ls i).find? fun x => func x arg ≠ 0).getD 0) := by
    refine h.lists.walk i (motive := fun l p => ∀ rounds, l.length < rounds →
      s.listTraversalLoop (plist i) func arg p rounds =
        some ((l.find? fun x => func x arg ≠ 0).getD 0)) ?_ ?_ rounds hr
    · intro rounds hr
      obtain ⟨rounds,rfl⟩ := Nat.exists_eq_succ_of_ne_zero (Nat.ne_of_gt hr)
      rw [ListState.listTraversalLoop,if_neg (not_not.mpr rfl)]
      rfl
    · intro y l hy ih rounds hr
      obtain ⟨rounds,rfl⟩ := Nat.exists_eq_succ_of_ne_zero (Nat.ne_of_gt (Nat.zero_lt_of_lt hr))
      rw [ListState.listTraversalLoop,if_pos hy]
      by_cases hf : func y arg ≠ 0
      · rw [if_pos hf,List.find?_cons_of_pos (by simpa using hf)]
        rfl
      · rw [if_neg hf,List.find?_cons_of_neg (by simpa using hf)]
        exact ih rounds (Nat.lt_of_succ_lt_succ hr)
  rw [ListState.listTraversal]
  split
  · rename_i he
    rw [(h.listEmpty i).mp he]
    rfl
  · exact hloop

end Queries

/-- The functions of list.c edit and read the sequences that the nodes represent. -/
theorem ListsAt.listOps {ι : Type*} [DecidableEq ι] {s : ListState} {plist : ι → Word}
    {ls : ι → List Word} (h : ListsAt s plist ls) : ListOps s plist ls where
  push i _ hx := h.push hx i
  append i _ hx := h.append hx i
  insertBefore _ _ _ _ _ hx hl := h.insertBefore_mem hx hl
  remove _ _ hx := h.remove hx
  pop _ _ _ hl := h.pop hl
  empty := h.listEmpty
  len _ _ hr := h.listLen hr
  find _ x _ hr := h.elemFind x hr
  traversal _ func arg _ hr := h.listTraversal func arg hr

/-- A list with a node, and a second list with two nodes behind it. -/
def pairState : ListState :=
  let s := (ListState.listInit ⟨fun _ => 0,true⟩ 0x1000).listAppend 0x1000 0x2000
  ((s.listInit 0x3000).listAppend 0x3000 0x4000).listPush 0x3000 0x5000

def pairHeads : Option (Option Empty) → Word
  | some _ => 0x1000
  | none => 0x3000

def pairLists (l : List Word) : Option (Option Empty) → List Word
  | some _ => [0x2000]
  | none => l

lemma pairLists_update (l l' : List Word) :
    Function.update (pairLists l) none l' = pairLists l' := by
  funext o
  cases o <;> rfl

/-- Eight bytes or more lie between the address and the nodes. -/
def FarFrom (x : Word) (l : List Word) : Prop := ∀ a ∈ l, 8 ≤ (x-a).toNat ∧ 8 ≤ (a-x).toNat

lemma pair_freeNode {l : List Word} {x : Word} (h₁ : FarFrom x [0x1000,0x2000,0x1008])
    (h₂ : FarFrom x (0x3000::(l++[0x3008]))) : FreeNode pairHeads (pairLists l) x := by
  rintro (_|_) a ha
  · exact nodesApart_of_sub (h₂ a ha).1 (h₂ a ha).2
  · exact nodesApart_of_sub (h₁ a ha).1 (h₁ a ha).2

lemma pairState_listsAt : ListsAt pairState pairHeads (pairLists [0x5000,0x4000]) := by
  have h₀ : ListsAt ⟨fun _ => 0,true⟩ (fun _ : Empty => 0x1000) fun _ => [] :=
    ⟨⟨nofun,nofun,nofun⟩,nofun,nofun,nofun⟩
  have h₁ : ListsAt (ListState.listInit ⟨fun _ => 0,true⟩ 0x1000)
      (fun _ : Option Empty => 0x1000) fun _ => [] :=
    @ListsAt.listInit Empty _ (fun _ => 0x1000) (fun _ => []) h₀ rfl nofun nofun
  have hx : FreeNode (fun _ : Option Empty => 0x1000) (fun _ => []) 0x2000 := by
    rintro (_|⟨⟨⟩⟩) a ha
    rcases List.mem_pair.mp ha with rfl|rfl <;> exact nodesApart_of_sub (by decide) (by decide)
  have h₂ := h₁.append hx none
  have hls : Function.update (fun _ : Option Empty => []) none ([]++[0x2000]) =
      fun i => pairLists [] (some i) := by
    funext o
    rcases o with _|⟨⟨⟩⟩
    rfl
  rw [hls] at h₂
  have hfree (x : Word) (hx : FarFrom x [0x1000,0x2000,0x1008]) :
      FreeNode (fun i => pairHeads (some i)) (fun i => pairLists [] (some i)) x := fun _ a ha =>
    nodesApart_of_sub (hx a ha).1 (hx a ha).2
  have h₃ := @ListsAt.listInit (Option Empty) _ pairHeads (pairLists []) h₂ rfl
    (hfree _ (by simp [FarFrom,plistHead,pairHeads])) (hfree _ (by simp [FarFrom,plistTail,pairHeads]))
  have h₄ := h₃.append (pair_freeNode (x := 0x4000) (by simp [FarFrom]) (by simp [FarFrom])) none
  rw [pairLists_update] at h₄
  have h₅ := h₄.push (pair_freeNode (l := [0x4000]) (x := 0x5000) (by simp [FarFrom])
    (by simp [FarFrom])) none
  rwa [pairLists_update] at h₅

theorem ListsAt.listOps_pair :
    ListOps pairState pairHeads (pairLists [0x5000,0x4000]) ∧
      ListsAt (pairState.listRemove 0x4000) pairHeads (pairLists [0x5000]) := by
  have h := ListsAt.listOps pairState_listsAt
  have hremove := h.remove none 0x4000 (by decide)
  rw [pairLists_update] at hremove
  exact ⟨h,hremove⟩

end OsKernel

import Mathlib.Data.List.Chain
import Mathlib.Tactic

/-! Doubly linked lists threaded through nodes of an arbitrary type. Every list owns a head
and a tail sentinel; a link structure represents a family of sequences when the spines of
all lists are consistently linked, duplicate free and pairwise disjoint. Each operation is
shown to edit the represented sequence of one list and to leave the others alone. -/
namespace IntrusiveList

/-- The two pointers stored in every node. -/
structure Links (α : Type*) where
  next : α → α
  prev : α → α

section Operations
variable {α : Type*} [DecidableEq α]

def Links.setNext (L : Links α) (a b : α) : Links α := ⟨Function.update L.next a b,L.prev⟩
def Links.setPrev (L : Links α) (a b : α) : Links α := ⟨L.next,Function.update L.prev a b⟩

/-- Four pointer writes make the empty list between two new sentinels. -/
def initList (L : Links α) (head tail null : α) : Links α :=
  let L₁ := L.setPrev head null
  let L₂ := L₁.setNext head tail
  let L₃ := L₂.setPrev tail head
  L₃.setNext tail null

/-- Four pointer writes put elem in front of before. -/
def insertBefore (L : Links α) (before elem : α) : Links α :=
  let L₁ := L.setNext (L.prev before) elem
  let L₂ := L₁.setNext elem before
  let L₃ := L₂.setPrev elem (L₂.prev before)
  L₃.setPrev before elem

/-- Two pointer writes bypass elem, whose own pointers are kept. -/
def remove (L : Links α) (elem : α) : Links α :=
  let L₁ := L.setNext (L.prev elem) (L.next elem)
  L₁.setPrev (L₁.next elem) (L₁.prev elem)

/-- Walk from p to the tail sentinel. The value none means that the walk did not end. -/
def find (L : Links α) (tail elem : α) : ℕ → α → Option Bool
  | 0,_ => none
  | n+1,p =>
    if p = tail then some false
    else if p = elem then some true
    else find L tail elem n (L.next p)

end Operations

section Chains
variable {α : Type*}

/-- The forward pointer of a and the backward pointer of b agree. -/
def Linked (L : Links α) (a b : α) : Prop := L.next a = b ∧ L.prev b = a

/-- Only the forward pointers before the last node and the backward pointers after the
first node matter to a linked chain. -/
theorem chain_congr {L L' : Links α} {l : List α}
    (hn : ∀ a ∈ l.dropLast, L'.next a = L.next a) (hp : ∀ b ∈ l.tail, L'.prev b = L.prev b)
    (h : l.IsChain (Linked L)) : l.IsChain (Linked L') := by
  induction l with
  | nil => exact .nil
  | cons a l ih =>
    cases l with
    | nil => exact .singleton a
    | cons b l =>
      rw [List.isChain_cons_cons] at h ⊢
      refine ⟨⟨?_,?_⟩,ih ?_ ?_ h.2⟩
      · exact (hn a (by simp)).trans h.1.1
      · exact (hp b (by simp)).trans h.1.2
      · intro c hc
        exact hn c (by simp [hc])
      · intro c hc
        exact hp c (by simp at hc ⊢; exact Or.inr hc)

/-- Two link structures that agree on some nodes. -/
def AgreeOn (N : α → Prop) (L L' : Links α) : Prop :=
  ∀ a, N a → L.next a = L'.next a ∧ L.prev a = L'.prev a

theorem AgreeOn.refl (N : α → Prop) (L : Links α) : AgreeOn N L L := fun _ _ => ⟨rfl,rfl⟩

theorem AgreeOn.trans {N : α → Prop} {L L' L'' : Links α} (h : AgreeOn N L L')
    (h' : AgreeOn N L' L'') : AgreeOn N L L'' := fun a ha =>
  ⟨(h a ha).1.trans (h' a ha).1,(h a ha).2.trans (h' a ha).2⟩

theorem AgreeOn.setNext [DecidableEq α] {N : α → Prop} {L L' : Links α} (h : AgreeOn N L L')
    (a v : α) : AgreeOn N (L.setNext a v) (L'.setNext a v) := by
  intro b hb
  obtain ⟨hnext,hprev⟩ := h b hb
  refine ⟨?_,hprev⟩
  by_cases hab : b = a
  · simp [Links.setNext,hab]
  · simp [Links.setNext,hab,hnext]

theorem AgreeOn.setPrev [DecidableEq α] {N : α → Prop} {L L' : Links α} (h : AgreeOn N L L')
    (a v : α) : AgreeOn N (L.setPrev a v) (L'.setPrev a v) := by
  intro b hb
  obtain ⟨hnext,hprev⟩ := h b hb
  refine ⟨hnext,?_⟩
  by_cases hab : b = a
  · simp [Links.setPrev,hab]
  · simp [Links.setPrev,hab,hprev]

end Chains

section Families
variable {α ι : Type*}

/-- All nodes of list i in order, sentinels included. -/
def spine (head tail : ι → α) (ls : ι → List α) (i : ι) : List α :=
  head i :: (ls i ++ [tail i])

/-- The link structure L stores the sequence ls i between head i and tail i, for every i. -/
structure Represents (L : Links α) (head tail : ι → α) (ls : ι → List α) : Prop where
  chain : ∀ i, (spine head tail ls i).IsChain (Linked L)
  nodup : ∀ i, (spine head tail ls i).Nodup
  disjoint : ∀ i j, i ≠ j → List.Disjoint (spine head tail ls i) (spine head tail ls j)

variable {L L' : Links α} {head tail : ι → α} {ls : ι → List α}

@[simp] theorem head_mem_spine (i : ι) : head i ∈ spine head tail ls i := by simp [spine]
@[simp] theorem tail_mem_spine (i : ι) : tail i ∈ spine head tail ls i := by simp [spine]

theorem mem_spine_of_mem {i : ι} {x : α} (h : x ∈ ls i) : x ∈ spine head tail ls i := by
  simp [spine,h]

theorem mem_spine {i : ι} {x : α} :
    x ∈ spine head tail ls i ↔ x = head i ∨ x ∈ ls i ∨ x = tail i := by simp [spine]

/-- A representation depends only on the pointers of the nodes it mentions. -/
theorem Represents.congr (h : Represents L head tail ls)
    (he : ∀ i, ∀ a ∈ spine head tail ls i, L'.next a = L.next a ∧ L'.prev a = L.prev a) :
    Represents L' head tail ls := by
  refine ⟨fun i => chain_congr ?_ ?_ (h.chain i),h.nodup,h.disjoint⟩
  · exact fun a ha => (he i a (List.mem_of_mem_dropLast ha)).1
  · exact fun a ha => (he i a (List.mem_of_mem_tail ha)).2

theorem Represents.of_agreeOn {N : α → Prop} (h : Represents L head tail ls) (hsame : AgreeOn N L' L)
    (hN : ∀ i, ∀ a ∈ spine head tail ls i, N a) : Represents L' head tail ls :=
  h.congr fun i a ha => hsame a (hN i a ha)

theorem Represents.not_mem_of_ne (h : Represents L head tail ls) {i j : ι} (hij : i ≠ j) {x : α}
    (hx : x ∈ spine head tail ls i) : x ∉ spine head tail ls j :=
  fun hy => h.disjoint i j hij hx hy

/-- The first node after the head sentinel. -/
theorem Represents.next_head (h : Represents L head tail ls) (i : ι) :
    L.next (head i) = (ls i ++ [tail i]).head (by simp) := by
  have hc := h.chain i
  unfold spine at hc
  cases hl : ls i with
  | nil => simp only [hl,List.nil_append,List.isChain_cons_cons] at hc; simpa using hc.1.1
  | cons a l => simp only [hl,List.cons_append,List.isChain_cons_cons] at hc; simpa using hc.1.1

theorem Represents.tail_not_mem (h : Represents L head tail ls) (i : ι) : tail i ∉ ls i := by
  have hn := h.nodup i
  simp only [spine,List.nodup_cons,List.nodup_append] at hn
  intro hm
  exact hn.2.2.2 _ hm _ (by simp) rfl

theorem Represents.head_not_mem (h : Represents L head tail ls) (i : ι) : head i ∉ ls i := by
  have hn := h.nodup i
  simp only [spine,List.nodup_cons,List.mem_append,not_or] at hn
  exact hn.1.1

theorem Represents.nodup_list (h : Represents L head tail ls) (i : ι) : (ls i).Nodup := by
  have hn := h.nodup i
  simp only [spine,List.nodup_cons,List.nodup_append] at hn
  exact hn.2.1

/-- The forward pointers determine the nodes between a and t. -/
theorem chain_unique {t : α} {l l' : List α} (ht : t ∉ l) (ht' : t ∉ l') {a : α}
    (hc : (a::(l++[t])).IsChain (Linked L)) (hc' : (a::(l'++[t])).IsChain (Linked L)) : l = l' := by
  induction l generalizing a l' with
  | nil =>
    have hnext := (List.isChain_cons_cons.mp hc).1.1
    cases l' with
    | nil => rfl
    | cons b l' =>
      have hb := (List.isChain_cons_cons.mp hc').1.1
      exact absurd (hnext.symm.trans hb) (List.ne_of_not_mem_cons ht')
  | cons b l ih =>
    obtain ⟨⟨hnext,-⟩,hc⟩ := List.isChain_cons_cons.mp hc
    cases l' with
    | nil =>
      have hb := (List.isChain_cons_cons.mp hc').1.1
      exact absurd (hb.symm.trans hnext) (List.ne_of_not_mem_cons ht)
    | cons b' l' =>
      obtain ⟨⟨hnext',-⟩,hc'⟩ := List.isChain_cons_cons.mp hc'
      obtain rfl : b = b' := hnext.symm.trans hnext'
      rw [ih (List.not_mem_of_not_mem_cons ht) (List.not_mem_of_not_mem_cons ht') hc hc']

/-- The pointers determine the sequences. -/
theorem Represents.unique {ls' : ι → List α} (h : Represents L head tail ls)
    (h' : Represents L head tail ls') (i : ι) : ls i = ls' i :=
  chain_unique (h.tail_not_mem i) (h'.tail_not_mem i) (h.chain i) (h'.chain i)

/-- A list is empty exactly when its head points to its tail. -/
theorem Represents.isEmpty_iff (h : Represents L head tail ls) (i : ι) :
    L.next (head i) = tail i ↔ ls i = [] := by
  rw [h.next_head i]
  cases hl : ls i with
  | nil => simp
  | cons a l =>
    simp only [List.cons_append,List.head_cons,reduceCtorEq,iff_false]
    rintro rfl
    exact h.tail_not_mem i (by simp [hl])

lemma walk_of_chain {motive : List α → α → Prop} {t : α} (hnil : motive [] t)
    (hcons : ∀ x l, x ≠ t → motive l (L.next x) → motive (x::l) x) {l : List α} (ht : t ∉ l) {a : α}
    (hc : (a::(l++[t])).IsChain (Linked L)) : motive l (L.next a) := by
  induction l generalizing a with
  | nil =>
    have hnext := (List.isChain_cons_cons.mp hc).1.1
    rwa [hnext]
  | cons b l ih =>
    obtain ⟨⟨hnext,-⟩,hc⟩ := List.isChain_cons_cons.mp hc
    rw [hnext]
    exact hcons b l (List.ne_of_not_mem_cons ht).symm (ih (List.not_mem_of_not_mem_cons ht) hc)

/-- What holds at the tail, and at every node if it holds at the next one, holds of the walk
through a list from its first node on. -/
theorem Represents.walk (h : Represents L head tail ls) (i : ι) {motive : List α → α → Prop}
    (hnil : motive [] (tail i))
    (hcons : ∀ x l, x ≠ tail i → motive l (L.next x) → motive (x::l) x) :
    motive (ls i) (L.next (head i)) :=
  walk_of_chain hnil hcons (h.tail_not_mem i) (h.chain i)

/-- Each pair of adjacent nodes on a spine splits the chain there. -/
theorem Represents.split (h : Represents L head tail ls) {i : ι} {as bs : List α} {p b : α}
    (hs : spine head tail ls i = as ++ p :: b :: bs) :
    (as ++ [p]).IsChain (Linked L) ∧ Linked L p b ∧ (b :: bs).IsChain (Linked L) := by
  have hc := h.chain i
  rwa [hs,List.isChain_append_cons_cons] at hc

/-- A node with a successor on the spine is not the tail, and one with a predecessor is not the
head. -/
theorem Represents.ends (h : Represents L head tail ls) {i : ι} {as bs : List α} {p b : α}
    (hs : spine head tail ls i = as ++ p :: b :: bs) : p ≠ tail i ∧ b ≠ head i := by
  have hnd := h.nodup i
  have hlast : (spine head tail ls i).getLast? = some (tail i) := by
    rw [spine,← List.cons_append,List.getLast?_append]
    rfl
  have hfirst : (spine head tail ls i).head? = some (head i) := rfl
  rw [hs] at hnd hlast hfirst
  simp only [List.nodup_append,List.nodup_cons,List.mem_cons,not_or] at hnd
  obtain ⟨-,⟨⟨hpb,hpbs⟩,hbbs,-⟩,hdis⟩ := hnd
  constructor
  · rintro rfl
    rw [List.getLast?_append_of_ne_nil _ (by simp),List.getLast?_cons_cons] at hlast
    rcases List.mem_cons.mp (List.mem_of_getLast? hlast) with ht|ht
    · exact hpb ht
    · exact hpbs ht
  · rintro rfl
    cases as with
    | nil => exact hpb (Option.some.inj hfirst)
    | cons a as => exact hdis a List.mem_cons_self _ (.inr (.inl rfl)) (Option.some.inj hfirst)

variable [DecidableEq ι]

theorem spine_update_self (i : ι) (xs : List α) :
    spine head tail (Function.update ls i xs) i = head i :: (xs ++ [tail i]) := by simp [spine]

theorem spine_update_of_ne {i j : ι} (h : j ≠ i) (xs : List α) :
    spine head tail (Function.update ls i xs) j = spine head tail ls j := by simp [spine,h]

/-- The nodes after a node has been put between two neighbours of list i. -/
theorem mem_spine_insert {i j : ι} {xs as bs : List α} {p b x a : α}
    (hs : spine head tail ls i = as ++ p :: b :: bs)
    (hxs : head i :: (xs ++ [tail i]) = as ++ p :: x :: b :: bs)
    (ha : a ∈ spine head tail (Function.update ls i xs) j) : a = x ∨ a ∈ spine head tail ls j := by
  by_cases hj : j = i
  · subst j
    rw [spine_update_self,hxs] at ha
    rw [hs]
    simp only [List.mem_append,List.mem_cons] at ha ⊢
    tauto
  · rw [spine_update_of_ne hj] at ha
    exact .inr ha

/-- The nodes after the one between two neighbours of list i has been taken out. -/
theorem mem_spine_remove {i j : ι} {xs as bs : List α} {p b x a : α}
    (hs : spine head tail ls i = as ++ p :: x :: b :: bs)
    (hxs : head i :: (xs ++ [tail i]) = as ++ p :: b :: bs)
    (ha : a ∈ spine head tail (Function.update ls i xs) j) : a ∈ spine head tail ls j := by
  by_cases hj : j = i
  · subst j
    rw [spine_update_self,hxs] at ha
    rw [hs]
    simp only [List.mem_append,List.mem_cons] at ha ⊢
    tauto
  · rwa [spine_update_of_ne hj] at ha

omit [DecidableEq ι] in
/-- The place at the end of a list. -/
theorem spine_concat (head tail : ι → α) (ls : ι → List α) (i : ι) (x : α) : ∃ as p,
    spine head tail ls i = as ++ p :: tail i :: [] ∧
      head i :: (ls i ++ [x] ++ [tail i]) = as ++ p :: x :: tail i :: [] := by
  rcases List.eq_nil_or_concat (ls i) with hl | ⟨as,p,hl⟩
  · exact ⟨[],head i,by simp [spine,hl],by simp [hl]⟩
  · exact ⟨head i :: as,p,by simp [spine,hl],by simp [hl]⟩

omit [DecidableEq ι] in
/-- The place in front of a member. -/
theorem spine_before (head tail : ι → α) {i : ι} {as bs : List α} {b : α}
    (hl : ls i = as ++ b :: bs) (x : α) : ∃ as' p bs',
    spine head tail ls i = as' ++ p :: b :: bs' ∧
      head i :: (as ++ x :: b :: bs ++ [tail i]) = as' ++ p :: x :: b :: bs' := by
  rcases List.eq_nil_or_concat as with rfl | ⟨as,p,rfl⟩
  · exact ⟨[],head i,bs ++ [tail i],by simp [spine,hl],by simp⟩
  · exact ⟨head i :: as,p,bs ++ [tail i],by simp [spine,hl],by simp⟩

end Families

section Init
variable {α ι : Type*} [DecidableEq α] {L : Links α} {a b null x : α}

lemma initList_next (ha : x ≠ a) (hb : x ≠ b) : (initList L a b null).next x = L.next x := by
  simp [initList,Links.setNext,Links.setPrev,ha,hb]

lemma initList_prev (ha : x ≠ a) (hb : x ≠ b) : (initList L a b null).prev x = L.prev x := by
  simp [initList,Links.setNext,Links.setPrev,ha,hb]

lemma initList_next_head (hab : a ≠ b) : (initList L a b null).next a = b := by
  simp [initList,Links.setNext,Links.setPrev,hab]

lemma initList_prev_head (hab : a ≠ b) : (initList L a b null).prev a = null := by
  simp [initList,Links.setNext,Links.setPrev,hab]

lemma initList_prev_tail : (initList L a b null).prev b = a := by
  simp [initList,Links.setNext,Links.setPrev]

lemma initList_next_tail : (initList L a b null).next b = null := by
  simp [initList,Links.setNext,Links.setPrev]

/-- A new empty list besides those of a family. -/
theorem Represents.initList (head tail : Option ι → α) {ls : Option ι → List α}
    (h : Represents L (fun i => head (some i)) (fun i => tail (some i)) fun i => ls (some i))
    (hls : ls none = []) (hne : head none ≠ tail none)
    (hhead : ∀ i, head none ∉ spine head tail ls (some i))
    (htail : ∀ i, tail none ∉ spine head tail ls (some i)) :
    Represents (initList L (head none) (tail none) null) head tail ls := by
  have hout (i : ι) (x : α) (hx : x ∈ spine head tail ls (some i)) :
      x ≠ head none ∧ x ≠ tail none :=
    ⟨fun e => hhead i (e ▸ hx),fun e => htail i (e ▸ hx)⟩
  have hnil : spine head tail ls none = [head none,tail none] := by rw [spine,hls,List.nil_append]
  have hnone (i : ι) : List.Disjoint (spine head tail ls none) (spine head tail ls (some i)) := by
    simp only [hnil,List.disjoint_cons_left]
    exact ⟨hhead i,htail i,List.disjoint_nil_left _⟩
  refine ⟨?_,?_,?_⟩
  · rintro (_|i)
    · rw [hnil,List.isChain_cons_cons]
      exact ⟨⟨initList_next_head hne,initList_prev_tail⟩,.singleton _⟩
    · refine chain_congr (fun x hx => ?_) (fun x hx => ?_) (h.chain i)
      · obtain ⟨hxh,hxt⟩ := hout i x (List.mem_of_mem_dropLast hx)
        exact initList_next hxh hxt
      · obtain ⟨hxh,hxt⟩ := hout i x (List.mem_of_mem_tail hx)
        exact initList_prev hxh hxt
  · rintro (_|i)
    · simpa [hnil] using hne
    · exact h.nodup i
  · rintro (_|i) (_|j) hij
    · exact absurd rfl hij
    · exact hnone j
    · exact (hnone i).symm
    · exact h.disjoint i j fun e => hij (congrArg some e)

end Init

section Editing
variable {α ι : Type*} [DecidableEq α] [DecidableEq ι]
variable {L : Links α} {head tail : ι → α} {ls : ι → List α}

lemma insertBefore_next (L : Links α) (b x a : α) (hp : a ≠ L.prev b) (hx : a ≠ x) :
    (insertBefore L b x).next a = L.next a := by
  simp [insertBefore,Links.setNext,Links.setPrev,hp,hx]

lemma insertBefore_prev (L : Links α) (b x a : α) (hb : a ≠ b) (hx : a ≠ x) :
    (insertBefore L b x).prev a = L.prev a := by
  simp [insertBefore,Links.setNext,Links.setPrev,hb,hx]

omit [DecidableEq α] [DecidableEq ι] in
/-- One node of a list in front of the others. -/
lemma perm_splice (as bs : List α) (p x : α) :
    (as ++ p :: x :: bs).Perm (x :: (as ++ p :: bs)) := by
  have hperm := @List.perm_middle _ x (as ++ [p]) bs
  simpa using hperm

omit [DecidableEq ι] in
/-- The chain with a new node between two neighbours. -/
theorem isChain_insertBefore {as bs : List α} {p b x : α}
    (hc : (as ++ p :: b :: bs).IsChain (Linked L)) (hnd : (as ++ p :: b :: bs).Nodup)
    (hx : x ∉ as ++ p :: b :: bs) :
    (as ++ p :: x :: b :: bs).IsChain (Linked (insertBefore L b x)) := by
  obtain ⟨hl,⟨-,hp⟩,hr⟩ := List.isChain_append_cons_cons.mp hc
  simp only [List.mem_append,List.mem_cons,not_or] at hx
  simp only [List.nodup_append,List.nodup_cons,List.mem_cons,not_or] at hnd
  obtain ⟨hxas,hxp,hxb,hxbs⟩ := hx
  obtain ⟨-,⟨⟨hpb,hpbs⟩,hbbs,-⟩,hdis⟩ := hnd
  rw [List.isChain_append_cons_cons,List.isChain_cons_cons]
  refine ⟨chain_congr ?_ ?_ hl,⟨?_,?_⟩,⟨?_,?_⟩,chain_congr ?_ ?_ hr⟩
  · intro a ha
    simp only [List.dropLast_concat] at ha
    refine insertBefore_next L b x a ?_ (fun e => hxas (e ▸ ha))
    rw [hp]
    exact hdis a ha p (Or.inl rfl)
  · intro a ha
    have ha' := List.mem_of_mem_tail ha
    simp only [List.mem_append,List.mem_singleton] at ha'
    refine insertBefore_prev L b x a ?_ ?_
    · rintro rfl
      exact ha'.elim (fun hm => hdis a hm a (Or.inr (Or.inl rfl)) rfl) (fun e => hpb e.symm)
    · rintro rfl
      exact ha'.elim hxas (fun e => hxp e)
  · simp [insertBefore,Links.setNext,Links.setPrev,hp,Ne.symm hxp]
  · simp [insertBefore,Links.setNext,Links.setPrev,hp,hxb]
  · simp [insertBefore,Links.setNext,Links.setPrev]
  · simp [insertBefore,Links.setNext,Links.setPrev]
  · intro a ha
    have ha' := List.mem_of_mem_dropLast ha
    refine insertBefore_next L b x a ?_ ?_
    · rw [hp]
      rintro rfl
      exact (List.mem_cons.mp ha').elim hpb hpbs
    · rintro rfl
      exact (List.mem_cons.mp ha').elim hxb hxbs
  · intro a ha
    refine insertBefore_prev L b x a ?_ ?_
    · rintro rfl
      exact hbbs ha
    · rintro rfl
      exact hxbs ha

omit [DecidableEq α] in
/-- An edit of list i: its new spine is a chain of its own nodes and of nodes from no list, and the
pointers of the other lists are kept. -/
theorem Represents.edit {L' : Links α} (h : Represents L head tail ls) {i : ι} {xs : List α}
    (hchain : (head i :: (xs ++ [tail i])).IsChain (Linked L'))
    (hnodup : (head i :: (xs ++ [tail i])).Nodup)
    (hnodes : ∀ a ∈ head i :: (xs ++ [tail i]), a ∈ spine head tail ls i ∨
      ∀ j, a ∉ spine head tail ls j)
    (hkeep : ∀ j, j ≠ i → ∀ a ∈ spine head tail ls j,
      L'.next a = L.next a ∧ L'.prev a = L.prev a) :
    Represents L' head tail (Function.update ls i xs) := by
  have hdisjoint {j : ι} (hj : j ≠ i) :
      List.Disjoint (head i :: (xs ++ [tail i])) (spine head tail ls j) := fun a ha hb =>
    (hnodes a ha).elim (fun hm => h.disjoint i j hj.symm hm hb) fun hm => hm j hb
  refine ⟨fun j => ?_,fun j => ?_,fun j k hjk => ?_⟩
  · by_cases hj : j = i
    · subst j
      rwa [spine_update_self]
    · rw [spine_update_of_ne hj]
      refine chain_congr ?_ ?_ (h.chain j)
      · exact fun a ha => (hkeep j hj a (List.mem_of_mem_dropLast ha)).1
      · exact fun a ha => (hkeep j hj a (List.mem_of_mem_tail ha)).2
  · by_cases hj : j = i
    · subst j
      rwa [spine_update_self]
    · rw [spine_update_of_ne hj]
      exact h.nodup j
  · by_cases hj : j = i
    · subst j
      rw [spine_update_self,spine_update_of_ne hjk.symm]
      exact hdisjoint hjk.symm
    · rw [spine_update_of_ne hj]
      by_cases hk : k = i
      · subst k
        rw [spine_update_self]
        exact (hdisjoint hj).symm
      · rw [spine_update_of_ne hk]
        exact h.disjoint j k hjk

/-- Inserting a fresh node between two adjacent nodes of list i. -/
theorem Represents.insertBefore_spine (h : Represents L head tail ls) {i : ι}
    {xs : List α} (as bs : List α) (p : α) {b x : α} (hs : spine head tail ls i = as ++ p :: b :: bs)
    (hxs : head i :: (xs ++ [tail i]) = as ++ p :: x :: b :: bs)
    (hx : ∀ j, x ∉ spine head tail ls j) :
    Represents (insertBefore L b x) head tail (Function.update ls i xs) := by
  have hc := h.chain i
  have hnd := h.nodup i
  have hxi := hx i
  have hp : L.prev b = p := (h.split hs).2.1.2
  rw [hs] at hc hnd hxi
  refine h.edit ?_ ?_ (fun a ha => ?_) fun j hj a ha => ?_
  · rw [hxs]
    exact isChain_insertBefore hc hnd hxi
  · rw [hxs,(perm_splice as (b :: bs) p x).nodup_iff]
    exact List.nodup_cons.mpr ⟨hxi,hnd⟩
  · rw [hxs,(perm_splice as (b :: bs) p x).mem_iff,List.mem_cons] at ha
    rw [hs]
    rcases ha with rfl|ha
    · exact .inr hx
    · exact .inl ha
  · have hni := h.not_mem_of_ne hj ha
    rw [hs] at hni
    simp only [List.mem_append,List.mem_cons,not_or] at hni
    have hax : a ≠ x := fun e => hx j (e ▸ ha)
    exact ⟨insertBefore_next L b x a (hp ▸ hni.2.1) hax,insertBefore_prev L b x a hni.2.2.1 hax⟩

/-- Appending at the tail sentinel. -/
theorem Represents.append (h : Represents L head tail ls) (i : ι) {x : α}
    (hx : ∀ j, x ∉ spine head tail ls j) :
    Represents (insertBefore L (tail i) x) head tail (Function.update ls i (ls i ++ [x])) := by
  obtain ⟨as,p,hs,hxs⟩ := spine_concat head tail ls i x
  exact h.insertBefore_spine as [] p hs hxs hx

/-- Pushing in front of the first node. -/
theorem Represents.push (h : Represents L head tail ls) (i : ι) {x : α}
    (hx : ∀ j, x ∉ spine head tail ls j) :
    Represents (insertBefore L (L.next (head i)) x) head tail
      (Function.update ls i (x :: ls i)) := by
  rw [h.next_head i]
  cases hl : ls i with
  | nil =>
    exact h.insertBefore_spine [] [] (head i) (by simp [spine,hl])
      (by simp) hx
  | cons b l =>
    exact h.insertBefore_spine [] (l ++ [tail i]) (head i)
      (by simp [spine,hl]) (by simp) hx

lemma remove_next (L : Links α) (x a : α) (ha : a ≠ L.prev x) :
    (remove L x).next a = L.next a := by simp [remove,Links.setNext,Links.setPrev,ha]

lemma remove_prev (L : Links α) (x a : α) (hx : x ≠ L.prev x) (ha : a ≠ L.next x) :
    (remove L x).prev a = L.prev a := by simp [remove,Links.setNext,Links.setPrev,hx,ha]

omit [DecidableEq ι] in
/-- The chain without the node between two neighbours. -/
theorem isChain_remove {as bs : List α} {p b x : α}
    (hc : (as ++ p :: x :: b :: bs).IsChain (Linked L)) (hnd : (as ++ p :: x :: b :: bs).Nodup) :
    (as ++ p :: b :: bs).IsChain (Linked (remove L x)) := by
  obtain ⟨hl,⟨-,hxp⟩,hxr⟩ := List.isChain_append_cons_cons.mp hc
  obtain ⟨⟨hxb,-⟩,hr⟩ := List.isChain_cons_cons.mp hxr
  rw [(perm_splice as (b :: bs) p x).nodup_iff] at hnd
  simp only [List.nodup_append,List.nodup_cons,List.mem_append,List.mem_cons,not_or] at hnd
  obtain ⟨⟨-,hxp',-,-⟩,-,⟨⟨hpb,hpbs⟩,hbbs,-⟩,hdis⟩ := hnd
  have hxprev : x ≠ L.prev x := by rw [hxp]; exact hxp'
  rw [List.isChain_append_cons_cons]
  refine ⟨chain_congr ?_ ?_ hl,⟨?_,?_⟩,chain_congr ?_ ?_ hr⟩
  · intro a ha
    simp only [List.dropLast_concat] at ha
    refine remove_next L x a ?_
    rw [hxp]
    exact hdis a ha p (Or.inl rfl)
  · intro a ha
    have ha' := List.mem_of_mem_tail ha
    simp only [List.mem_append,List.mem_singleton] at ha'
    refine remove_prev L x a hxprev ?_
    rw [hxb]
    rintro rfl
    exact ha'.elim (fun hm => hdis a hm a (Or.inr (Or.inl rfl)) rfl) (fun e => hpb e.symm)
  · simp [remove,Links.setNext,Links.setPrev,hxp,hxb]
  · simp [remove,Links.setNext,Links.setPrev,hxp,hxb,hxp']
  · intro a ha
    refine remove_next L x a ?_
    rw [hxp]
    rintro rfl
    exact (List.mem_cons.mp (List.mem_of_mem_dropLast ha)).elim hpb hpbs
  · intro a ha
    refine remove_prev L x a hxprev ?_
    rw [hxb]
    rintro rfl
    exact hbbs ha

/-- Removing a node between two neighbours on the spine of list i. -/
theorem Represents.remove_spine (h : Represents L head tail ls) {i : ι} {xs : List α}
    (as bs : List α) (p b : α) {x : α} (hs : spine head tail ls i = as ++ p :: x :: b :: bs)
    (hxs : head i :: (xs ++ [tail i]) = as ++ p :: b :: bs) :
    Represents (remove L x) head tail (Function.update ls i xs) := by
  have hc := h.chain i
  have hnd := h.nodup i
  obtain ⟨-,⟨-,hxp⟩,hxr⟩ := h.split hs
  have hxb : L.next x = b := (List.isChain_cons_cons.mp hxr).1.1
  rw [hs] at hc hnd
  have hrest := (perm_splice as (b :: bs) p x).nodup_iff.mp hnd
  refine h.edit ?_ ?_ (fun a ha => .inl ?_) fun j hj a ha => ?_
  · rw [hxs]
    exact isChain_remove hc hnd
  · rw [hxs]
    exact (List.nodup_cons.mp hrest).2
  · rw [hxs] at ha
    rw [hs,(perm_splice as (b :: bs) p x).mem_iff]
    exact List.mem_cons_of_mem x ha
  · have hni := h.not_mem_of_ne hj ha
    rw [hs] at hni
    simp only [List.nodup_cons,List.mem_append,List.mem_cons,not_or] at hni hrest
    exact ⟨remove_next L x a (hxp ▸ hni.2.1),
      remove_prev L x a (hxp ▸ hrest.1.2.1) (hxb ▸ hni.2.2.2.1)⟩

omit [DecidableEq ι] in
/-- The neighbours of a member on its spine, and the spine without it. -/
lemma Represents.around (h : Represents L head tail ls) {i : ι} {x : α} (hx : x ∈ ls i) :
    ∃ as p b bs, spine head tail ls i = as ++ p :: x :: b :: bs ∧
      head i :: ((ls i).erase x ++ [tail i]) = as ++ p :: b :: bs := by
  obtain ⟨as,bs,hl⟩ := List.append_of_mem hx
  have hnd := h.nodup_list i
  rw [hl] at hnd
  have hxas : x ∉ as := fun hm => by
    simp only [List.nodup_append] at hnd
    exact hnd.2.2 x hm x (by simp) rfl
  have herase : (ls i).erase x = as ++ bs := by
    rw [hl,List.erase_append_right _ hxas,List.erase_cons_head]
  rw [herase]
  obtain ⟨b,bs',hb⟩ : ∃ b bs', bs ++ [tail i] = b :: bs' := by
    cases bs with
    | nil => exact ⟨tail i,[],rfl⟩
    | cons b bs => exact ⟨b,bs ++ [tail i],rfl⟩
  rcases List.eq_nil_or_concat as with rfl | ⟨as',p,rfl⟩
  · exact ⟨[],head i,b,bs',by simp [spine,hl,hb],by simp [hb]⟩
  · exact ⟨head i :: as',p,b,bs',by simp [spine,hl,hb],by simp [hb]⟩

/-- Removing a member deletes its only occurrence. -/
theorem Represents.remove (h : Represents L head tail ls) {i : ι} {x : α} (hx : x ∈ ls i) :
    Represents (remove L x) head tail (Function.update ls i ((ls i).erase x)) := by
  obtain ⟨as,p,b,bs,hs,hxs⟩ := h.around hx
  exact h.remove_spine as bs p b hs hxs

/-- Popping removes the node that the head sentinel points to. -/
theorem Represents.pop (h : Represents L head tail ls) {i : ι} {x : α} {l : List α}
    (hl : ls i = x :: l) :
    L.next (head i) = x ∧
      Represents (IntrusiveList.remove L x) head tail (Function.update ls i l) := by
  refine ⟨by simp [h.next_head i,hl],?_⟩
  have hr := h.remove (show x ∈ ls i by simp [hl])
  rwa [hl,List.erase_cons_head] at hr

omit [DecidableEq ι] in
/-- The walk of a represented list ends and decides membership. -/
theorem Represents.find_eq (h : Represents L head tail ls) (i : ι) (x : α) {n : ℕ}
    (hn : (ls i).length < n) :
    find L (tail i) x n (L.next (head i)) = some (decide (x ∈ ls i)) := by
  refine h.walk i (motive := fun l p => ∀ n, l.length < n →
    find L (tail i) x n p = some (decide (x ∈ l))) ?_ ?_ n hn
  · intro n hn
    obtain ⟨n,rfl⟩ := Nat.exists_eq_succ_of_ne_zero (Nat.ne_of_gt hn)
    rw [find,if_pos rfl]
    rfl
  · intro b l hb ih n hn
    obtain ⟨n,rfl⟩ := Nat.exists_eq_succ_of_ne_zero (Nat.ne_of_gt (Nat.zero_lt_of_lt hn))
    rw [find,if_neg hb]
    by_cases hbx : b = x
    · simp [hbx]
    · rw [if_neg hbx,ih n (Nat.lt_of_succ_lt_succ hn)]
      simp [Ne.symm hbx]

end Editing

end IntrusiveList

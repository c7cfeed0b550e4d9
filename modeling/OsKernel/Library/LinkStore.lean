import OsKernel.Library.IntrusiveList

/-! Intrusive lists in a store, where the pointers of the nodes are read and written one at a
time. A store in which the nodes do not overlap shows every operation as the edit of the links
that it is, and so the lists in it change like the lists of the links. -/
namespace IntrusiveList

/-- The pointers that a store holds, and the writes to them. -/
structure LinkStore (σ α : Type*) where
  links : σ → Links α
  setNext : σ → α → α → σ
  setPrev : σ → α → α → σ

namespace LinkStore

section Operations
variable {σ α : Type*} (S : LinkStore σ α)

def initList (s : σ) (head tail null : α) : σ :=
  let s := S.setPrev s head null
  let s := S.setNext s head tail
  let s := S.setPrev s tail head
  S.setNext s tail null

/-- The pointer to the node before is read once for each write that needs it. -/
def insertBefore (s : σ) (before elem : α) : σ :=
  let s := S.setNext s ((S.links s).prev before) elem
  let s := S.setNext s elem before
  let s := S.setPrev s elem ((S.links s).prev before)
  S.setPrev s before elem

def remove (s : σ) (elem : α) : σ :=
  let s := S.setNext s ((S.links s).prev elem) ((S.links s).next elem)
  S.setPrev s ((S.links s).next elem) ((S.links s).prev elem)

end Operations

/-- As far as the nodes in N show it, a write changes the pointer that it names and no other. It
has to be of a value that fits, as every node does. -/
structure Faithful {σ α : Type*} [DecidableEq α] (S : LinkStore σ α) (N Fits : α → Prop) :
    Prop where
  fits : ∀ a, N a → Fits a
  setNext : ∀ s a v, N a → Fits v →
    AgreeOn N (S.links (S.setNext s a v)) ((S.links s).setNext a v)
  setPrev : ∀ s a v, N a → Fits v →
    AgreeOn N (S.links (S.setPrev s a v)) ((S.links s).setPrev a v)

section Agreement
variable {σ α : Type*} [DecidableEq α] {S : LinkStore σ α} {N Fits : α → Prop} {s : σ}
  {L : Links α} {a v head tail null before elem : α}

theorem Faithful.next (hS : S.Faithful N Fits) (h : AgreeOn N (S.links s) L) (ha : N a)
    (hv : Fits v) : AgreeOn N (S.links (S.setNext s a v)) (L.setNext a v) :=
  (hS.setNext s a v ha hv).trans (h.setNext a v)

theorem Faithful.prev (hS : S.Faithful N Fits) (h : AgreeOn N (S.links s) L) (ha : N a)
    (hv : Fits v) : AgreeOn N (S.links (S.setPrev s a v)) (L.setPrev a v) :=
  (hS.setPrev s a v ha hv).trans (h.setPrev a v)

theorem initList_agreeOn (hS : S.Faithful N Fits) (hhead : N head) (htail : N tail)
    (hnull : Fits null) : AgreeOn N (S.links (S.initList s head tail null))
      (IntrusiveList.initList (S.links s) head tail null) := by
  have h₁ := hS.prev (AgreeOn.refl N (S.links s)) hhead hnull
  have h₂ := hS.next h₁ hhead (hS.fits tail htail)
  have h₃ := hS.prev h₂ htail (hS.fits head hhead)
  exact hS.next h₃ htail hnull

theorem insertBefore_agreeOn (hS : S.Faithful N Fits) (hbefore : N before) (helem : N elem)
    (hprev : N ((S.links s).prev before)) : AgreeOn N (S.links (S.insertBefore s before elem))
      (IntrusiveList.insertBefore (S.links s) before elem) := by
  have h₁ := hS.next (AgreeOn.refl N (S.links s)) hprev (hS.fits elem helem)
  have h₂ := hS.next h₁ helem (hS.fits before hbefore)
  -- the third write takes the pointer as the store shows it after the first two
  have hread := (h₂ before hbefore).2
  have h₃ := hS.prev h₂ helem (hS.fits _ hprev)
  have h₄ := hS.prev h₃ hbefore (hS.fits elem helem)
  rw [LinkStore.insertBefore,hread]
  exact h₄

/-- The node that is bypassed keeps its own pointers. -/
theorem remove_next (hS : S.Faithful N Fits) (helem : N elem) (hprev : N ((S.links s).prev elem))
    (hnext : N ((S.links s).next elem)) (hne : elem ≠ (S.links s).prev elem) :
    (S.links (S.setNext s ((S.links s).prev elem) ((S.links s).next elem))).next elem =
      (S.links s).next elem :=
  (hS.setNext s _ _ hprev (hS.fits _ hnext) elem helem).1.trans (Function.update_of_ne hne _ _)

theorem remove_agreeOn (hS : S.Faithful N Fits) (helem : N elem)
    (hprev : N ((S.links s).prev elem)) (hnext : N ((S.links s).next elem))
    (hne : elem ≠ (S.links s).prev elem) :
    AgreeOn N (S.links (S.remove s elem)) (IntrusiveList.remove (S.links s) elem) := by
  have h₁ := hS.next (AgreeOn.refl N (S.links s)) hprev (hS.fits _ hnext)
  have hread := remove_next hS helem hprev hnext hne
  have hread' := (h₁ elem helem).2
  have hkeep : ((S.links s).setNext ((S.links s).prev elem) ((S.links s).next elem)).next elem =
      (S.links s).next elem := Function.update_of_ne hne _ _
  have h₂ := hS.prev h₁ hnext (hS.fits _ hprev)
  rw [LinkStore.remove,IntrusiveList.remove,hread,hread',hkeep]
  exact h₂

end Agreement

/-- The nodes of all lists, and one more. -/
def NodesWith {α ι : Type*} (head tail : ι → α) (ls : ι → List α) (x a : α) : Prop :=
  a = x ∨ ∃ i, a ∈ spine head tail ls i

section Lists
variable {σ α ι : Type*} [DecidableEq α] {S : LinkStore σ α} {Fits : α → Prop} {s : σ}
  {head tail : ι → α} {ls : ι → List α} {i : ι} {xs as bs : List α} {p b x : α}

/-- The links after an insertion between two neighbours. -/
theorem insert_agreeOn (h : Represents (S.links s) head tail ls)
    (hS : S.Faithful (NodesWith head tail ls x) Fits)
    (hs : spine head tail ls i = as ++ p :: b :: bs) :
    AgreeOn (NodesWith head tail ls x) (S.links (S.insertBefore s b x))
      (IntrusiveList.insertBefore (S.links s) b x) := by
  have hprev : (S.links s).prev b = p := (h.split hs).2.1.2
  refine insertBefore_agreeOn hS (.inr ⟨i,?_⟩) (.inl rfl) (.inr ⟨i,?_⟩)
  · simp [hs]
  · simp [hprev,hs]

omit [DecidableEq α] in
/-- The neighbours of a member, by its own pointers. -/
theorem links_of_mem (h : Represents (S.links s) head tail ls)
    (hs : spine head tail ls i = as ++ p :: x :: b :: bs) : (S.links s).prev x = p ∧
      (S.links s).next x = b ∧ x ≠ p := by
  obtain ⟨-,⟨-,hprev⟩,hr⟩ := h.split hs
  obtain ⟨⟨hnext,-⟩,-⟩ := List.isChain_cons_cons.mp hr
  refine ⟨hprev,hnext,?_⟩
  have hnd := h.nodup i
  rw [hs] at hnd
  rintro rfl
  simp [List.nodup_append] at hnd

/-- The links after a removal between two neighbours. -/
theorem erase_agreeOn (h : Represents (S.links s) head tail ls)
    (hS : S.Faithful (fun a => ∃ i, a ∈ spine head tail ls i) Fits)
    (hs : spine head tail ls i = as ++ p :: x :: b :: bs) :
    AgreeOn (fun a => ∃ i, a ∈ spine head tail ls i) (S.links (S.remove s x))
      (IntrusiveList.remove (S.links s) x) := by
  obtain ⟨hprev,hnext,hne⟩ := links_of_mem h hs
  refine remove_agreeOn hS ⟨i,?_⟩ ⟨i,?_⟩ ⟨i,?_⟩ (hprev ▸ hne)
  · simp [hs]
  · simp [hprev,hs]
  · simp [hnext,hs]

variable [DecidableEq ι]

/-- An insertion in the store edits one of the lists in it. -/
theorem represents_insert (h : Represents (S.links s) head tail ls)
    (hS : S.Faithful (NodesWith head tail ls x) Fits)
    (hs : spine head tail ls i = as ++ p :: b :: bs)
    (hxs : head i :: (xs ++ [tail i]) = as ++ p :: x :: b :: bs)
    (hx : ∀ j, x ∉ spine head tail ls j) :
    Represents (S.links (S.insertBefore s b x)) head tail (Function.update ls i xs) :=
  (h.insertBefore_spine as bs p hs hxs hx).of_agreeOn (insert_agreeOn h hS hs) fun j _ ha =>
    (mem_spine_insert hs hxs ha).imp_right fun hm => ⟨j,hm⟩

/-- A removal in the store edits one of the lists in it. -/
theorem represents_remove (h : Represents (S.links s) head tail ls)
    (hS : S.Faithful (fun a => ∃ i, a ∈ spine head tail ls i) Fits)
    (hs : spine head tail ls i = as ++ p :: x :: b :: bs)
    (hxs : head i :: (xs ++ [tail i]) = as ++ p :: b :: bs) :
    Represents (S.links (S.remove s x)) head tail (Function.update ls i xs) :=
  (h.remove_spine as bs p b hs hxs).of_agreeOn (erase_agreeOn h hS hs) fun j _ ha =>
    ⟨j,mem_spine_remove hs hxs ha⟩

end Lists
end LinkStore
end IntrusiveList
